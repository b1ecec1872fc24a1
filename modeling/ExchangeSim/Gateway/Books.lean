/- digest: The desk of the server over abstract books: what it finds, and what a command does to all
   of them. -/

import ExchangeSim.Book.Levels
import ExchangeSim.Book.Mentions
import ExchangeSim.Engine.Exposure
import ExchangeSim.Gateway.Gateway

set_option autoImplicit false
set_option relaxedAutoImplicit false

namespace ExchangeSim.Gateway

open Book (OrderBook OrderView StoreLayout IndexHash PriorityBook Resting)
open Book.PriorityBook (Rules Told)
open Engine (RiskGate MatchingEngine RiskConfig)

variable {σ : Type} [StoreLayout σ] {numSymbols : UInt32} {bookCfg : BookConfig} {risk : RiskConfig}
  {g g' : RiskGate (OrderBook σ)} {books books' : SymbolId → PriorityBook}

theorem findOrder_eq (h : g.Holds numSymbols bookCfg risk books) {s : SymbolId}
    (hs : s < numSymbols) (x : OrderId) :
    desk.findOrder g s x = (PriorityBook.lookup (books s) x).map fun p =>
      (p.1, Rules.priceOf ⟨s, bookCfg⟩ p.2.level) := by
  change (((g.engine.book s).findOrder x).join).map _ = _
  rw [(h.engine.book s hs).findOrder x, Option.join_some, Option.map_map]
  rfl

/-- An order as the book of a known symbol returns it. -/
def resting (g : RiskGate (OrderBook σ)) (symbol : SymbolId) (x : OrderId) : Option OrderView :=
  if symbol < g.engine.numSymbols then Engine.BookType.findOrder (g.engine.book symbol) x else none

theorem resting_eq (h : g.Holds numSymbols bookCfg risk books) (symbol : SymbolId) (x : OrderId) :
    resting g symbol x = if symbol < numSymbols then
      (PriorityBook.lookup (books symbol) x).map fun p =>
        ⟨Rules.priceOf ⟨symbol, bookCfg⟩ p.2.level, p.2.qty, p.1, p.2.owner⟩
    else none := by
  rw [resting, h.engine.known]
  split
  · rename_i hs
    change ((g.engine.book symbol).findOrder x).join = _
    rw [(h.engine.book symbol hs).findOrder x, Option.join_some]
  · rfl

theorem resting_mem (h : g.Holds numSymbols bookCfg risk books) {symbol : SymbolId}
    (hs : symbol < numSymbols) {S : Side} {e : Resting} (he : e ∈ books symbol S) :
    resting g symbol e.id = some ⟨Rules.priceOf ⟨symbol, bookCfg⟩ e.level, e.qty, S, e.owner⟩ := by
  rw [resting_eq h, if_pos hs, (h.engine.book symbol hs).ok.ids.lookup_eq he]
  rfl

theorem mem_of_resting (h : g.Holds numSymbols bookCfg risk books) {symbol : SymbolId}
    {x : OrderId} {v : OrderView} (hv : resting g symbol x = some v) : symbol < numSymbols ∧
    ∃ e ∈ books symbol v.side,
      e.id = x ∧ v = ⟨Rules.priceOf ⟨symbol, bookCfg⟩ e.level, e.qty, v.side, e.owner⟩ := by
  rw [resting_eq h] at hv
  split at hv
  · rename_i hs
    obtain ⟨p, hlook, rfl⟩ := Option.map_eq_some_iff.mp hv
    obtain ⟨he, hid⟩ := PriorityBook.lookup_mem hlook
    exact ⟨hs, p.2, he, hid, rfl⟩
  · cases hv

theorem resting_make (hash : IndexHash) (numSymbols : UInt32) {bookCfg : BookConfig}
    (ok : bookCfg.Accepted) (risk : RiskConfig) (symbol : SymbolId) (x : OrderId) :
    resting (RiskGate.make (MatchingEngine.make hash numSymbols bookCfg) risk : RiskGate
      (OrderBook σ)) symbol x = none := by
  rw [resting_eq (RiskGate.holds_make hash numSymbols ok risk)]
  split
  · rfl
  · rfl

structure Answer (numSymbols : UInt32) (books books' : SymbolId → PriorityBook) (c : Command)
    (events : List Event) :
    Prop where
  elsewhere : ∀ s, s ≠ c.symbol → books' s = books s
  told : Told (books c.symbol) c (books' c.symbol, events)
  symbol : ∀ ev ∈ events, ev.symbol = c.symbol
  unknown : ¬ c.symbol < numSymbols → ∀ ev ∈ events, ev.orderId = c.orderId ∧ ev.makerId = 0
  places : ∀ U, (((books' c.symbol U).filter fun e => e.id ≠ c.orderId).map
    PriorityBook.key).Sublist
    ((books c.symbol U).map PriorityBook.key)

theorem answer_stopped (books : SymbolId → PriorityBook) (c : Command) (reason : Reason) :
    Answer numSymbols books books c [rejectedEvent c reason] where
  elsewhere _ _ := rfl
  told := Book.PriorityBook.told_rejected (books c.symbol) c reason
  symbol ev hev := by
    rw [List.mem_singleton.mp hev]
    rfl
  unknown _ ev hev := by
    rw [List.mem_singleton.mp hev]
    exact ⟨rfl, rfl⟩
  places _ := List.filter_sublist.map _

theorem answer_passed (h : g.Holds numSymbols bookCfg risk books)
    (ok : bookCfg.Accepted) {c : Command} (hc : c.symbol < numSymbols) :
    let r := PriorityBook.process ⟨c.symbol, bookCfg⟩ PriorityBook.fillableAgg (books c.symbol) c
    Answer numSymbols books (Function.update books c.symbol r.1) c r.2 := by
  intro r
  have hself : Function.update books c.symbol r.1 c.symbol = r.1 := Function.update_self ..
  constructor
  · intro s hs
    exact Function.update_of_ne hs ..
  · rw [hself]
    exact Book.PriorityBook.process_told _ (books c.symbol) c
  · intro ev hev
    exact Book.PriorityBook.process_symbol (R := ⟨c.symbol, bookCfg⟩) _ (books c.symbol) rfl ev hev
  · exact fun hno => absurd hc hno
  · intro U
    rw [hself]
    exact Book.PriorityBook.process_places (R := ⟨c.symbol, bookCfg⟩) ok.levels_le
      (h.engine.book c.symbol hc).ok _ c U

theorem Holds.answer (h : g.Holds numSymbols bookCfg risk books) (ok : bookCfg.Accepted)
    {c : Command} {events : List Event} (hrun : desk.process g c = some (g', events)) :
    ∃ books', g'.Holds numSymbols bookCfg risk books' ∧
    Answer numSymbols books books' c events := by
  by_cases hpass : c.symbol < numSymbols ∧ (c.type = .cancel ∨ (g.check c).1 = .none)
  · obtain ⟨hc, hpass⟩ := hpass
    obtain ⟨g₁, hg₁, hholds⟩ := h.passed ok hc hpass
    obtain ⟨rfl, rfl⟩ := Prod.mk.inj (Option.some.inj (hrun.symm.trans hg₁))
    exact ⟨_, hholds, answer_passed h ok hc⟩
  · have hno : ¬ c.symbol < numSymbols ∨ c.type ≠ .cancel ∧ (g.check c).1 ≠ .none := by
      rw [not_and_or, not_or] at hpass
      exact hpass
    obtain ⟨g₁, reason, hg₁, hholds⟩ := h.stopped hno
    obtain ⟨rfl, rfl⟩ := Prod.mk.inj (Option.some.inj (hrun.symm.trans hg₁))
    exact ⟨books, hholds, answer_stopped books c reason⟩

/-- No order has the invalid id. -/
def Nonzero (numSymbols : UInt32) (books : SymbolId → PriorityBook) : Prop :=
  ∀ s, s < numSymbols → ∀ S, ∀ e ∈ books s S, e.id ≠ 0

theorem Nonzero.answer (h : Nonzero numSymbols books) {c : Command} {events : List Event}
    (ha : Answer numSymbols books books' c events) : Nonzero numSymbols books' := by
  intro s hs S e he
  by_cases hsym : s = c.symbol
  · subst hsym
    rcases ha.told.source S e he with ⟨e', he', hid, -⟩ | ⟨hid, -, hacc⟩
    · rw [← hid]
      exact h c.symbol hs S e' he'
    · rw [hid]
      exact (ha.told.fresh hacc).2.1
  · rw [ha.elsewhere s hsym] at he
    exact h s hs S e he

theorem Nonzero.run (hzero : Nonzero numSymbols books) (h : g.Holds numSymbols bookCfg risk books)
    (ok : bookCfg.Accepted) {ks : List Engine.GateCall} {events : List Event}
    (hrun : g.run ks = some (g', events)) :
    ∃ books', g'.Holds numSymbols bookCfg risk books' ∧ Nonzero numSymbols books' := by
  induction ks generalizing g books events with
  | nil =>
      cases hrun
      exact ⟨books, h, hzero⟩
  | cons k ks ih =>
      rw [RiskGate.run] at hrun
      obtain ⟨⟨g₁, evs⟩, hcall, hrun⟩ := Option.bind_eq_some_iff.mp hrun
      obtain ⟨⟨g₂, more⟩, hmore, hrun⟩ := Option.bind_eq_some_iff.mp hrun
      cases hrun
      obtain ⟨g₃, evs₃, books₃, hcall₃, h₃, hcase⟩ := h.call ok k
      obtain ⟨rfl, rfl⟩ := Prod.mk.inj (Option.some.inj (hcall₃.symm.trans hcall))
      refine ih ?_ h₃ hmore
      rcases hcase with ⟨rfl, -⟩ | ⟨c, -, hc, -, rfl, -⟩
      · exact hzero
      · exact hzero.answer (answer_passed h ok hc)

theorem reached_holds (hash : IndexHash) (numSymbols : UInt32) {bookCfg : BookConfig}
    (ok : bookCfg.Accepted) (risk : RiskConfig) {calls : List Engine.GateCall}
    {g : RiskGate (OrderBook σ)} {events : List Event}
    (reached : (RiskGate.make (MatchingEngine.make hash numSymbols bookCfg) risk).run calls =
      some (g, events)) :
    ∃ books, g.Holds numSymbols bookCfg risk books ∧ Nonzero numSymbols books := by
  have hempty : Nonzero numSymbols fun _ => PriorityBook.empty :=
    fun _ _ _ _ he => absurd he List.not_mem_nil
  exact hempty.run (RiskGate.holds_make hash numSymbols ok risk) ok reached

end ExchangeSim.Gateway
