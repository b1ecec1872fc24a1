/- digest: The level entries published for a batch turn the level-2 map before it into the one after
   it, as long as no order rests at price zero. -/

import ExchangeSim.Book.Touched
import ExchangeSim.Gateway.Books
import ExchangeSim.Gateway.Commit
import ExchangeSim.Gateway.Core

set_option autoImplicit false
set_option relaxedAutoImplicit false

namespace ExchangeSim.Gateway

open Lib (Always)
open Book (OrderBook StoreLayout IndexHash)
open Book.PriorityBook (Rules totalAtPrice totalAt atLevel touched)
open Engine (RiskGate MatchingEngine RiskConfig)

/-! ### The levels noted in a batch -/

/-- The event names the level. -/
def Names (l : MdLevel) (e : Event) : Prop := e.symbol = l.symbol ∧ touched e = some (l.side, l.px)

theorem mem_note {m : MdBatch} {e : Event} {l : MdLevel} :
    l ∈ (m.note e).levels ↔ l ∈ m.levels ∨ (Names l e ∧ (e.type = .trade ∨ l.px ≠ 0)) := by
  obtain ⟨symbol, side, px⟩ := l
  cases hty : e.type with
  | trade => simp [MdBatch.note, Names, touched, hty, eq_comm]
  | rejected => simp [MdBatch.note, Names, touched, hty]
  | accepted | canceled | modified =>
      have hnote : (m.note e).levels = if e.price ≠ 0 then
        m.levels ++ [⟨e.symbol, e.side, e.price⟩] else m.levels := by
        simp only [MdBatch.note, hty]
        split <;> rfl
      have hnames : Names ⟨symbol, side, px⟩ e ↔ e.symbol = symbol ∧
          e.side = side ∧ e.price = px := by
        simp [Names, touched, hty]
      rw [hnote, hnames]
      by_cases hpx : e.price = 0
      · rw [if_neg (not_not.mpr hpx)]
        simp only [reduceCtorEq, false_or, iff_self_or]
        rintro ⟨⟨-, -, rfl⟩, hne⟩
        exact absurd hpx hne
      · rw [if_pos hpx, List.mem_append, List.mem_singleton, MdLevel.mk.injEq]
        simp only [reduceCtorEq, false_or]
        refine or_congr_right ?_
        constructor
        · rintro ⟨rfl, rfl, rfl⟩
          exact ⟨⟨rfl, rfl, rfl⟩, hpx⟩
        · rintro ⟨⟨rfl, rfl, rfl⟩, -⟩
          exact ⟨rfl, rfl, rfl⟩

theorem mem_foldl_note {m : MdBatch} {evs : List Event} {l : MdLevel} :
    l ∈ (evs.foldl MdBatch.note m).levels ↔ l ∈ m.levels ∨ ∃ ev ∈ evs, Names l ev ∧
    (ev.type = .trade ∨ l.px ≠ 0) := by
  induction evs generalizing m with
  | nil => simp
  | cons ev evs ih =>
      rw [List.foldl_cons, ih, mem_note, or_assoc]
      simp

theorem foldl_note_trades (m : MdBatch) (evs : List Event) :
    (evs.foldl MdBatch.note m).trades = m.trades ++ evs.filter fun ev => ev.type = .trade := by
  induction evs generalizing m with
  | nil => simp
  | cons ev evs ih =>
      rw [List.foldl_cons, ih]
      cases hty : ev.type with
      | trade => simp [MdBatch.note, hty]
      | rejected => simp [MdBatch.note, hty]
      | accepted | canceled | modified =>
          simp only [MdBatch.note, hty]
          split <;> simp [hty]

theorem onEvent_md (k : Sink) (w : Written) (e : Event) :
    (k.onEvent w e).md = if k.md then w.md.note e else w.md := by
  simp only [Sink.onEvent]
  split
  · rfl
  · split <;> rfl

theorem foldl_onEvent_md (k : Sink) (w : Written) (evs : List Event) :
    (evs.foldl k.onEvent w).md = if k.md then evs.foldl MdBatch.note w.md else w.md := by
  induction evs generalizing w with
  | nil => simp
  | cons e evs ih =>
      rw [List.foldl_cons, ih, onEvent_md]
      split <;> rfl

private theorem mem_eraseRepsBy_loop {α : Type} [BEq α] [LawfulBEq α] {x : α} (a : α)
    (l acc : List α) :
    x ∈ List.eraseRepsBy.loop (fun a b => a == b) a l acc ↔ x = a ∨ x ∈ l ∨ x ∈ acc := by
  induction l generalizing a acc with
  | nil => simp [List.eraseRepsBy.loop, or_comm]
  | cons b l ih =>
      rw [List.eraseRepsBy.loop]
      cases hab : a == b with
      | true =>
          have heq : a = b := eq_of_beq hab
          subst heq
          simp only [ih, List.mem_cons]
          tauto
      | false =>
          simp only [ih, List.mem_cons]
          tauto

private theorem mem_eraseReps {α : Type} [BEq α] [LawfulBEq α] {x : α} (l : List α) :
    x ∈ l.eraseReps ↔ x ∈ l := by
  cases l with
  | nil => rfl
  | cons a l =>
      change x ∈ List.eraseRepsBy.loop (fun a b => a == b) a l [] ↔ _
      rw [mem_eraseRepsBy_loop, List.mem_cons]
      simp

/-! ### Level-2 maps -/

/-- The total at every level at which something rests. -/
abbrev LevelMap := MdLevel → Option Qty

/-- A published entry: a total of zero removes the level. -/
def LevelMap.apply (m : LevelMap) (u : MdLevel × Qty) : LevelMap :=
  Function.update m u.1 (if u.2 = 0 then none else some u.2)

theorem LevelMap.foldl_apply (m : LevelMap) (q : MdLevel → Qty) (ls : List MdLevel) (l : MdLevel) :
    (ls.map fun l => (l, q l)).foldl LevelMap.apply m l =
      if l ∈ ls then (if q l = 0 then none else some (q l)) else m l := by
  induction ls generalizing m with
  | nil => simp
  | cons a ls ih =>
      rw [List.map_cons, List.foldl_cons, ih]
      by_cases hl : l ∈ ls
      · rw [if_pos hl, if_pos (List.mem_cons_of_mem a hl)]
      · rw [if_neg hl, LevelMap.apply]
        by_cases ha : l = a
        · subst ha
          rw [Function.update_self, if_pos List.mem_cons_self]
        · rw [Function.update_of_ne ha, if_neg (by simp [ha, hl])]

theorem foldl_published {G : Type} (desk : Desk G) (md : MdBatch) (g : G)
    (m : LevelMap) (l : MdLevel) :
    (published desk md g).foldl LevelMap.apply m l =
      if l ∈ md.levels then
        (if desk.levelQty g l.symbol l.side l.px = 0 then none
          else some (desk.levelQty g l.symbol l.side l.px))
      else m l := by
  rw [published, LevelMap.foldl_apply m fun l => desk.levelQty g l.symbol l.side l.px]
  simp only [mem_eraseReps, List.mem_mergeSort]

section Levels

variable {σ : Type} [StoreLayout σ]

/-- What the listings of all books hold. -/
def levelMap (g : RiskGate (OrderBook σ)) : LevelMap := fun l =>
  if l.symbol < g.engine.numSymbols then
    ((((g.engine.book l.symbol).forEachLevel l.side).getD []).find? fun p =>
      p.1 = l.px).map Prod.snd
  else none

variable {numSymbols : UInt32} {bookCfg : BookConfig} {risk : RiskConfig}
    {g : RiskGate (OrderBook σ)}
  {books : SymbolId → Book.PriorityBook}

theorem levelMap_eq (h : g.Holds numSymbols bookCfg risk books)
    (ok : bookCfg.Accepted) (l : MdLevel) :
    levelMap g l = if l.symbol < numSymbols then totalAtPrice ⟨l.symbol, bookCfg⟩
      (books l.symbol l.side) l.px else none := by
  rw [levelMap, h.engine.known]
  split
  · rename_i hl
    obtain ⟨levels, hrun, hfind⟩ := (h.engine.book l.symbol hl).find_level ok.levels_le l.side l.px
    rw [hrun, Option.getD_some, hfind]
  · rfl

theorem levelQty_eq (h : g.Holds numSymbols bookCfg risk books) {l : MdLevel}
    (hl : l.symbol < numSymbols) :
    desk.levelQty g l.symbol l.side l.px =
    (totalAtPrice ⟨l.symbol, bookCfg⟩ (books l.symbol l.side) l.px).getD 0 :=
  (h.engine.book l.symbol hl).levelQty l.side l.px

theorem total_ne_zero (h : g.Holds numSymbols bookCfg risk books) (ok : bookCfg.Accepted)
    (small : risk.maxQty ≤ 1000000) {l : MdLevel} (hl : l.symbol < numSymbols) :
    totalAtPrice ⟨l.symbol, bookCfg⟩ (books l.symbol l.side) l.px ≠ some 0 := by
  have hok := (h.engine.book l.symbol hl).ok
  have hqty : Book.PriorityBook.QtyLe 1000000 (books l.symbol) := by
    intro S e he
    have hle := UInt64.le_trans (h.within l.symbol hl S e he).qty_le small
    exact UInt64.le_iff_toNat_le.mp hle
  have hcap : 1000000 * bookCfg.maxOrders < 2 ^ 64 := by
    have := ok.orders_lt
    rw [kNil] at this
    omega
  have hvolume := hqty.volume_lt hok.count_le hcap l.side
  rw [totalAtPrice]
  cases Rules.relOf ⟨l.symbol, bookCfg⟩ l.px with
  | none => simp
  | some ix => exact Book.PriorityBook.totalAt_ne_zero (hok.positive l.side) hvolume ix

theorem levelMap_settled (h : g.Holds numSymbols bookCfg risk books) (ok : bookCfg.Accepted)
    (small : risk.maxQty ≤ 1000000) {l : MdLevel} (hl : l.symbol < numSymbols) :
    (if desk.levelQty g l.symbol l.side l.px = 0 then none
      else some (desk.levelQty g l.symbol l.side l.px)) = levelMap g l := by
  rw [levelMap_eq h ok, if_pos hl, levelQty_eq h hl]
  have hne := total_ne_zero h ok small hl
  cases ht : totalAtPrice ⟨l.symbol, bookCfg⟩ (books l.symbol l.side) l.px with
  | none => simp
  | some q =>
      rw [ht] at hne
      have hq : q ≠ 0 := fun hq => hne (by rw [hq])
      simp [hq]

end Levels

/-! ### Batches -/

structure Tape where
  done : List Command := []
  batch : List (Command × List Event) := []

def Tape.step (t : Tape) : Action → Tape
  | .process _ c events => { t with batch := t.batch ++ [(c, events)] }
  | .marketData .. => { done := t.done ++ t.batch.map Prod.fst }
  | _ => t

def tape (log : List Action) : Tape := log.foldl Tape.step {}

theorem tape_append (log more : List Action) : tape (log ++ more) = more.foldl Tape.step
    (tape log) := List.foldl_append

/-- An action that neither handles a command nor publishes. -/
def Action.aside : Action → Bool
  | .process .. | .marketData .. => false
  | _ => true

theorem aside_of_untold {a : Action} (h : a.told = false) : a.aside = true := by
  cases a <;> first | rfl | cases h

theorem tape_aside (log : List Action) {more : List Action} (h : ∀ a ∈ more, a.aside = true) :
    tape (log ++ more) = tape log := by
  rw [tape_append]
  induction more with
  | nil => rfl
  | cons a more ih =>
      have ha : (tape log).step a = tape log := by
        have haside := h a List.mem_cons_self
        cases a <;> first | rfl | cases haside
      rw [List.foldl_cons, ha]
      exact ih fun b hb => h b (List.mem_cons_of_mem a hb)

/-- The gate after these commands. -/
def replay {G : Type} (desk : Desk G) (g : G) (cs : List Command) : Option G :=
  cs.foldlM (fun g c => (desk.process g c).map Prod.fst) g

theorem replay_concat {G : Type} {desk : Desk G} {g g' g'' : G} {cs : List Command} {c : Command}
    {events : List Event} (h : replay desk g cs = some g')
    (hc : desk.process g' c = some (g'', events)) :
    replay desk g (cs ++ [c]) = some g'' := by
  rw [replay, List.foldlM_append]
  change (replay desk g cs >>= _) = _
  rw [h]
  simp [hc]

theorem replay_append {G : Type} {desk : Desk G} {g g' : G} {cs : List Command}
    (h : replay desk g cs = some g') (more : List Command) :
    replay desk g (cs ++ more) = replay desk g' more := by
  rw [replay, List.foldlM_append]
  change (replay desk g cs >>= _) = _
  rw [h]
  rfl

section Complete

variable {σ : Type} [StoreLayout σ]

/-- A publication, where the gate was `gate` at the start of the log: its entries turn the map
before the batch into the map after it, and its trades are those of the batch in order. -/
def Complete (gate : RiskGate (OrderBook σ)) (log : List Action) : Action → Prop
  | .marketData trades levels => ∃ before after, replay desk gate (tape log).done = some before ∧
      replay desk before ((tape log).batch.map Prod.fst) = some after ∧
      levels.foldl LevelMap.apply (levelMap before) = levelMap after ∧
      trades = ((tape log).batch.flatMap Prod.snd).filter fun ev => ev.type = .trade
  | _ => True

/-- When a batch is released, no order rests at price zero. -/
def OffZero (s : State (RiskGate (OrderBook σ))) : Prop :=
  s.pc = .release → ∀ symbol side, levelMap s.core.gate ⟨symbol, side, 0⟩ = none

section Command

variable {numSymbols : UInt32} {bookCfg : BookConfig} {risk : RiskConfig}
    {g g' : RiskGate (OrderBook σ)}
  {books books' : SymbolId → Book.PriorityBook}

/-- The level of the order that a command modifies. -/
def Leaves (g : RiskGate (OrderBook σ)) (c : Command) (l : MdLevel) : Prop :=
  c.type = .modify ∧ c.symbol = l.symbol ∧ desk.findOrder g c.symbol c.orderId = some (l.side, l.px)

theorem mem_noteModify {cfg : GatewayConfig} {md : MdBatch} {c : Command} {l : MdLevel} :
    l ∈ (noteModify cfg desk md g c).levels ↔
      l ∈ md.levels ∨ (cfg.marketData = true ∧ c.symbol < g.engine.numSymbols ∧ Leaves g c l) := by
  have hsym : c.symbol.toNat < desk.numSymbols g ↔ c.symbol < g.engine.numSymbols :=
    UInt32.lt_iff_toNat_lt.symm
  rw [noteModify, Leaves]
  split
  · rename_i hon
    cases hfind : desk.findOrder g c.symbol c.orderId with
    | none => simp
    | some p =>
        obtain ⟨side, px⟩ := p
        obtain ⟨symbol, side', px'⟩ := l
        rw [hsym] at hon
        simp [hon, eq_comm]
  · rename_i hoff
    rw [hsym] at hoff
    simp only [iff_self_or]
    rintro ⟨hmd, hs, hty, -⟩
    exact absurd ⟨hmd, hty, hs⟩ hoff

theorem noteModify_trades (cfg : GatewayConfig) (md : MdBatch)
    (g : RiskGate (OrderBook σ)) (c : Command) :
    (noteModify cfg desk md g c).trades = md.trades := by
  rw [noteModify]
  split
  · split <;> rfl
  · rfl

/-- A command that a book gets changes no level but those its events name and the one it leaves. -/
theorem process_unnoted (h : g.Holds numSymbols bookCfg risk books) {c : Command}
    (hc : c.symbol < numSymbols) {l : MdLevel}
    (hnames : ∀ ev ∈ (Book.PriorityBook.process ⟨c.symbol, bookCfg⟩ Book.PriorityBook.fillableAgg
      (books c.symbol) c).2, ¬ Names l ev) (hleaves : ¬ Leaves g c l) :
    totalAtPrice ⟨l.symbol, bookCfg⟩ (Function.update books c.symbol
      (Book.PriorityBook.process ⟨c.symbol, bookCfg⟩ Book.PriorityBook.fillableAgg (books c.symbol)
        c).1 l.symbol l.side) l.px =
      totalAtPrice ⟨l.symbol, bookCfg⟩ (books l.symbol l.side) l.px := by
  obtain ⟨symbol, side, px⟩ := l
  by_cases hsym : symbol = c.symbol
  · subst hsym
    rw [Function.update_self, totalAtPrice, totalAtPrice]
    cases hrel : Rules.relOf ⟨c.symbol, bookCfg⟩ px with
    | none => rfl
    | some ix =>
        have hprice := Rules.priceOf_relOf hrel
        have hok := (h.engine.book c.symbol hc).ok
        rw [Option.bind_some, Option.bind_some, totalAt, totalAt]
        rcases Book.PriorityBook.process_touches hok Book.PriorityBook.fillableAgg c side ix with
          hsame | ⟨ev, hev, ht⟩ | ⟨hty, e, hlook, rfl⟩
        · rw [hsame]
        · have hsymbol := Book.PriorityBook.process_symbol _ _ rfl ev hev
          rw [hprice] at ht
          exact absurd ⟨hsymbol, ht⟩ (hnames ev hev)
        · refine absurd ⟨hty, rfl, ?_⟩ hleaves
          rw [findOrder_eq h hc, hlook, ← hprice]
          rfl
  · rw [Function.update_of_ne hsym]

theorem gate_process (h : g.Holds numSymbols bookCfg risk books) (ok : bookCfg.Accepted)
    {c : Command} {events : List Event} (hrun : desk.process g c = some (g', events)) :
    ∃ books', g'.Holds numSymbols bookCfg risk books' ∧
      (∀ ev ∈ events, ∀ l, Names l ev → l.symbol < numSymbols) ∧
      ∀ l, (∀ ev ∈ events, ¬ Names l ev) → ¬ Leaves g c l → levelMap g' l = levelMap g l := by
  by_cases hpass : c.symbol < numSymbols ∧ (c.type = .cancel ∨ (g.check c).1 = .none)
  · obtain ⟨hc, hpass⟩ := hpass
    obtain ⟨g₁, hg₁, hholds⟩ := h.passed ok hc hpass
    obtain ⟨rfl, rfl⟩ := Prod.mk.inj (Option.some.inj (hrun.symm.trans hg₁))
    refine ⟨_, hholds, ?_, ?_⟩
    · rintro ev hev l ⟨hsym, -⟩
      rw [← hsym, Book.PriorityBook.process_symbol _ _ rfl ev hev]
      exact hc
    · intro l hnames hleaves
      rw [levelMap_eq h ok, levelMap_eq hholds ok]
      split
      · exact process_unnoted h hc hnames hleaves
      · rfl
  · have hno : ¬ c.symbol < numSymbols ∨ c.type ≠ .cancel ∧ (g.check c).1 ≠ .none := by
      rw [not_and_or, not_or] at hpass
      exact hpass
    obtain ⟨g₁, reason, hg₁, hholds⟩ := h.stopped hno
    obtain ⟨rfl, rfl⟩ := Prod.mk.inj (Option.some.inj (hrun.symm.trans hg₁))
    refine ⟨books, hholds, ?_, ?_⟩
    · rintro ev hev l ⟨-, ht⟩
      rw [List.mem_singleton.mp hev] at ht
      simp [touched, rejectedEvent] at ht
    · intro l _ _
      rw [levelMap_eq h ok, levelMap_eq hholds ok]

end Command

/-! ### The loop -/

section Loop

variable {cfg : GatewayConfig} {numSymbols : UInt32} {bookCfg : BookConfig} {risk : RiskConfig}
  {gate : RiskGate (OrderBook σ)} {s s' : State (RiskGate (OrderBook σ))}

/-- Every publication so far was complete, and of the open batch every level that is not noted is as
before it, unless it is one at price zero; there was none before the batch. -/
structure Covers (cfg : GatewayConfig) (numSymbols : UInt32) (bookCfg : BookConfig)
    (risk : RiskConfig) (gate : RiskGate (OrderBook σ)) (s : State (RiskGate (OrderBook σ))) :
    Prop where
  always : Always (Complete gate) s.log
  known : ∀ l ∈ s.batch.md.levels, l.symbol < numSymbols
  batch : ∃ before books, replay desk gate (tape s.log).done = some before ∧
    replay desk before ((tape s.log).batch.map Prod.fst) = some s.core.gate ∧
    s.core.gate.Holds numSymbols bookCfg risk books ∧
    (∀ symbol side, levelMap before ⟨symbol, side, 0⟩ = none) ∧
    (cfg.marketData = true →
      s.batch.md.trades = (((tape s.log).batch.flatMap Prod.snd).filter fun ev =>
        ev.type = .trade) ∧
      ∀ l, l.px ≠ 0 → l ∉ s.batch.md.levels → levelMap s.core.gate l = levelMap before l)

theorem complete_aside {a : Action} (h : a.aside = true) (log : List Action) :
    Complete gate log a := by
  cases a <;> trivial

theorem Covers.keep (h : Covers cfg numSymbols bookCfg risk gate s)
    (hgate : s'.core.gate = s.core.gate) (hmd : s'.batch.md = s.batch.md) {acts : List Action}
    (hlog : s'.log = s.log ++ acts) (hacts : ∀ a ∈ acts, a.aside = true) :
    Covers cfg numSymbols bookCfg risk gate s' := by
  constructor
  · rw [hlog]
    exact h.always.append fun pre a ha => complete_aside (hacts a ha) pre
  · rw [hmd]
    exact h.known
  · rw [hlog, tape_aside s.log hacts, hgate, hmd]
    exact h.batch

theorem Covers.idle (h : Covers cfg numSymbols bookCfg risk gate s) (hidle : Idle s s') :
    Covers cfg numSymbols bookCfg risk gate s' := by
  obtain ⟨acts, hlog, hacts⟩ := hidle.log
  exact h.keep (congrArg Core.gate hidle.core) hidle.md hlog.1 fun a ha =>
    aside_of_untold (hacts a ha)

theorem Covers.stamp (h : Covers cfg numSymbols bookCfg risk gate s) (fd : Fd) (owner : OwnerId)
    (off : Nat) (c : Command) (rest : List Ready) (i : Input) :
    Covers cfg numSymbols bookCfg risk gate (stamp cfg s fd owner off c rest i) := by
  simp only [Gateway.stamp]
  split
  · exact h.keep rfl rfl (List.append_nil _).symm (by simp)
  · cases i.append with
    | none => exact h.keep rfl rfl rfl (by simp [Action.aside])
    | some k => exact h.keep rfl rfl rfl (by simp [Action.aside])

theorem Covers.publish (h : Covers cfg numSymbols bookCfg risk gate s) (ok : bookCfg.Accepted)
    (small : risk.maxQty ≤ 1000000)
    (hoff : ∀ symbol side, levelMap s.core.gate ⟨symbol, side, 0⟩ = none)
    (hpub : Publication cfg desk s s') :
    Covers cfg numSymbols bookCfg risk gate s' := by
  obtain ⟨before, books, hdone, hbatch, hholds, hclear, hnoted⟩ := h.batch
  obtain ⟨htrades, hlevels⟩ := hnoted hpub.on
  obtain ⟨pre, post, ⟨hlog, -⟩, hpre, hpost⟩ := hpub.log
  have hmap : (published desk s.batch.md s.core.gate).foldl LevelMap.apply
      (levelMap before) = levelMap s.core.gate := by
    funext l
    rw [foldl_published]
    split
    · rename_i hl
      exact levelMap_settled hholds ok small (h.known l hl)
    · rename_i hl
      obtain ⟨symbol, side, px⟩ := l
      by_cases hzero : px = 0
      · rw [hzero, hclear, hoff]
      · exact (hlevels _ hzero hl).symm
  have hpre' : ∀ a ∈ pre, a.aside = true := fun a ha => aside_of_untold (hpre a ha)
  have hpost' : ∀ a ∈ post, a.aside = true := fun a ha => aside_of_untold (hpost a ha)
  have htape : tape (s.log ++ pre) = tape s.log := tape_aside s.log hpre'
  rw [← List.append_assoc, List.append_cons] at hlog
  constructor
  · have hcomplete :
        Complete gate (s.log ++ pre)
          (.marketData s.batch.md.trades (published desk s.batch.md s.core.gate)) := by
      rw [Complete, htape]
      exact ⟨before, s.core.gate, hdone, hbatch, hmap, htrades⟩
    rw [hlog]
    exact ((h.always.append fun log a ha => complete_aside (hpre' a ha) log).snoc hcomplete).append
      fun log a ha => complete_aside (hpost' a ha) log
  · rw [hpub.md]
    exact fun l hl => absurd hl List.not_mem_nil
  · have hnew : tape s'.log = { done := (tape s.log).done ++ (tape s.log).batch.map Prod.fst } := by
      rw [hlog, tape_aside _ hpost', tape_append, htape]
      rfl
    rw [hnew, hpub.core, hpub.md]
    refine ⟨s.core.gate, books, ?_, rfl, hholds, hoff, fun _ => ⟨rfl, fun _ _ _ => rfl⟩⟩
    rw [replay_append hdone]
    exact hbatch

theorem Covers.deliver (h : Covers cfg numSymbols bookCfg risk gate s)
    (ok : bookCfg.Accepted) {c : Command} {g : RiskGate (OrderBook σ)} {events : List Event}
    (hrun : desk.process s.core.gate c = some (g, events)) (fd : Fd) (clientSeq : UInt64)
    (clientId : OrderId) :
    Covers cfg numSymbols bookCfg risk gate
      (deliver cfg desk s fd clientSeq clientId c g events) := by
  obtain ⟨before, books, hdone, hbatch, hholds, hclear, hnoted⟩ := h.batch
  obtain ⟨books', hholds', hnames, hsame⟩ := gate_process hholds ok hrun
  have hmd : (Gateway.deliver cfg desk s fd clientSeq clientId c g events).batch.md =
      if cfg.marketData then
        events.foldl MdBatch.note (noteModify cfg desk s.batch.md s.core.gate c)
      else noteModify cfg desk s.batch.md s.core.gate c := foldl_onEvent_md _ _ events
  have htape : tape (Gateway.deliver cfg desk s fd clientSeq clientId c g events).log =
      { tape s.log with batch := (tape s.log).batch ++ [(c, events)] } :=
        tape_append s.log [.process fd c events]
  have hknown := hholds.engine.known
  constructor
  · exact h.always.snoc trivial
  · have hmodify : ∀ l ∈ (noteModify cfg desk s.batch.md s.core.gate c).levels,
        l.symbol < numSymbols := by
      intro l hl
      rcases mem_noteModify.mp hl with hl | ⟨-, hc, -, hsym, -⟩
      · exact h.known l hl
      · rw [← hsym, ← hknown]
        exact hc
    rw [hmd]
    intro l hl
    split at hl
    · rcases mem_foldl_note.mp hl with hl | ⟨ev, hev, hl, -⟩
      · exact hmodify l hl
      · exact hnames ev hev l hl
    · exact hmodify l hl
  · rw [htape, hmd]
    refine ⟨before, books', hdone, ?_, hholds', hclear, ?_⟩
    · rw [List.map_append]
      exact replay_concat hbatch hrun
    · intro hon
      obtain ⟨htrades, hlevels⟩ := hnoted hon
      rw [if_pos hon]
      constructor
      · rw [foldl_note_trades, noteModify_trades, htrades, List.flatMap_append, List.filter_append]
        simp
      · intro l hzero hl
        rw [mem_foldl_note, mem_noteModify, not_or, not_or] at hl
        obtain ⟨⟨hl, hleaves⟩, hnone⟩ := hl
        rw [← hlevels l hzero hl]
        change levelMap g l = levelMap s.core.gate l
        by_cases hs : l.symbol < numSymbols
        · apply hsame l
          · intro ev hev hl
            exact hnone ⟨ev, hev, hl, .inr hzero⟩
          · intro hleave
            exact hleaves ⟨hon, by rw [hknown, hleave.2.1]; exact hs, hleave⟩
        · rw [levelMap_eq hholds ok, levelMap_eq hholds' ok, if_neg hs, if_neg hs]

theorem Covers.step (h : Covers cfg numSymbols bookCfg risk gate s) (ok : bookCfg.Accepted)
    (small : risk.maxQty ≤ 1000000) (hoff : OffZero s) (i : Input) :
    Covers cfg numSymbols bookCfg risk gate (step cfg desk s i) := by
  rcases (step_cases desk s i : Idle s (Gateway.step cfg desk s i) ∨ _) with hidle |
    ⟨fd, off, rest, c, cmd, n, -, -, -, heq⟩ |
    ⟨fd, off, clientSeq, clientId, c, rest, -, heq⟩ | ⟨hpc, hpub⟩
  · exact h.idle hidle
  · rw [heq]
    exact h.stamp fd c.owner (off + n) cmd rest i
  · rw [heq]
    rcases (handle_cases desk s fd off clientSeq clientId c rest i :
        (handle cfg desk s fd off clientSeq clientId c rest i).pc = .crashed ∧ _ ∨ _) with
      ⟨-, hidle⟩ | ⟨pub, g, events, hrun, hidle⟩
    · exact h.idle hidle
    · have hpub : Covers cfg numSymbols bookCfg risk gate { s with repl.pub := pub } :=
        h.keep rfl rfl (List.append_nil _).symm (by simp)
      exact (hpub.deliver ok hrun fd clientSeq clientId).idle hidle
  · exact h.publish ok small (hoff hpc) hpub

theorem Covers.run (h : Covers cfg numSymbols bookCfg risk gate s) (ok : bookCfg.Accepted)
    (small : risk.maxQty ≤ 1000000) (is : List Input)
    (hoff : ∀ pre, pre <+: is → OffZero (run cfg desk s pre)) :
    Covers cfg numSymbols bookCfg risk gate (run cfg desk s is) := by
  induction is generalizing s with
  | nil => exact h
  | cons i is ih =>
      refine ih (h.step ok small (hoff [] List.nil_prefix) i) ?_
      intro pre hpre
      exact hoff (i :: pre) (List.cons_prefix_cons.mpr ⟨rfl, hpre⟩)

end Loop

end Complete

/-- Session 3 enters an order. -/
def enterOne (c : Command) : List Input :=
  [{ ready := [.listener] }, { accepted := [3] }, idle, idle,
    { ready := [.conn 3 false true] }, { received := .data (Wire.encode c) }, idle, idle,
    idle, idle, idle]

def entered (gate : RiskGate (OrderBook Book.AosStore)) (c : Command) :
    State (RiskGate (OrderBook Book.AosStore)) :=
  run { marketData := true } desk (start gate .create none [] 0 1 1) (enterOne c)

end ExchangeSim.Gateway
