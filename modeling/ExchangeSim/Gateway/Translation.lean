/- digest: Id translation is invisible and anonymous: each session is told what a run in the
   clients' own names would tell it. -/

import ExchangeSim.Engine.Relabel
import ExchangeSim.Gateway.IdMap
import ExchangeSim.Gateway.Naming
import ExchangeSim.Gateway.Outputs

set_option autoImplicit false
set_option relaxedAutoImplicit false

namespace ExchangeSim.Gateway

open Book (OrderBook StoreLayout IndexHash PriorityBook Relabel)
open Book.PriorityBook (Rules)
open Engine (RiskGate MatchingEngine RiskConfig)

/-! ### Two gates with the same orders -/

section Mirrors

variable {σ τ : Type} [StoreLayout σ] [StoreLayout τ] {numSymbols : UInt32} {bookCfg : BookConfig}
    {risk : RiskConfig}

structure Mirrors (numSymbols : UInt32) (bookCfg : BookConfig) (risk : RiskConfig)
    (f : OrderId → OrderId) (g : RiskGate (OrderBook σ)) (h : RiskGate (OrderBook τ))
    (books : SymbolId → PriorityBook) : Prop where
  gate : h = g.before h.engine
  left : g.Holds numSymbols bookCfg risk books
  right : h.Holds numSymbols bookCfg risk fun s => Relabel.book ⟨f, id⟩ (books s)

variable {f : OrderId → OrderId} {g g' : RiskGate (OrderBook σ)} {h h' : RiskGate (OrderBook τ)}
    {books books' : SymbolId → PriorityBook}

theorem Mirrors.after (m : Mirrors numSymbols bookCfg risk f g h books) {c : Command}
    {events : List Event} (hrun : g.process c = some (g', events))
    (href : h.process (Relabel.command ⟨f, id⟩ c) = some (h', events.map (Relabel.event ⟨f, id⟩)))
    (left : g'.Holds numSymbols bookCfg risk books')
    (right : h'.Holds numSymbols bookCfg risk fun s => Relabel.book ⟨f, id⟩ (books' s)) :
    Mirrors numSymbols bookCfg risk f g' h' books' := by
  refine ⟨?_, left, right⟩
  have hknown : h.engine.numSymbols = g.engine.numSymbols :=
    m.right.engine.known.trans m.left.engine.known.symm
  rw [m.gate] at href
  exact RiskGate.process_before hknown ⟨f c.orderId, rfl⟩ hrun href

theorem Mirrors.process (m : Mirrors numSymbols bookCfg risk f g h books)
    (ok : bookCfg.Accepted) {c : Command}
    (fits : c.symbol < numSymbols → Relabel.Fits ⟨f, id⟩ ⟨c.symbol, bookCfg⟩ (books c.symbol) c) :
    ∃ g' h' events books', g.process c = some (g', events) ∧
      h.process (Relabel.command ⟨f, id⟩ c) = some (h', events.map (Relabel.event ⟨f, id⟩)) ∧
      Mirrors numSymbols bookCfg risk f g' h' books' ∧ Answer numSymbols books books' c events := by
  have hcheck : (h.check (Relabel.command ⟨f, id⟩ c)).1 = (g.check c).1 := by
    have hknown : h.engine.numSymbols = g.engine.numSymbols :=
      m.right.engine.known.trans m.left.engine.known.symm
    have hname : ∃ x, Relabel.command ⟨f, id⟩ c = { c with orderId := x } := ⟨f c.orderId, rfl⟩
    rw [m.gate, RiskGate.check_before g hknown hname]
  by_cases hrej : c.type ≠ .cancel ∧ (g.check c).1 ≠ .none
  · obtain ⟨g', hg', heng, hcfg⟩ := RiskGate.process_rejected hrej.1 hrej.2
    obtain ⟨h', hh', heng', hcfg'⟩ :=
      RiskGate.process_rejected (g := h) (c := Relabel.command ⟨f, id⟩ c) hrej.1
      (by rw [hcheck]; exact hrej.2)
    rw [hcheck] at hh'
    refine ⟨g', h', _, books, hg', hh', m.after hg' hh' ?_ ?_, answer_stopped books c _⟩
    · exact ⟨by rw [heng]; exact m.left.engine, hcfg.trans m.left.limits, m.left.within⟩
    · exact ⟨by rw [heng']; exact m.right.engine, hcfg'.trans m.right.limits, m.right.within⟩
  have hpass : c.type = .cancel ∨ (g.check c).1 = .none := by
    rw [not_and_or, not_not, not_not] at hrej
    exact hrej
  have hpass' : (Relabel.command ⟨f, id⟩ c).type = .cancel ∨
      (h.check (Relabel.command ⟨f, id⟩ c)).1 = .none := by
    rw [hcheck]
    exact hpass
  by_cases hc : c.symbol < numSymbols
  · obtain ⟨g', hg', left⟩ := m.left.passed ok hc hpass
    obtain ⟨h', hh', right⟩ := m.right.passed ok (c := Relabel.command ⟨f, id⟩ c) hc hpass'
    have hsame :
      PriorityBook.process ⟨(Relabel.command ⟨f, id⟩ c).symbol, bookCfg⟩ PriorityBook.fillableAgg
        (Relabel.book ⟨f, id⟩ (books (Relabel.command ⟨f, id⟩ c).symbol))
          (Relabel.command ⟨f, id⟩ c) =
        Relabel.answer ⟨f, id⟩ (PriorityBook.process ⟨c.symbol, bookCfg⟩ PriorityBook.fillableAgg
          (books c.symbol) c) :=
      (fits hc).process
    rw [hsame] at hh' right
    refine ⟨g', h', _, _, hg', hh', m.after hg' hh' left ?_, answer_passed m.left ok hc⟩
    refine cast (congrArg (RiskGate.Holds numSymbols bookCfg risk h') ?_) right
    ext1 s
    by_cases hs : s = c.symbol
    · subst hs
      rw [Function.update_self]
      exact Function.update_self ..
    · rw [Function.update_of_ne hs]
      exact Function.update_of_ne hs ..
  · obtain ⟨g', hg', heng, hcfg⟩ := RiskGate.process_passed hpass (m.left.engine.unknown hc)
    obtain ⟨h', hh', heng', hcfg'⟩ :=
      RiskGate.process_passed hpass' (m.right.engine.unknown (c := Relabel.command ⟨f, id⟩ c) hc)
    refine ⟨g', h', _, books, hg', hh', m.after hg' hh' ?_ ?_, answer_stopped books c _⟩
    · exact ⟨by rw [heng]; exact m.left.engine, hcfg.trans m.left.limits, m.left.within⟩
    · exact ⟨by rw [heng']; exact m.right.engine, hcfg'.trans m.right.limits, m.right.within⟩

theorem Mirrors.congr (m : Mirrors numSymbols bookCfg risk f g h books) {f' : OrderId → OrderId}
    (hsame : ∀ s, s < numSymbols → ∀ S, ∀ e ∈ books s S, f e.id = f' e.id) :
    Mirrors numSymbols bookCfg risk f' g h books := by
  have hbook : ∀ s, s < numSymbols →
      Relabel.book ⟨f, id⟩ (books s) = Relabel.book ⟨f', id⟩ (books s) :=
    fun s hs => Relabel.book_congr (hsame s hs) rfl
  refine ⟨m.gate, m.left, ⟨m.right.engine.known, fun s hs => ?_⟩, m.right.limits, fun s hs => ?_⟩
  · rw [← hbook s hs]
    exact m.right.engine.book s hs
  · rw [← hbook s hs]
    exact m.right.within s hs

end Mirrors

/-! ### The names of the live orders -/

/-- The name of an exchange id. -/
def Naming.names (v : Naming) (ids : ClientIdMap) (x : OrderId) : OrderId :=
  (ids.rev x).elim 0 fun k => v.name k.owner k.clientId

/-- Every order in the map has a name of its own. -/
def Naming.Knows (v : Naming) (ids : ClientIdMap) : Prop := ∀ x k, ids.rev x = some k →
    v.Covers k.owner k.clientId

/-- The command bears the exchange id that its client id stands for. -/
def Addressed (ids : ClientIdMap) (c : Command) (clientId : OrderId) : Prop :=
  ids.rev c.orderId = some ⟨clientId, c.symbol, c.owner⟩ ∨
    (c.orderId = 0 ∧ (c.type = .newOrder → clientId = 0) ∧
      (c.type ≠ .newOrder → ids.fwd ⟨clientId, c.symbol, c.owner⟩ = none))

/-- What the client that sent the command would call everything. -/
def Naming.view (v : Naming) (ids : ClientIdMap) (c : Command) (clientId : OrderId) :
    OrderId → OrderId :=
  Function.update (v.names ids) c.orderId (v.name c.owner clientId)

section Names

variable {v : Naming} {ids : ClientIdMap} {c : Command} {clientId : OrderId}

theorem Naming.Knows.invalid (hknows : v.Knows ids) {x : OrderId} {k : Key}
    (hx : ids.rev x = some k) : k.clientId ≠ 0 := by
  intro hzero
  have hvalid := v.valid (hknows x k hx)
  rw [hzero] at hvalid
  exact hvalid (v.invalid k.owner)

theorem Naming.names_of_rev {x : OrderId} {k : Key} (hx : ids.rev x = some k) :
    v.names ids x = v.name k.owner k.clientId := by
  rw [Naming.names, hx]
  rfl

theorem Naming.view_self : v.view ids c clientId c.orderId = v.name c.owner clientId :=
  Function.update_self ..

theorem Addressed.view_eq (ha : Addressed ids c clientId) {x : OrderId} (hx : x ≠ 0) :
    v.view ids c clientId x = v.names ids x := by
  by_cases hown : x = c.orderId
  · subst hown
    rcases ha with hrev | ⟨hzero, -⟩
    · rw [Naming.view_self, Naming.names_of_rev hrev]
    · exact absurd hzero hx
  · exact Function.update_of_ne hown ..

variable {numSymbols : UInt32} {books : SymbolId → PriorityBook}

theorem Pending.rev_of_resting (hp : Pending 1 numSymbols ids books c)
    (hzero : Nonzero numSymbols books) {s : SymbolId} (hs : s < numSymbols) {S : Side}
    {e : Book.Resting} (he : e ∈ books s S) : ∃ k, ids.rev e.id = some k ∧ k.symbol = s := by
  refine (hp.known s hs S e he).resolve_left fun hlt => hzero s hs S e he ?_
  grind

theorem Pending.fits (hp : Pending 1 numSymbols ids books c) (hzero : Nonzero numSymbols books)
    (hknows : v.Knows ids) (ha : Addressed ids c clientId)
    (hcovers : clientId = 0 ∨ v.Covers c.owner clientId) (hs : c.symbol < numSymbols)
    (bookCfg : BookConfig) : Relabel.Fits ⟨v.view ids c clientId, id⟩ ⟨c.symbol, bookCfg⟩
      (books c.symbol) c := by
  refine ⟨hzero c.symbol hs, fun hty => ?_, fun U e he heq => ?_, .inr fun _ _ heq => heq⟩
  · change v.view ids c clientId c.orderId = 0 ↔ _
    rw [Naming.view_self]
    rcases ha with hrev | ⟨hid, hnew, -⟩
    · have hown := hknows _ _ hrev
      refine ⟨fun hx => absurd hx (v.valid hown), fun hx => ?_⟩
      rw [hx] at hrev
      exact absurd (hp.below 0 _ hrev).1 (by decide)
    · exact ⟨fun _ => hid, fun _ => by rw [hnew hty, v.invalid]⟩
  · change v.view ids c clientId e.id = v.view ids c clientId c.orderId at heq
    obtain ⟨k, hk, hsym⟩ := hp.rev_of_resting hzero hs he
    have hcov := hknows _ _ hk
    rw [Naming.view_self, ha.view_eq (hzero c.symbol hs U e he), Naming.names_of_rev hk] at heq
    have hkey : k = ⟨clientId, c.symbol, c.owner⟩ := by
      rcases hcovers with hid | hcov'
      · rw [hid, v.invalid] at heq
        exact absurd heq (v.valid hcov)
      · have howner := congrArg v.owner heq
        have hclient := congrArg v.client heq
        rw [v.owner_name hcov, v.owner_name hcov'] at howner
        rw [v.client_name hcov, v.client_name hcov'] at hclient
        cases k
        simp only [Key.mk.injEq]
        exact ⟨hclient, hsym, howner⟩
    rw [hkey] at hk
    rcases ha with hrev | ⟨-, hnew, hfind⟩
    · have hsame := (hp.inverse _ _).mpr hrev
      rw [(hp.inverse _ _).mpr hk] at hsame
      exact Option.some.inj hsame
    · by_cases hty : c.type = .newOrder
      · exact absurd (hnew hty) (hknows.invalid hk)
      · have hnone := hfind hty
        rw [(hp.inverse _ _).mpr hk] at hnone
        cases hnone

/-! ### What the sink shows -/

variable {G : Type} (cfg : GatewayConfig) (s : State G) (fd : Fd) (clientSeq : UInt64)
    (hknows : v.Knows s.core.ids)
  (ha : Addressed s.core.ids c clientId) (hcovers : clientId = 0 ∨ v.Covers c.owner clientId)

include hknows

theorem shown_names (viewer : OwnerId) (x : OrderId) :
    v.shown viewer (v.names s.core.ids x) = s.core.ids.toClient x viewer := by
  rw [ClientIdMap.toClient]
  cases hx : s.core.ids.rev x with
  | none =>
      rw [Naming.names, hx]
      exact if_neg fun hand => hand.1 rfl
  | some key => rw [Naming.names_of_rev hx, v.shown_name (.inr (hknows x key hx))]

include ha hcovers

theorem view_eq (e : Event) : (sinkOf cfg s fd clientSeq clientId c).view e =
    v.seen c.owner (Relabel.event ⟨v.view s.core.ids c clientId, id⟩ e) := by
  have horder :
    (if e.orderId = c.orderId then clientId else s.core.ids.toClient e.orderId c.owner) =
      v.shown c.owner (v.view s.core.ids c clientId e.orderId) := by
    by_cases hid : e.orderId = c.orderId
    · rw [if_pos hid, hid, Naming.view_self, v.shown_name hcovers, if_pos rfl]
    · rw [if_neg hid, Naming.view, Function.update_of_ne hid, shown_names s hknows]
  have hmaker : (if e.makerId ≠ 0 then s.core.ids.toClient e.makerId c.owner else e.makerId) =
      v.shown c.owner (if e.makerId = 0 then 0 else v.view s.core.ids c clientId e.makerId) := by
    by_cases hzero : e.makerId = 0
    · rw [if_neg (not_not.mpr hzero), if_pos hzero, hzero]
      exact (if_neg fun hand => hand.1 rfl).symm
    · rw [if_pos hzero, if_neg hzero, ha.view_eq hzero, shown_names s hknows]
  calc (sinkOf cfg s fd clientSeq clientId c).view e
      = { e with
          orderId := if e.orderId = c.orderId then clientId
            else s.core.ids.toClient e.orderId c.owner
          makerId := if e.makerId ≠ 0 then s.core.ids.toClient e.makerId c.owner else e.makerId } :=
            rfl
    _ = v.seen c.owner (Relabel.event ⟨v.view s.core.ids c clientId, id⟩ e) := by
        rw [horder, hmaker]
        rfl

variable {e : Event} (hmaker : e.makerId = 0 ∨ ∃ key, s.core.ids.rev e.makerId = some key)

include hmaker

theorem items_eq (f : Fd) : (sinkOf cfg s fd clientSeq clientId c).items f e =
    v.items s.sessions.ownerFd fd clientSeq c f
      (Relabel.event ⟨v.view s.core.ids c clientId, id⟩ e) := by
  have hfill : (sinkOf cfg s fd clientSeq clientId c).makerFd e =
      v.makerFd s.sessions.ownerFd c.owner (Relabel.event ⟨v.view s.core.ids c clientId, id⟩ e) ∧
      (e.makerId ≠ 0 → (sinkOf cfg s fd clientSeq clientId c).makerView e =
        v.filled (Relabel.event ⟨v.view s.core.ids c clientId, id⟩ e)) := by
    rcases hmaker with hzero | ⟨key, hkey⟩
    · refine ⟨?_, fun hx => absurd hzero hx⟩
      rw [Sink.makerFd, Naming.makerFd, if_pos (.inl hzero), if_pos (.inl (if_pos hzero))]
    by_cases hzero : e.makerId = 0
    · refine ⟨?_, fun hx => absurd hzero hx⟩
      rw [Sink.makerFd, Naming.makerFd, if_pos (.inl hzero), if_pos (.inl (if_pos hzero))]
    have hcov := hknows _ _ hkey
    have hname :
        (Relabel.event ⟨v.view s.core.ids c clientId, id⟩ e).makerId =
        v.name key.owner key.clientId := by
      change (if e.makerId = 0 then 0 else v.view s.core.ids c clientId e.makerId) = _
      rw [if_neg hzero, ha.view_eq hzero, Naming.names_of_rev hkey]
    have hby : s.core.ids.ownerOf e.makerId = key.owner := by rw [ClientIdMap.ownerOf, hkey]
    constructor
    · calc (sinkOf cfg s fd clientSeq clientId c).makerFd e
          = if e.makerId = 0 ∨ e.type ≠ .trade ∨ s.core.ids.ownerOf e.makerId = c.owner then none
            else s.sessions.ownerFd (s.core.ids.ownerOf e.makerId) := rfl
        _ = if v.name key.owner key.clientId = 0 ∨ e.type ≠ .trade ∨ key.owner = c.owner then none
            else s.sessions.ownerFd key.owner := by
            rw [hby]
            simp only [hzero, v.valid hcov]
        _ = v.makerFd s.sessions.ownerFd c.owner
            (Relabel.event ⟨v.view s.core.ids c clientId, id⟩ e) := by
            rw [Naming.makerFd, hname, v.owner_name hcov]
            rfl
    · intro _
      calc (sinkOf cfg s fd clientSeq clientId c).makerView e
          = { e with
              orderId := 0
              makerId := s.core.ids.toClient e.makerId (s.core.ids.ownerOf e.makerId) } := rfl
        _ = v.filled (Relabel.event ⟨v.view s.core.ids c clientId, id⟩ e) := by
            rw [Naming.filled, hname, v.client_name hcov, hby, ← shown_names s hknows,
              Naming.names_of_rev hkey, v.shown_name (.inr hcov), if_pos rfl]
            rfl
  rw [Sink.items, Naming.items, view_eq cfg s fd clientSeq hknows ha hcovers e, hfill.1]
  congr 1
  split
  · rename_i hto
    have hne : e.makerId ≠ 0 := by
      intro hzero
      rw [Naming.makerFd, if_pos (.inl (if_pos hzero))] at hto
      cases hto
    rw [hfill.2 hne]
    rfl
  · rfl

end Names

/-! ### A run and its shadow -/

/-- The command at hand, and what its client calls its order. -/
def Pc.asked? : Pc → Option (Command × OrderId)
  | .logged _ _ _ clientId c _ => some (c, clientId)
  | _ => none

theorem command?_of_asked {pc : Pc} (h : pc.asked? = none) : pc.command? = none := by
  cases pc <;> first | rfl | cases h

theorem asked?_of_command {pc : Pc} (h : pc.command? = none) : pc.asked? = none := by
  cases pc <;> first | rfl | cases h

/-- A command in the name that its client has for its order. -/
def Naming.command (v : Naming) (a : Command × OrderId) : Command :=
  { a.1 with orderId := v.name a.1.owner a.2 }

/-- The commands that the engine gets in a run, in their clients' names. -/
def Naming.asked {G : Type} (v : Naming) (cfg : GatewayConfig) (desk : Desk G) (s : State G) :
    List Input → List Command
  | [] => []
  | i :: is => (s.pc.asked?.map v.command).toList ++ v.asked cfg desk (step cfg desk s i) is

section Runs

variable {σ τ : Type} [StoreLayout σ] [StoreLayout τ] {v : Naming} {cfg : GatewayConfig}
    {numSymbols : UInt32}
  {bookCfg : BookConfig} {risk : RiskConfig} {s s' : State (RiskGate (OrderBook σ))}
    {h : RiskGate (OrderBook τ)}

structure Paired (v : Naming) (numSymbols : UInt32) (bookCfg : BookConfig) (risk : RiskConfig)
    (ids : ClientIdMap) (g : RiskGate (OrderBook σ)) (h : RiskGate (OrderBook τ))
    (books : SymbolId → PriorityBook) : Prop where
  nonzero : Nonzero numSymbols books
  knows : v.Knows ids
  mirrors : Mirrors numSymbols bookCfg risk (v.names ids) g h books

/-- What holds of the gateway and the gate that runs beside it. -/
def Shadowed (v : Naming) (numSymbols : UInt32) (bookCfg : BookConfig) (risk : RiskConfig)
    (s : State (RiskGate (OrderBook σ))) (h : RiskGate (OrderBook τ)) : Prop := ∃ books,
  (∀ a, s.pc.asked? = some a → Paired v numSymbols bookCfg risk s.core.ids s.core.gate h books ∧
    Pending 1 numSymbols s.core.ids books a.1 ∧ Addressed s.core.ids a.1 a.2) ∧
  (s.pc.asked? = none → s.repl.journalFailed = true ∨ s.pc = .crashed ∨
    (Paired v numSymbols bookCfg risk s.core.ids s.core.gate h books ∧
      Tracks 1 numSymbols s.core.ids books))

theorem shadowed_over {h : RiskGate (OrderBook τ)} (hnone : s.pc.asked? = none)
    (hend : s.repl.journalFailed = true ∨ s.pc = .crashed) :
    Shadowed v numSymbols bookCfg risk s h := by
  refine ⟨fun _ => PriorityBook.empty, fun a ha => ?_, fun _ => hend.imp_right .inl⟩
  rw [hnone] at ha
  cases ha

theorem Shadowed.keep (hs : Shadowed v numSymbols bookCfg risk s h) (hnone : s.pc.asked? = none)
    (hcrash : s.pc ≠ .crashed) (hnone' : s'.pc.asked? = none) (hcore : s'.core = s.core)
    (hfailed : s.repl.journalFailed = true → s'.repl.journalFailed = true) :
    Shadowed v numSymbols bookCfg risk s' h := by
  obtain ⟨books, -, hidle⟩ := hs
  rcases hidle hnone with hf | hc | hpaired
  · exact shadowed_over hnone' (.inl (hfailed hf))
  · exact absurd hc hcrash
  · refine ⟨books, fun a ha => ?_, fun _ => .inr (.inr (by rw [hcore]; exact hpaired))⟩
    rw [hnone'] at ha
    cases ha

theorem Tracks.addressed {first : OrderId} {ids : ClientIdMap} {books : SymbolId → PriorityBook}
    (h : Tracks first numSymbols ids books) (hknows : v.Knows ids) (c cmd : Command)
    (owner : OwnerId) (hty : cmd.type = c.type) (hsym : cmd.symbol = c.symbol)
    (hown : cmd.owner = owner) (hcovers : c.orderId = 0 ∨ v.Covers owner c.orderId) :
    let t := if c.type = .newOrder then ids.forNew ⟨c.orderId, c.symbol, owner⟩
      else (ids, ids.find ⟨c.orderId, c.symbol, owner⟩)
    cmd.orderId = t.2 → Addressed t.1 cmd c.orderId ∧ v.Knows t.1 ∧ ∀ x k, ids.rev x = some k →
        t.1.rev x = some k := by
  intro t hid
  have hkey : (⟨c.orderId, cmd.symbol, cmd.owner⟩ : Key) = ⟨c.orderId, c.symbol, owner⟩ := by
    rw [hsym, hown]
  rw [Addressed, hkey, hty]
  by_cases hnew : c.type = .newOrder
  · have ht : t = ids.forNew ⟨c.orderId, c.symbol, owner⟩ := if_pos hnew
    rw [ht] at hid ⊢
    by_cases hzero : c.orderId = 0
    · have hinvalid : ids.forNew ⟨c.orderId, c.symbol, owner⟩ = (ids, 0) := if_pos hzero
      rw [hinvalid] at hid ⊢
      exact ⟨.inr ⟨hid, fun _ => hzero, fun hne => absurd hnew hne⟩, hknows, fun x k hx => hx⟩
    rcases ids.forNew_cases ⟨c.orderId, c.symbol, owner⟩ h.rev_next with ⟨hx, -⟩ |
      ⟨x, hx, heq⟩ | ⟨hk, heq⟩
    · exact absurd hx hzero
    · rw [heq] at hid ⊢
      exact ⟨.inl (by rw [hid]; exact (h.inverse _ x).mp hx), hknows, fun x k hx => hx⟩
    · rw [heq] at hid ⊢
      have hrev : ∀ x, (ids.named ⟨c.orderId, c.symbol, owner⟩).rev x =
          if x = ids.next then some ⟨c.orderId, c.symbol, owner⟩ else ids.rev x :=
        fun x => Function.update_apply ids.rev ids.next _ x
      refine ⟨.inl (by rw [hrev, if_pos hid]), fun x k hx => ?_, fun x k hx => ?_⟩
      · rw [hrev] at hx
        split at hx
        · obtain rfl := Option.some.inj hx
          exact hcovers.resolve_left hzero
        · exact hknows x k hx
      · rw [hrev, if_neg]
        · exact hx
        · rintro rfl
          rw [h.rev_next] at hx
          cases hx
  · have ht : t = (ids, ids.find ⟨c.orderId, c.symbol, owner⟩) := if_neg hnew
    rw [ht] at hid ⊢
    refine ⟨?_, hknows, fun x k hx => hx⟩
    rw [ClientIdMap.find] at hid
    cases hx : ids.fwd ⟨c.orderId, c.symbol, owner⟩ with
    | none =>
        rw [hx] at hid
        exact .inr ⟨hid, fun hty => absurd hty hnew, fun _ => rfl⟩
    | some x =>
        rw [hx] at hid
        exact .inl (by rw [hid]; exact (h.inverse _ x).mp hx)

theorem Tracks.rev_of_resting {ids : ClientIdMap} {books : SymbolId → PriorityBook}
    (h : Tracks 1 numSymbols ids books) (hzero : Nonzero numSymbols books) {s : SymbolId}
    (hs : s < numSymbols) {S : Side} {e : Book.Resting} (he : e ∈ books s S) :
    ∃ k, ids.rev e.id = some k := by
  obtain ⟨k, hk, -⟩ := (h.known s hs S e he).resolve_left fun hlt => hzero s hs S e he (by grind)
  exact ⟨k, hk⟩

theorem Shadowed.stamp (hs : Shadowed v numSymbols bookCfg risk s h)
    (trust : cfg.trustClientIds = false) (hnone : s.pc.asked? = none) (hcrash : s.pc ≠ .crashed)
    (fd : Fd) (owner : OwnerId) (off : Nat) (c : Command) (rest : List Ready) (i : Input)
    (hnext : (Gateway.stamp cfg s fd owner off c rest i).core.ids.next ≠ 0)
    (hcovers : ∀ a, (Gateway.stamp cfg s fd owner off c rest i).pc.asked? = some a → a.2 = 0 ∨
      v.Covers a.1.owner a.2) :
    Shadowed v numSymbols bookCfg risk (Gateway.stamp cfg s fd owner off c rest i) h := by
  obtain ⟨hcore, hcase⟩ := stamp_cases cfg s fd owner off c rest i
  simp only [trust, Bool.false_eq_true, if_false] at hcore hcase
  rcases hcase with ⟨hfailed, hcmd, -⟩ | ⟨hok, hpc, -⟩
  · exact shadowed_over (asked?_of_command hcmd) (.inl hfailed)
  obtain ⟨books, -, hidle⟩ := hs
  obtain ⟨hpaired, htracks⟩ := ((hidle hnone).resolve_left (by rw [hok]; simp)).resolve_left hcrash
  rw [hpc] at hcovers
  have hcov : c.orderId = 0 ∨ v.Covers owner c.orderId := hcovers _ rfl
  rw [hcore] at hnext
  let t := if c.type = .newOrder then s.core.ids.forNew ⟨c.orderId, c.symbol, owner⟩
    else (s.core.ids, s.core.ids.find ⟨c.orderId, c.symbol, owner⟩)
  let cmd : Command := { c with orderId := t.2, seq := s.core.seq + 1, owner := owner, ts := i.now }
  obtain ⟨haddr, hknows, hmore⟩ := htracks.addressed hpaired.knows c cmd owner rfl rfl rfl hcov rfl
  have hpending := htracks.translated c cmd owner rfl rfl rfl rfl hnext
  refine ⟨books, fun a ha => ?_, fun hx => ?_⟩
  · rw [hpc] at ha
    obtain rfl := Option.some.inj ha
    rw [hcore]
    refine ⟨⟨hpaired.nonzero, hknows, hpaired.mirrors.congr fun t ht S e he => ?_⟩, hpending, haddr⟩
    obtain ⟨k, hk⟩ := htracks.rev_of_resting hpaired.nonzero ht he
    rw [Naming.names_of_rev hk, Naming.names_of_rev (hmore _ k hk)]
  · rw [hpc] at hx
    cases hx

theorem Shadowed.quiet (hs : Shadowed v numSymbols bookCfg risk s h)
    (trust : cfg.trustClientIds = false) (hnone : s.pc.asked? = none) (i : Input)
    (hnext : (step cfg desk s i).core.ids.next ≠ 0)
    (hcovers : ∀ a, (step cfg desk s i).pc.asked? = some a → a.2 = 0 ∨ v.Covers a.1.owner a.2) :
    Shadowed v numSymbols bookCfg risk (step cfg desk s i) h := by
  by_cases hcrash : s.pc = .crashed
  · have hsame : step cfg desk s i = s := by rw [step, hcrash]
    rw [hsame]
    exact hs
  have hstamp : ∀ fd off rest cn cmd n, step cfg desk s i = Gateway.stamp cfg s fd (Conn.owner cn)
    (off + n) cmd rest i →
      Shadowed v numSymbols bookCfg risk (step cfg desk s i) h := by
    intro fd off rest cn cmd n heq
    rw [heq] at hnext hcovers ⊢
    exact hs.stamp trust hnone hcrash fd cn.owner (off + n) cmd rest i hnext hcovers
  rcases (step_command desk s i : (step cfg desk s i).pc.command? = none ∨ _) with
    hcmd | ⟨fd, off, rest, cn, cmd, n, -, -, -, heq⟩
  · rcases (step_cases desk s i : Idle s (step cfg desk s i) ∨ _) with
      hidle | ⟨fd, off, rest, cn, cmd, n, -, -, -, heq⟩ |
        ⟨fd, off, clientSeq, clientId, c, rest, hpc, -⟩ | ⟨-, hpub⟩
    · exact hs.keep hnone hcrash (asked?_of_command hcmd) hidle.core hidle.failed
    · exact hstamp fd off rest cn cmd n heq
    · rw [hpc] at hnone
      cases hnone
    · exact hs.keep hnone hcrash (asked?_of_command hcmd) hpub.core hpub.failed
  · exact hstamp fd off rest cn cmd n heq

theorem Shadowed.handle (hs : Shadowed v numSymbols bookCfg risk s h)
    (trust : cfg.trustClientIds = false) (ok : bookCfg.Accepted) {fd : Fd} {off : Nat}
    {clientSeq : UInt64} {clientId : OrderId} {c : Command} {rest : List Ready}
    (hpc : s.pc = .logged fd off clientSeq clientId c rest)
    (hcovers : clientId = 0 ∨ v.Covers c.owner clientId) (i : Input) :
    ∃ h' events, h.process (v.command (c, clientId)) = some (h', events) ∧
      Shadowed v numSymbols bookCfg risk
        (Gateway.handle cfg desk s fd off clientSeq clientId c rest i) h' ∧
      ((Gateway.handle cfg desk s fd off clientSeq clientId c rest i).pc ≠ .crashed →
        (Gateway.handle cfg desk s fd off clientSeq clientId c rest i).sessions.conns =
          extend s.sessions.conns (v.reports s.sessions.ownerFd fd clientSeq c events)) := by
  obtain ⟨books, hasked, -⟩ := hs
  obtain ⟨hpaired, hpending, haddr⟩ := hasked (c, clientId) (by rw [hpc]; rfl)
  have hmirrors :
      Mirrors numSymbols bookCfg risk (v.view s.core.ids c clientId) s.core.gate h books :=
    hpaired.mirrors.congr fun t ht S e he => (haddr.view_eq (hpaired.nonzero t ht S e he)).symm
  obtain ⟨g', h', events, books', hrun, href, hafter, hanswer⟩ := hmirrors.process ok fun hsym =>
    hpending.fits hpaired.nonzero hpaired.knows haddr hcovers hsym bookCfg
  have hcommand :
      Relabel.command ⟨v.view s.core.ids c clientId, id⟩ c = v.command (c, clientId) := by
    change ({ c with orderId := v.view s.core.ids c clientId c.orderId } : Command) = _
    rw [Naming.view_self]
    rfl
  rw [hcommand] at href
  refine ⟨h', _, href, ?_, fun hgo => ?_⟩
  · have hcmd : (Gateway.handle cfg desk s fd off clientSeq clientId c rest i).pc.asked? = none :=
      asked?_of_command (handle_command desk s fd off clientSeq clientId c rest i)
    rcases (handle_cases desk s fd off clientSeq clientId c rest i :
        (Gateway.handle cfg desk s fd off clientSeq clientId c rest i).pc = .crashed ∧ _ ∨ _) with
      ⟨hcrash, -⟩ | ⟨pub, g, evs, hproc, hidle⟩
    · exact shadowed_over hcmd (.inr hcrash)
    obtain ⟨rfl, rfl⟩ := Prod.mk.inj (Option.some.inj (hproc.symm.trans hrun))
    obtain ⟨xs, hxs, hids⟩ :=
      deliver_ids trust desk { s with repl.pub := pub } fd clientSeq clientId c g evs
    obtain ⟨-, -, hrev⟩ := retireDead_spec desk g c.symbol hpending.inverse xs
    have htracks := hpending.handled (by decide) hmirrors.left hafter.left hanswer hxs
    have hzero := hpaired.nonzero.answer hanswer
    have hless : ∀ x k, (retireDead desk g c.symbol s.core.ids xs).rev x = some k →
        s.core.ids.rev x = some k := by
      intro x k hx
      rw [hrev] at hx
      split at hx
      · cases hx
      · exact hx
    have hcore : (Gateway.handle cfg desk s fd off clientSeq clientId c rest i).core.gate = g ∧
        (Gateway.handle cfg desk s fd off clientSeq clientId c rest i).core.ids =
          retireDead desk g c.symbol s.core.ids xs :=
            ⟨congrArg Core.gate hidle.core, by rw [hidle.core, hids]⟩
    refine ⟨books', fun a ha => ?_, fun _ => .inr (.inr ?_)⟩
    · rw [hcmd] at ha
      cases ha
    · rw [hcore.1, hcore.2]
      refine ⟨⟨hzero, fun x k hx => hpaired.knows x k (hless x k hx),
        hafter.congr fun t ht S e he => ?_⟩, htracks⟩
      obtain ⟨k, hk⟩ := htracks.rev_of_resting hzero ht he
      rw [haddr.view_eq (hzero t ht S e he), Naming.names_of_rev hk,
        Naming.names_of_rev (hless _ k hk)]
  · have ht : (sinkOf cfg s fd clientSeq clientId c).translate = true := by simp [sinkOf, trust]
    rcases handle_conns cfg desk s fd off clientSeq clientId c rest i with ⟨hcrash, -⟩ |
      ⟨g, evs, hproc, -, hconns⟩
    · exact absurd hcrash hgo
    obtain ⟨rfl, rfl⟩ := Prod.mk.inj (Option.some.inj (hproc.symm.trans hrun))
    rw [hconns]
    congr 1
    ext1 f
    rw [responses, Naming.reports, List.flatMap_map]
    congr 1
    refine List.flatMap_congr fun ev hev => ?_
    rw [Sink.adds, if_pos ht]
    refine items_eq cfg s fd clientSeq hpaired.knows haddr hcovers ?_ f
    by_cases hsym : c.symbol < numSymbols
    · obtain ⟨U, ⟨-, hmaker⟩ | ⟨hmaker, -⟩⟩ := hanswer.told.speaks ev hev
      · refine hmaker.imp_right ?_
        rintro ⟨e, he, hid⟩
        obtain ⟨k, hk, -⟩ := hpending.rev_of_resting hpaired.nonzero hsym he
        exact ⟨k, by rw [← hid]; exact hk⟩
      · exact .inl hmaker
    · exact .inl (hanswer.unknown hsym ev hev).2

theorem Shadowed.run (hs : Shadowed v numSymbols bookCfg risk s h)
    (trust : cfg.trustClientIds = false) (ok : bookCfg.Accepted) (is : List Input)
    (hnext : ∀ pre, pre <+: is → (run cfg desk s pre).core.ids.next ≠ 0)
    (hcovers : ∀ pre, pre <+: is → ∀ a, (run cfg desk s pre).pc.asked? = some a → a.2 = 0 ∨
      v.Covers a.1.owner a.2) :
    ∃ h' past, h.run ((v.asked cfg desk s is).map .process) = some (h', past) ∧
      Shadowed v numSymbols bookCfg risk (Gateway.run cfg desk s is) h' := by
  induction is generalizing s h with
  | nil => exact ⟨h, [], rfl, hs⟩
  | cons i is ih =>
      have hmore : ∀ pre, pre <+: is → i :: pre <+: i :: is :=
        fun pre hpre => List.cons_prefix_cons.mpr ⟨rfl, hpre⟩
      have ih : ∀ {h₁ : RiskGate (OrderBook τ)}, Shadowed v numSymbols bookCfg risk
        (step cfg desk s i) h₁ →
          ∃ h' past, h₁.run ((v.asked cfg desk (step cfg desk s i) is).map .process) =
          some (h', past) ∧
            Shadowed v numSymbols bookCfg risk (Gateway.run cfg desk s (i :: is)) h' :=
        fun h₁ => ih h₁ (fun pre hpre => hnext (i :: pre) (hmore pre hpre)) fun pre hpre =>
          hcovers (i :: pre) (hmore pre hpre)
      have hone : [i] <+: i :: is := hmore [] List.nil_prefix
      cases hasked : s.pc.asked? with
      | none =>
          obtain ⟨h', past, hrun, hafter⟩ :=
            ih (hs.quiet trust hasked i (hnext [i] hone) (hcovers [i] hone))
          exact ⟨h', past, by simpa [Naming.asked, hasked] using hrun, hafter⟩
      | some a =>
          have hlogged : ∃ fd off clientSeq rest, s.pc = .logged fd off clientSeq a.2 a.1 rest := by
            cases hpc : s.pc with
            | logged fd off clientSeq clientId c rest =>
                rw [hpc] at hasked
                obtain rfl := Option.some.inj hasked
                exact ⟨fd, off, clientSeq, rest, rfl⟩
            | _ =>
                rw [hpc] at hasked
                cases hasked
          obtain ⟨fd, off, clientSeq, rest, hpc⟩ := hlogged
          have hstep :
            step cfg desk s i = Gateway.handle cfg desk s fd off clientSeq a.2 a.1 rest i := by
              rw [step, hpc]
          obtain ⟨h₁, events, hprocess, hafter, -⟩ :=
            hs.handle trust ok hpc (hcovers [] List.nil_prefix a hasked) i
          rw [← hstep] at hafter
          obtain ⟨h', past, hrun, hafter⟩ := ih hafter
          refine ⟨h', events ++ past, ?_, hafter⟩
          simp only [Naming.asked, hasked, Option.map_some, Option.toList_some,
            List.singleton_append, List.map_cons, RiskGate.run,
            RiskGate.call, hprocess, hrun, Option.bind_eq_bind, Option.bind_some]
          rfl

theorem shadowed_start (v : Naming) (hash hash' : IndexHash) (numSymbols : UInt32)
    (ok : bookCfg.Accepted) (risk : RiskConfig) (journal : Journal.JournalWriter)
    (pub : Option Stream.Publisher) (digest : List Event) (seq : UInt64) (nextOwner : OwnerId)
    {first : OrderId} (hfirst : first ≠ 0) :
    Shadowed v numSymbols bookCfg risk
      (start (RiskGate.make (MatchingEngine.make hash numSymbols bookCfg) risk :
        RiskGate (OrderBook σ)) journal pub digest seq nextOwner first)
      (RiskGate.make (MatchingEngine.make hash' numSymbols bookCfg) risk :
        RiskGate (OrderBook τ)) := by
  refine ⟨fun _ => PriorityBook.empty, by rintro _ ⟨⟩,
    fun _ => .inr (.inr ⟨⟨?_, by rintro _ _ ⟨⟩, ⟨rfl, ?_, ?_⟩⟩, ?_⟩)⟩
  · exact fun _ _ _ _ he => absurd he List.not_mem_nil
  · exact RiskGate.holds_make hash numSymbols ok risk
  · exact RiskGate.holds_make hash' numSymbols ok risk
  · have hfloor : 1 ≤ first := by grind
    refine ⟨ClientIdMap.inverse_make first, hfloor, by rintro _ _ ⟨⟩, by rintro _ _ ⟨⟩, ?_⟩
    exact fun _ _ _ _ he => absurd he List.not_mem_nil

/-- The naming tells apart what the commands of a run name. -/
def Naming.Names (v : Naming) (cfg : GatewayConfig) (s₀ : State (RiskGate (OrderBook σ)))
    (is : List Input) : Prop :=
  ∀ pre, pre <+: is → ∀ a, (Gateway.run cfg desk s₀ pre).pc.asked? = some a →
    a.2 = 0 ∨ v.Covers a.1.owner a.2

/-- The gate `h₀` has been given the commands of a run in the clients' own names, and what it says
to the command at hand is what the sessions are told in the step that comes next. A step without a
command tells them nothing. -/
def Naming.Tells (v : Naming) (cfg : GatewayConfig) (s₀ : State (RiskGate (OrderBook σ)))
    (h₀ : RiskGate (OrderBook τ)) (is : List Input) (i : Input) : Prop :=
  let s := Gateway.run cfg desk s₀ is
  let s' := step cfg desk s i
  ∃ (h : RiskGate (OrderBook τ)) (past : List Event),
    h₀.run ((v.asked cfg desk s₀ is).map .process) = some (h, past) ∧
    (∀ fd off clientSeq clientId c rest, s.pc = .logged fd off clientSeq clientId c rest →
      s'.pc ≠ .crashed →
      ∃ h' events, h.process (v.command (c, clientId)) = some (h', events) ∧
        s'.sessions.conns = extend s.sessions.conns
          (v.reports s.sessions.ownerFd fd clientSeq c events)) ∧
    (s.pc.asked? = none → Kept s s')

theorem Shadowed.tells (hs : Shadowed v numSymbols bookCfg risk s h)
    (trust : cfg.trustClientIds = false) (ok : bookCfg.Accepted) (is : List Input) (i : Input)
    (hnext : ∀ pre, pre <+: is → (Gateway.run cfg desk s pre).core.ids.next ≠ 0)
    (names : v.Names cfg s is) : v.Tells cfg s h is i := by
  obtain ⟨h', past, hrun, hafter⟩ := hs.run trust ok is hnext names
  refine ⟨h', past, hrun, fun fd off clientSeq clientId c rest hpc hgo => ?_, fun hnone => ?_⟩
  · have hasked : (Gateway.run cfg desk s is).pc.asked? = some (c, clientId) := by
      rw [hpc]
      rfl
    rw [step, hpc] at hgo ⊢
    have hcov := names is List.prefix_rfl (c, clientId) hasked
    obtain ⟨h₁, events, hprocess, -, hconns⟩ := hafter.handle trust ok hpc hcov i
    exact ⟨h₁, events, hprocess, hconns hgo⟩
  · exact kept_step desk _ i (command?_of_asked hnone)

/-- What the gateway has told and tells its sessions is what a gate and an engine of their own,
given the same commands in the clients' own names, say: to the sender its own orders by client id
and those of others as 0, and at the end that the command is done; to another session the fills of
its orders; and nothing else. -/
theorem id_translation_invisible (v : Naming) (cfg : GatewayConfig)
    (trust : cfg.trustClientIds = false) (hash hash' : IndexHash) (numSymbols : UInt32)
    (bookCfg : BookConfig) (ok : bookCfg.Accepted) (risk : RiskConfig)
    (journal : Journal.JournalWriter) (pub : Option Stream.Publisher) (digest : List Event)
    (seq : UInt64) (nextOwner : OwnerId) (is : List Input) (i : Input) :
    let s₀ : State (RiskGate (OrderBook σ)) :=
      start (RiskGate.make (MatchingEngine.make hash numSymbols bookCfg) risk) journal pub
        digest seq nextOwner 1
    let s := run cfg desk s₀ is
    let s' := step cfg desk s i
    (∀ pre, pre <+: is → (run cfg desk s₀ pre).core.ids.next ≠ 0) →
    (∀ pre, pre <+: is → ∀ a, (run cfg desk s₀ pre).pc.asked? = some a → a.2 = 0 ∨
      v.Covers a.1.owner a.2) →
    ∃ (h : RiskGate (OrderBook τ)) (past : List Event),
      (RiskGate.make (MatchingEngine.make hash' numSymbols bookCfg) risk).run
        ((v.asked cfg desk s₀ is).map .process) =
        some (h, past) ∧
      (∀ fd off clientSeq clientId c rest, s.pc = .logged fd off clientSeq clientId c rest →
        s'.pc ≠ .crashed →
        ∃ h' events, h.process (v.command (c, clientId)) = some (h', events) ∧
          s'.sessions.conns = extend s.sessions.conns
            (v.reports s.sessions.ownerFd fd clientSeq c events)) ∧
      (s.pc.asked? = none → Kept s s') := by
  intro s₀ s s' hnext hcovers
  have hstart : Shadowed v numSymbols bookCfg risk s₀
      (RiskGate.make (MatchingEngine.make hash' numSymbols bookCfg) risk :
        RiskGate (OrderBook τ)) :=
    shadowed_start v hash hash' numSymbols ok risk journal pub digest seq nextOwner (by decide)
  exact hstart.tells trust ok is i hnext hcovers

/-- On a gateway over an engine without orders, while its id counter has not wrapped: whatever ids
tell apart what the commands of the run name, each session is told what a gate and an engine of
their own say to the same commands in these names. There are such ids, if there are ids enough. A
client that is alone is told what an engine of its own says to its own ids. -/
theorem sessions_told_in_own_names (cfg : GatewayConfig) (trust : cfg.trustClientIds = false)
    (hash hash' : IndexHash) (numSymbols : UInt32) (bookCfg : BookConfig) (ok : bookCfg.Accepted)
    (risk : RiskConfig) (journal : Journal.JournalWriter) (pub : Option Stream.Publisher)
    (digest : List Event) (seq : UInt64) (nextOwner : OwnerId) (first : OrderId)
    (hfirst : first ≠ 0) (is : List Input) (i : Input) :
    let s₀ : State (RiskGate (OrderBook σ)) :=
      start (RiskGate.make (MatchingEngine.make hash numSymbols bookCfg) risk) journal pub
        digest seq nextOwner first
    let h₀ : RiskGate (OrderBook τ) :=
      RiskGate.make (MatchingEngine.make hash' numSymbols bookCfg) risk
    let s := run cfg desk s₀ is
    let s' := step cfg desk s i
    (∀ pre, pre <+: is → (run cfg desk s₀ pre).core.ids.next ≠ 0) →
    (∀ v : Naming, v.Names cfg s₀ is → v.Tells cfg s₀ h₀ is i) ∧
    (∀ ps : List (OwnerId × OrderId), ps.length < 2 ^ 64 →
      (∀ pre, pre <+: is → ∀ a, (run cfg desk s₀ pre).pc.asked? = some a → a.2 ≠ 0 →
        (a.1.owner, a.2) ∈ ps) →
      ∃ v : Naming, v.Names cfg s₀ is) ∧
    ∀ o, (∀ pre, pre <+: is → ∀ a, (run cfg desk s₀ pre).pc.asked? = some a → a.1.owner = o) →
      ∃ h past, h₀.run (((Naming.sole o).asked cfg desk s₀ is).map .process) = some (h, past) ∧
        ∀ fd off clientSeq clientId c rest, s.pc = .logged fd off clientSeq clientId c rest →
          s'.pc ≠ .crashed →
          ∃ h' events, h.process { c with orderId := clientId } = some (h', events) ∧
            s'.sessions.conns = extend s.sessions.conns fun f =>
              if f = fd then (events.map fun e => ⟨c.seq, .exec e clientSeq⟩) ++
                [⟨c.seq, .done c.symbol clientSeq⟩] else [] := by
  intro s₀ h₀ s s' hnext
  have htells : ∀ v : Naming, v.Names cfg s₀ is → v.Tells cfg s₀ h₀ is i := by
    intro v names
    have hstart : Shadowed v numSymbols bookCfg risk s₀ h₀ :=
      shadowed_start v hash hash' numSymbols ok risk journal pub digest seq nextOwner hfirst
    exact hstart.tells trust ok is i hnext names
  refine ⟨htells, fun ps short used => ?_, fun o alone => ?_⟩
  · refine ⟨.numbered ps short, fun pre hpre a ha => ?_⟩
    by_cases hzero : a.2 = 0
    · exact .inl hzero
    · exact .inr ⟨hzero, used pre hpre a ha hzero⟩
  · have names : (Naming.sole o).Names cfg s₀ is := by
      intro pre hpre a ha
      by_cases hzero : a.2 = 0
      · exact .inl hzero
      · exact .inr ⟨alone pre hpre a ha, hzero⟩
    obtain ⟨h, past, hrun, hanswer, -⟩ := htells _ names
    refine ⟨h, past, hrun, fun fd off clientSeq clientId c rest hpc hgo => ?_⟩
    obtain ⟨h', events, hprocess, hconns⟩ := hanswer fd off clientSeq clientId c rest hpc hgo
    have hown : c.owner = o := alone is List.prefix_rfl (c, clientId) (by
      change s.pc.asked? = _
      rw [hpc]
      rfl)
    subst hown
    refine ⟨h', events, hprocess, hconns.trans ?_⟩
    congr 1
    ext1 f
    exact Naming.sole_reports _ fd clientSeq c events f

end Runs

/-- Session 3 enters an order, and session 4 takes half of it with an order that it calls by the
same id. -/
def sameNames : List Input :=
  [{ ready := [.listener] }, { accepted := [3, 4] }, idle, idle,
    { ready := [.conn 3 false true] }, { received := .data (Wire.encode (smallOrder 7 .sell 2)) },
    idle, idle, idle, idle, idle,
    { ready := [.conn 4 false true] },
    { received := .data (Wire.encode (smallOrder 7 .buy 1)) }, idle]

def namesakes : State (RiskGate (OrderBook Book.AosStore)) :=
  run {} desk (start smallGate .create none [] 0 1 1) sameNames

/-- The taker as it goes to the engine. -/
def namesake : Command := { smallOrder 2 .buy 1 with seq := 2, owner := 2 }

theorem packed_names {s₀ : State (RiskGate (OrderBook Book.AosStore))} {is : List Input}
    (hall : ∀ pre ∈ is.inits, (run {} desk s₀ pre).pc.asked?.all
      (fun a => a.1.owner.toNat < 2 ^ 16 ∧ a.2 ≠ 0 ∧ a.2.toNat < 2 ^ 48) = true) :
    Naming.packed.Names {} s₀ is := by
  intro pre hpre a ha
  have hone := hall pre ((List.mem_inits pre _).mpr hpre)
  rw [ha, Option.all_some, decide_eq_true_eq] at hone
  exact .inr hone

theorem id_translation_invisible_namesakes : ∃ (h h' : RiskGate (OrderBook Book.AosStore))
    (past events : List Event),
    smallGate.run ((Naming.packed.asked {} desk (start smallGate .create none [] 0 1 1)
      sameNames).map .process) = some (h, past) ∧
    h.process (Naming.packed.command (namesake, 7)) = some (h', events) ∧
    (step {} desk namesakes idle).sessions.conns =
      extend namesakes.sessions.conns
        (Naming.packed.reports namesakes.sessions.ownerFd 4 1 namesake events) := by
  have hnext : ∀ pre, pre <+: sameNames →
      (run {} desk (start smallGate .create none [] 0 1 1) pre).core.ids.next ≠ 0 := by
    have hall : ∀ pre ∈ sameNames.inits,
        (run {} desk (start smallGate .create none [] 0 1 1) pre).core.ids.next ≠ 0 := by
      decide +kernel
    exact fun pre hpre => hall pre ((List.mem_inits pre _).mpr hpre)
  have hcovers : Naming.packed.Names {} (start smallGate .create none [] 0 1 1) sameNames :=
    packed_names (by decide +kernel)
  obtain ⟨h, past, hrun, hanswer, -⟩ := id_translation_invisible (τ := Book.AosStore) Naming.packed
    {} rfl Book.scatterHash
    Book.scatterHash 1 { numLevels := 64, maxOrders := 4 } (by decide) {} .create none
      [] 0 1 sameNames idle hnext hcovers
  obtain ⟨h', events, hprocess, hconns⟩ :=
    hanswer 4 48 1 7 namesake [] (by decide +kernel) (by decide +kernel)
  exact ⟨h, h', past, events, hrun, hprocess, hconns⟩

/-- A gateway whose exchange ids begin at 40. -/
def lateStart : State (RiskGate (OrderBook Book.AosStore)) :=
  start smallGate .create none [] 0 1 40

theorem sessions_told_in_own_names_late :
    (run {} desk lateStart sameNames).pc.asked? = some ({ namesake with orderId := 41 }, 7) ∧
      (step {} desk (run {} desk lateStart sameNames) idle).pc ≠ .crashed ∧
      Naming.packed.Tells {} lateStart smallGate sameNames idle := by
  have hnext : ∀ pre, pre <+: sameNames → (run {} desk lateStart pre).core.ids.next ≠ 0 := by
    have hall : ∀ pre ∈ sameNames.inits, (run {} desk lateStart pre).core.ids.next ≠ 0 := by
      decide +kernel
    exact fun pre hpre => hall pre ((List.mem_inits pre _).mpr hpre)
  have names : Naming.packed.Names {} lateStart sameNames := packed_names (by decide +kernel)
  refine ⟨by decide +kernel, by decide +kernel, ?_⟩
  exact (sessions_told_in_own_names (τ := Book.AosStore) {} rfl Book.scatterHash Book.scatterHash 1
    { numLevels := 64, maxOrders := 4 } (by decide) {} .create none [] 0 1 40 (by decide) sameNames
    idle hnext).1 _ names

/-- One session enters two orders. -/
def twoOrders : List Input :=
  [{ ready := [.listener] }, { accepted := [3] }, idle, idle, { ready := [.conn 3 false true] },
    { received := .data (Wire.encode (smallOrder 7 .sell 2) ++
        Wire.encode (smallOrder 8 .sell 2)) }, idle, idle, idle]

/-- A gateway that has one exchange id left. -/
def lastStart : State (RiskGate (OrderBook Book.AosStore)) :=
  start smallGate .create none [] 0 1 (2 ^ 64 - 1)

/-- The second order is called 0 and rejected, where a gate that is given the client's own names
takes it. -/
theorem wrapped_id_is_told : Naming.packed.Names {} lastStart twoOrders ∧
    ¬ Naming.packed.Tells {} lastStart smallGate twoOrders idle := by
  refine ⟨packed_names (by decide +kernel), ?_⟩
  rintro ⟨h, past, hrun, hanswer, -⟩
  let c : Command := { smallOrder 0 .sell 2 with seq := 2, owner := 1 }
  have hdiffers : (smallGate.run ((Naming.packed.asked {} desk lastStart twoOrders).map
      .process)).all (fun r => (r.1.process (Naming.packed.command (c, 8))).all fun t =>
      decide ((step {} desk (run {} desk lastStart twoOrders) idle).sessions.conns 3 ≠
        extend (run {} desk lastStart twoOrders).sessions.conns (Naming.packed.reports
          (run {} desk lastStart twoOrders).sessions.ownerFd 3 1 c t.2) 3)) = true := by
    decide +kernel
  obtain ⟨h', events, hprocess, hconns⟩ :=
    hanswer 3 96 1 8 c [] (by decide +kernel) (by decide +kernel)
  rw [hrun, Option.all_some, hprocess, Option.all_some, decide_eq_true_eq] at hdiffers
  exact hdiffers (congrFun hconns 3)

end ExchangeSim.Gateway
