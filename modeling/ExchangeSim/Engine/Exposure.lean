/- digest: The risk limits bound every resting order over whole runs, and a halted symbol only loses
   orders. -/

import ExchangeSim.Book.Taker
import ExchangeSim.Engine.RiskCalls

set_option autoImplicit false
set_option relaxedAutoImplicit false

namespace ExchangeSim.Engine

open Book (OrderBook StoreLayout IndexHash Listing Resting)
open Book.PriorityBook (Rules)

variable {σ : Type} [StoreLayout σ]

/-! ### The engine over abstract books -/

structure EngineRefines (numSymbols : UInt32) (cfg : BookConfig) (e : MatchingEngine (OrderBook σ))
    (books : SymbolId → Book.PriorityBook) : Prop where
  known : e.numSymbols = numSymbols
  book : ∀ s, s < numSymbols → OrderBook.Refines ⟨s, cfg⟩ (e.book s) (books s)

theorem engineRefines_make (hash : IndexHash) (numSymbols : UInt32) {cfg : BookConfig}
    (ok : cfg.Accepted) :
    EngineRefines numSymbols cfg (MatchingEngine.make (σ := σ) hash numSymbols cfg) fun _ =>
      Book.PriorityBook.empty := by
  refine ⟨rfl, fun s _ => ?_⟩
  have hs : UInt32.ofNat s.toNat = s := UInt32.ofNat_toNat
  have hbook : (MatchingEngine.make (σ := σ) hash numSymbols cfg).book s = .make hash s cfg :=
    congrArg (fun t => OrderBook.make hash t cfg) hs
  rw [hbook]
  exact Book.OrderBook.refines_make hash s ok

variable {numSymbols : UInt32} {cfg : BookConfig} {e : MatchingEngine (OrderBook σ)}
    {books : SymbolId → Book.PriorityBook}

theorem EngineRefines.process (h : EngineRefines numSymbols cfg e books) {c : Command}
    (hc : c.symbol < numSymbols) :
    let r := Book.PriorityBook.process ⟨c.symbol, cfg⟩ Book.PriorityBook.fillableAgg
      (books c.symbol) c
    ∃ e', e.process c = some (e', r.2) ∧ EngineRefines numSymbols cfg e'
        (Function.update books c.symbol r.1) := by
  intro r
  obtain ⟨b', out, hrun, href, hsends⟩ := (h.book c.symbol hc).process c {}
  have hevents : out.events = r.2 := hsends.events
  have hknown : ¬ e.numSymbols ≤ c.symbol := by
    rw [h.known]
    exact UInt32.not_le.mpr hc
  refine ⟨{ e with books := Function.update e.books c.symbol.toNat b' }, ?_,
    h.known, fun s hs => ?_⟩
  · rw [MatchingEngine.process, if_neg hknown]
    simp only [BookType.process, hrun, Option.map_some, hevents]
  · change OrderBook.Refines _ (Function.update e.books c.symbol.toNat b' s.toNat) _
    by_cases hsym : s = c.symbol
    · subst hsym
      rw [Function.update_self, Function.update_self]
      exact href
    · have hne : s.toNat ≠ c.symbol.toNat := fun hx => hsym (UInt32.toNat_inj.mp hx)
      rw [Function.update_of_ne hne, Function.update_of_ne hsym]
      exact h.book s hs

theorem EngineRefines.unknown (h : EngineRefines numSymbols cfg e books) {c : Command}
    (hc : ¬ c.symbol < numSymbols) :
    e.process c = some (e, [rejectedEvent c .unknownSymbol]) := by
  rw [MatchingEngine.process, if_pos]
  rw [h.known]
  exact UInt32.not_lt.mp hc

/-! ### The limits -/

structure Within (risk : RiskConfig) (price : Price) (qty : Qty) : Prop where
  qty_le : qty ≤ risk.maxQty
  notional_le : risk.maxNotional ≠ 0 → price.toInt * qty.toNat ≤ risk.maxNotional.toNat

theorem Within.mono {risk : RiskConfig} {price : Price} {qty qty' : Qty} (h : Within risk price qty)
    (hle : qty' ≤ qty) :
    Within risk price qty' := by
  refine ⟨UInt64.le_trans hle h.qty_le, fun hn => ?_⟩
  have hq : qty'.toNat ≤ qty.toNat := UInt64.le_iff_toNat_le.mp hle
  have hbound := h.notional_le hn
  by_cases hp : 0 ≤ price.toInt
  · have := Int.mul_le_mul_of_nonneg_left (Int.ofNat_le.mpr hq) hp
    omega
  · have : price.toInt * qty'.toNat ≤ 0 := Int.mul_nonpos_of_nonpos_of_nonneg (by omega) (by omega)
    omega

theorem within_of_check {risk : RiskConfig} {c : Command} (hqty : ¬ risk.maxQty < c.qty)
    (hnotional : RiskGate.overNotional risk c = false) : Within risk c.price c.qty := by
  refine ⟨UInt64.not_lt.mp hqty, fun hn => ?_⟩
  by_cases hq : c.qty = 0
  · have hzero : c.price.toInt * c.qty.toNat = 0 := by
      rw [hq]
      exact Int.mul_zero _
    omega
  by_cases hp : c.price < 0
  · have hneg : c.price.toInt < 0 := Int64.lt_iff_toInt_lt.mp hp
    have : c.price.toInt * c.qty.toNat ≤ 0 :=
      Int.mul_nonpos_of_nonpos_of_nonneg (by omega) (by omega)
    omega
  · have hpos : 0 ≤ c.price.toInt := by
      have := Int64.lt_iff_toInt_lt.not.mp hp
      have hzero : (0 : Int64).toInt = 0 := rfl
      omega
    have hle : c.price.toUInt64.toNat ≤ risk.maxNotional.toNat / c.qty.toNat := by
      have hdiv : ¬ risk.maxNotional / c.qty < c.price.toUInt64 := by
        intro hx
        rw [RiskGate.overNotional, decide_eq_false_iff_not] at hnotional
        exact hnotional ⟨hn, hq, by rw [if_neg hp]; exact hx⟩
      rw [UInt64.not_lt, UInt64.le_iff_toNat_le, UInt64.toNat_div] at hdiv
      exact hdiv
    have hprice : (c.price.toUInt64.toNat : Int) = c.price.toInt := by
      have hzero : (0 : Int64) ≤ c.price := Int64.le_iff_toInt_le.mpr hpos
      rw [Int64.toNat_toUInt64_of_le hzero, Int64.toNatClampNeg]
      exact Int.toNat_of_nonneg hpos
    have hmul : c.price.toUInt64.toNat * c.qty.toNat ≤ risk.maxNotional.toNat :=
      (Nat.mul_le_mul_right _ hle).trans (Nat.div_mul_le_self _ _)
    rw [← hprice]
    exact_mod_cast hmul

namespace RiskGate

theorem check_within {B : Type} {g : RiskGate B} {c : Command}
    (hknown : c.symbol < g.engine.numSymbols)
    (hpriced : c.type = .newOrder ∧ c.ordType = .limit ∨ c.type = .modify)
    (hpass : (g.check c).1 = .none) :
    Within g.cfg c.price c.qty := by
  have hnot := (check_rejects_iff ⟨hknown, hpriced⟩).not.mp (not_not.mpr hpass)
  rw [not_or, rejectsOtherwise] at hnot
  simp only [Bool.or_eq_true, decide_eq_true_eq, not_or] at hnot
  exact within_of_check hnot.1.1.1.1.2 (Bool.eq_false_iff.mpr hnot.1.1.1.2)

structure Holds (numSymbols : UInt32) (cfg : BookConfig) (risk : RiskConfig)
    (g : RiskGate (OrderBook σ)) (books : SymbolId → Book.PriorityBook) : Prop where
  engine : EngineRefines numSymbols cfg g.engine books
  limits : g.cfg = risk
  within : ∀ s, s < numSymbols → ∀ S, ∀ e ∈ books s S,
    Within risk (Rules.priceOf ⟨s, cfg⟩ e.level) e.qty

variable {risk : RiskConfig} {g : RiskGate (OrderBook σ)}

theorem holds_make (hash : IndexHash) (numSymbols : UInt32) {cfg : BookConfig} (ok : cfg.Accepted)
    (risk : RiskConfig) :
    Holds numSymbols cfg risk (make (MatchingEngine.make (σ := σ) hash numSymbols cfg) risk)
      fun _ => Book.PriorityBook.empty :=
  ⟨engineRefines_make hash numSymbols ok, rfl, fun _ _ _ _ he => (nomatch he)⟩

theorem Holds.passed (h : Holds numSymbols cfg risk g books) (ok : cfg.Accepted) {c : Command}
    (hc : c.symbol < numSymbols) (hpass : c.type = .cancel ∨ (g.check c).1 = .none) :
    let r := Book.PriorityBook.process ⟨c.symbol, cfg⟩ Book.PriorityBook.fillableAgg
      (books c.symbol) c
    ∃ g', g.process c = some (g', r.2) ∧ Holds numSymbols cfg risk g'
        (Function.update books c.symbol r.1) := by
  intro r
  obtain ⟨e', hrun, hengine⟩ := h.engine.process hc
  have hwithin : ∀ s, s < numSymbols → ∀ S, ∀ e ∈ Function.update books c.symbol r.1 s S,
      Within risk (Rules.priceOf ⟨s, cfg⟩ e.level) e.qty := by
    intro s hs S e he
    by_cases hsym : s = c.symbol
    · subst hsym
      rw [Function.update_self] at he
      rcases Book.PriorityBook.process_rests (R := ⟨c.symbol, cfg⟩) ok.levels_le
        (h.engine.book c.symbol hc).ok _ c S e he
        with ⟨e', he', heq, hle⟩ | ⟨hpriced, hle, hrel⟩
      · have hold := h.within c.symbol hs S e' he'
        rw [heq] at hold
        exact hold.mono hle
      · have hcheck : (g.check c).1 = .none := by
          rcases hpass with hcancel | hcheck
          · rw [hcancel] at hpriced
            rcases hpriced with hx | hx
            · exact nomatch hx.1
            · exact nomatch hx
          · exact hcheck
        have hnew := check_within (by rw [h.engine.known]; exact hc) hpriced hcheck
        rw [h.limits] at hnew
        rw [Book.PriorityBook.Rules.priceOf_relOf hrel]
        exact hnew.mono hle
    · rw [Function.update_of_ne hsym] at he
      exact h.within s hs S e he
  obtain ⟨g', hg', heng, hcfg⟩ := process_passed hpass hrun
  exact ⟨g', hg', by rw [heng]; exact hengine, hcfg.trans h.limits, hwithin⟩

theorem Holds.stopped (h : Holds numSymbols cfg risk g books) {c : Command}
    (hno : ¬ c.symbol < numSymbols ∨ c.type ≠ .cancel ∧ (g.check c).1 ≠ .none) :
    ∃ g' reason, g.process c = some (g', [rejectedEvent c reason]) ∧
    Holds numSymbols cfg risk g' books := by
  by_cases hrej : c.type ≠ .cancel ∧ (g.check c).1 ≠ .none
  · obtain ⟨g', hg', heng, hcfg⟩ := process_rejected hrej.1 hrej.2
    exact ⟨g', _, hg', by rw [heng]; exact h.engine, hcfg.trans h.limits, h.within⟩
  · have hun := h.engine.unknown (hno.resolve_right hrej)
    have hpass : c.type = .cancel ∨ (g.check c).1 = .none := by
      rw [not_and_or, not_not, not_not] at hrej
      exact hrej
    obtain ⟨g', hg', heng, hcfg⟩ := process_passed hpass hun
    exact ⟨g', _, hg', by rw [heng]; exact h.engine, hcfg.trans h.limits, h.within⟩

theorem Holds.call (h : Holds numSymbols cfg risk g books) (ok : cfg.Accepted) (k : GateCall) :
    ∃ g' events books', g.call k = some (g', events) ∧ Holds numSymbols cfg risk g' books' ∧
      ((books' = books ∧ ∀ ev ∈ events, ev.type ≠ .trade) ∨
        ∃ c, k = .process c ∧ c.symbol < numSymbols ∧ (c.type = .cancel ∨ (g.check c).1 = .none) ∧
          let r := Book.PriorityBook.process ⟨c.symbol, cfg⟩ Book.PriorityBook.fillableAgg
            (books c.symbol) c
          books' = Function.update books c.symbol r.1 ∧ events = r.2) := by
  have hquiet : ∀ g', g'.engine = g.engine → g'.cfg = g.cfg → Holds numSymbols cfg risk g' books :=
    fun g' he hc => ⟨by rw [he]; exact h.engine, hc.trans h.limits, h.within⟩
  cases k with
  | process c =>
      by_cases hpass : c.symbol < numSymbols ∧ (c.type = .cancel ∨ (g.check c).1 = .none)
      · obtain ⟨g', hg', hholds⟩ := h.passed ok hpass.1 hpass.2
        exact ⟨g', _, _, hg', hholds, .inr ⟨c, rfl, hpass.1, hpass.2, rfl, rfl⟩⟩
      · have hno : ¬ c.symbol < numSymbols ∨ c.type ≠ .cancel ∧ (g.check c).1 ≠ .none := by
          rw [not_and_or, not_or] at hpass
          exact hpass
        obtain ⟨g', reason, hg', hholds⟩ := h.stopped hno
        refine ⟨g', _, books, hg', hholds, .inl ⟨rfl, fun ev hev => ?_⟩⟩
        rw [List.mem_singleton.mp hev]
        exact fun hx => nomatch hx
  | halt s =>
      refine ⟨g.halt s, [], books, rfl, ?_, .inl ⟨rfl, fun ev hev => nomatch hev⟩⟩
      rw [halt]
      split
      · exact hquiet _ rfl rfl
      · exact h
  | resume s =>
      refine ⟨g.resume s, [], books, rfl, ?_, .inl ⟨rfl, fun ev hev => nomatch hev⟩⟩
      rw [resume]
      split
      · exact hquiet _ rfl rfl
      · exact h
  | haltAll on =>
      exact ⟨g.setHaltAll on, [], books, rfl, hquiet _ rfl rfl,
        .inl ⟨rfl, fun ev hev => nomatch hev⟩⟩

theorem Holds.run (h : Holds numSymbols cfg risk g books) (ok : cfg.Accepted) (ks : List GateCall) :
    ∃ g' events books', g.run ks = some (g', events) ∧ Holds numSymbols cfg risk g' books' := by
  induction ks generalizing g books with
  | nil => exact ⟨g, [], books, rfl, h⟩
  | cons k ks ih =>
      obtain ⟨g₁, events, books₁, hcall, h₁, _⟩ := h.call ok k
      obtain ⟨g₂, more, books₂, hrun, h₂⟩ := ih h₁
      refine ⟨g₂, events ++ more, books₂, ?_, h₂⟩
      simp only [RiskGate.run, hcall, hrun, Option.bind_eq_bind, Option.bind_some]
      rfl

/-! ### Halts -/

/-- Whether everything, and whether the symbol, is halted after a call. -/
def halts (s : SymbolId) (h : Bool × Bool) : GateCall → Bool × Bool
  | .process _ => h
  | .halt t => if t = s then (h.1, true) else h
  | .resume t => if t = s then (h.1, false) else h
  | .haltAll on => (on, h.2)

/-- The symbol, or everything, has been halted and not resumed. -/
def haltedBy (s : SymbolId) (ks : List GateCall) : Bool :=
  let h := ks.foldl (halts s) (false, false)
  h.1 || h.2

structure Frozen (s : SymbolId) (before after : Listing) (k : GateCall)
    (events : List Event) : Prop where
  orders : after = before ∨ ∃ c, k = .process c ∧ c.type = .cancel ∧ c.symbol = s ∧
    ∀ S, after S = (before S).filter fun o => o.2.1 ≠ c.orderId
  trades : ∀ ev ∈ events, ev.type = .trade → ev.symbol ≠ s

theorem call_halts {B : Type} [BookType B] {g g' : RiskGate B} {k : GateCall} {events : List Event}
    (h : g.call k = some (g', events)) {s : SymbolId} (hs : s < g.engine.numSymbols) :
    (g'.haltAll, g'.halted s.toNat) = halts s (g.haltAll, g.halted s.toNat) k := by
  have hother : ∀ t : SymbolId, ¬ t = s → s.toNat ≠ t.toNat :=
    fun t ht hx => ht (UInt32.toNat_inj.mp hx).symm
  cases k with
  | process c =>
      rcases process_cases h with ⟨_, _, _, rfl⟩ | ⟨_, _, _, rfl⟩
      · rfl
      · rfl
  | halt t =>
      cases h
      by_cases ht : t = s
      · subst ht
        simp only [halt, if_pos hs, halts, if_true, Function.update_self]
      · simp only [halt, halts, if_neg ht]
        split
        · simp only [Function.update_of_ne (hother t ht)]
        · rfl
  | resume t =>
      cases h
      by_cases ht : t = s
      · subst ht
        simp only [resume, if_pos hs, halts, if_true, Function.update_self]
      · simp only [resume, halts, if_neg ht]
        split
        · simp only [Function.update_of_ne (hother t ht)]
        · rfl
  | haltAll on =>
      cases h
      rfl

theorem run_halts {B : Type} [BookType B] {g g' : RiskGate B} {ks : List GateCall}
    {events : List Event} (h : g.run ks = some (g', events)) {s : SymbolId}
    (hs : s < g.engine.numSymbols) :
    (g'.haltAll, g'.halted s.toNat) = ks.foldl (halts s) (g.haltAll, g.halted s.toNat) := by
  induction ks generalizing g events with
  | nil =>
      cases h
      rfl
  | cons k ks ih =>
      rw [RiskGate.run] at h
      obtain ⟨⟨g₁, evs⟩, hcall, h⟩ := Option.bind_eq_some_iff.mp h
      obtain ⟨⟨g₂, more⟩, hrun, h⟩ := Option.bind_eq_some_iff.mp h
      cases h
      rw [List.foldl_cons, ← call_halts hcall hs]
      exact ih hrun (by rw [(call_spec hcall).2.2.1]; exact hs)

theorem check_halted {B : Type} {g : RiskGate B} {c : Command} (hc : c.symbol < g.engine.numSymbols)
    (hstop : (g.view c.symbol).stopped = true) : (g.check c).1 = .riskHalted := by
  rw [check_eq, early, if_neg (UInt32.not_le.mpr hc), if_pos hstop]

theorem listing_eraseId {R : Rules} {A : Book.PriorityBook} (hd : Book.PriorityBook.Distinct A)
    {S : Side} {e : Resting} (he : e ∈ A S) (U : Side) :
    Book.PriorityBook.listing R (Function.update A S (Book.PriorityBook.eraseId e.id (A S))) U =
      (Book.PriorityBook.listing R A U).filter fun o => o.2.1 ≠ e.id := by
  rw [Book.PriorityBook.listing, Book.PriorityBook.listing, List.filter_map]
  by_cases hU : U = S
  · subst hU
    rw [Function.update_self]
    rfl
  · rw [Function.update_of_ne hU]
    have hall : ∀ x ∈ A U, decide (x.id ≠ e.id) = true :=
      fun x hx => decide_eq_true_iff.mpr fun hid => hU (hd.unique hx he hid).1
    exact congrArg _ (List.filter_eq_self.mpr hall).symm

theorem Holds.frozen (h : Holds numSymbols cfg risk g books) (ok : cfg.Accepted) {s : SymbolId}
    (hs : s < numSymbols) (hstop : (g.view s).stopped = true) (k : GateCall) :
    ∃ g' events after, g.call k = some (g', events) ∧ (g'.engine.book s).listing = some after ∧
      Frozen s (Book.PriorityBook.listing ⟨s, cfg⟩ (books s)) after k events := by
  obtain ⟨g', events, books', hcall, hholds, hcase⟩ := h.call ok k
  have hlisting := (hholds.engine.book s hs).listing
  refine ⟨g', events, _, hcall, hlisting, ?_⟩
  rcases hcase with ⟨rfl, hquiet⟩ | ⟨c, rfl, hc, hpass, rfl, rfl⟩
  · exact ⟨.inl rfl, fun ev hev ht => absurd ht (hquiet ev hev)⟩
  by_cases hsym : s = c.symbol
  · subst hsym
    have hcancel : c.type = .cancel := by
      refine hpass.resolve_right fun hnone => ?_
      rw [check_halted (by rw [h.engine.known]; exact hc) hstop] at hnone
      cases hnone
    rw [Function.update_self]
    rcases Book.PriorityBook.process_cases ⟨c.symbol, cfg⟩ Book.PriorityBook.fillableAgg
        (books c.symbol) c with
      ⟨_, hr⟩ | ⟨S, e, _, hlook, hr⟩ | ⟨_, _, hx, _⟩ | ⟨_, hx, _⟩ | ⟨_, hx, _⟩ | ⟨_, _, _, hx, _⟩
    · rw [hr]
      refine ⟨.inl rfl, fun ev hev ht => ?_⟩
      rw [List.mem_singleton.mp hev] at ht
      cases ht
    · obtain ⟨he, hid⟩ := Book.PriorityBook.lookup_mem hlook
      rw [hr]
      refine ⟨.inr ⟨c, rfl, hcancel, rfl, fun U => ?_⟩, fun ev hev ht => ?_⟩
      · rw [← hid]
        exact listing_eraseId (h.engine.book c.symbol hs).ok.ids he U
      · rw [List.mem_singleton.mp hev] at ht
        cases ht
    all_goals
      rw [hcancel] at hx
      cases hx
  · rw [Function.update_of_ne hsym]
    refine ⟨.inl rfl, fun ev hev _ => ?_⟩
    rw [Book.PriorityBook.process_symbol _ _ rfl ev hev]
    exact fun hx => hsym hx.symm

theorem Holds.cancel (h : Holds numSymbols cfg risk g books) (ok : cfg.Accepted) {c : Command}
    (hc : c.symbol < numSymbols) (hty : c.type = .cancel) {S : Side} {o : Price × OrderId × Qty}
    (ho : o ∈ Book.PriorityBook.listing ⟨c.symbol, cfg⟩ (books c.symbol) S)
    (hid : o.2.1 = c.orderId) :
    ∃ g' after, g.process c = some
      (g', [canceledEvent c.symbol c.orderId S o.1 o.2.2 .userCanceled]) ∧
      (g'.engine.book c.symbol).listing = some after ∧
      ∀ U, after U = (Book.PriorityBook.listing ⟨c.symbol, cfg⟩ (books c.symbol) U).filter fun x =>
        x.2.1 ≠ c.orderId := by
  obtain ⟨e, he, rfl⟩ := List.mem_map.mp ho
  have hids := (h.engine.book c.symbol hc).ok.ids
  have hlook : Book.PriorityBook.lookup (books c.symbol) c.orderId = some (S, e) := by
    rw [← hid]
    exact hids.lookup_eq he
  obtain ⟨g', hg', hholds⟩ := h.passed ok hc (.inl hty)
  have hr : Book.PriorityBook.process ⟨c.symbol, cfg⟩ Book.PriorityBook.fillableAgg
    (books c.symbol) c =
      (Function.update (books c.symbol) S (Book.PriorityBook.eraseId c.orderId (books c.symbol S)),
        [canceledEvent c.symbol c.orderId S (Rules.priceOf ⟨c.symbol, cfg⟩ e.level)
          e.qty .userCanceled]) := by
    simp only [Book.PriorityBook.process, hty, Book.PriorityBook.cancel, hlook]
  rw [hr] at hg' hholds
  refine ⟨g', _, hg', (hholds.engine.book c.symbol hc).listing, fun U => ?_⟩
  rw [Function.update_self, ← hid]
  exact listing_eraseId hids he U

/-- In every state a gate reaches, every resting order is within the limits; nothing that is done to
a halted symbol adds an order to its book, changes one or trades; and a resting order can always be
cancelled. -/
theorem limits_hold (hash : IndexHash) (numSymbols : UInt32) (cfg : BookConfig) (ok : cfg.Accepted)
    (risk : RiskConfig) (ks : List GateCall) :
    ∃ g events, (make (MatchingEngine.make (σ := σ) hash numSymbols cfg) risk).run ks =
    some (g, events) ∧
      ∀ s, s < numSymbols → ∃ orders, (g.engine.book s).listing = some orders ∧
        (∀ S, ∀ o ∈ orders S, Within risk o.1 o.2.2) ∧
        (haltedBy s ks = true → ∀ k, ∃ g' events after, g.call k = some (g', events) ∧
          (g'.engine.book s).listing = some after ∧ Frozen s orders after k events) ∧
        (∀ c S, ∀ o ∈ orders S, c.type = .cancel → c.symbol = s → c.orderId = o.2.1 →
          ∃ g' after, g.process c = some (g', [canceledEvent s o.2.1 S o.1 o.2.2 .userCanceled]) ∧
            (g'.engine.book s).listing = some after ∧ ∀ U,
            after U = (orders U).filter fun x => x.2.1 ≠ o.2.1) := by
  obtain ⟨g, events, books, hrun, h⟩ := (holds_make (σ := σ) hash numSymbols ok risk).run ok ks
  refine ⟨g, events, hrun, fun s hs =>
    ⟨_, (h.engine.book s hs).listing, fun S o ho => ?_, fun hhalted k => ?_, ?_⟩⟩
  · obtain ⟨e, he, rfl⟩ := List.mem_map.mp ho
    exact h.within s hs S e he
  · have hflags := run_halts hrun hs
    refine h.frozen ok hs ?_ k
    change ((g.haltAll, g.halted s.toNat).1 || (g.haltAll, g.halted s.toNat).2) = true
    rw [hflags]
    exact hhalted
  · intro c S o ho hty hsym hid
    subst hsym
    rw [← hid]
    exact h.cancel ok hs hty ho hid.symm

/-- A book with one order, halted. -/
theorem limits_hold_halted :
    (BookConfig.Accepted { numLevels := 64, maxOrders := 4 }) ∧
    haltedBy 0 [.process (order 1 .sell 10), .halt 0] = true ∧
      ∃ g events orders, (make (MatchingEngine.make (σ := Book.AosStore) Book.scatterHash 1
          { numLevels := 64, maxOrders := 4 }) {}).run [.process (order 1 .sell 10), .halt 0] =
            some (g, events) ∧
        (g.engine.book 0).listing = some orders ∧ (∀ S, ∀ o ∈ orders S, Within {} o.1 o.2.2) ∧
        ∃ g' events after, g.call (.process (order 2 .buy 10)) = some (g', events) ∧
          (g'.engine.book 0).listing = some after ∧
          Frozen 0 orders after (.process (order 2 .buy 10)) events := by
  refine ⟨by decide, by decide, ?_⟩
  obtain ⟨g, events, hrun, hall⟩ := limits_hold (σ := Book.AosStore) Book.scatterHash 1
    { numLevels := 64, maxOrders := 4 }
    (by decide) {} [.process (order 1 .sell 10), .halt 0]
  obtain ⟨orders, hlisting, hwithin, hfrozen, _⟩ := hall 0 (by decide)
  exact ⟨g, events, orders, hrun, hlisting, hwithin, hfrozen (by decide) _⟩

end RiskGate
end ExchangeSim.Engine
