/- digest: Rebuilding the replay's engine book from the truth book restores their agreement. -/

import ExchangeSim.Book.Audit
import ExchangeSim.Book.Traversal
import ExchangeSim.L3.Accounts
import ExchangeSim.L3.TruthBook

set_option autoImplicit false
set_option relaxedAutoImplicit false

namespace ExchangeSim.L3

open ExchangeSim.Book
open PriorityBook (Rules Ok lookup inRange ahead join count)

def kLevels : Nat := 1 <<< 24
def kMaxOrders : Nat := 1 <<< 21

/-- The configuration that `make_engine` gives the book. -/
def engineConfig (stp : Bool) : BookConfig where
  minPrice := 0
  numLevels := kLevels
  maxOrders := kMaxOrders
  stp := if stp then .cancelResting else .none

def inBand (px : Price) : Bool := 0 ≤ px ∧ px < Int64.ofNat kLevels

namespace Replay

variable {σ : Type} [StoreLayout σ]

def cancelCommand (id : OrderId) : Command := { type := .cancel, orderId := id }

def addCommand (s : Side) (px : Price) (o : Order) (owner : OwnerId) : Command :=
  { type := .newOrder, orderId := o.id, side := s, price := px, qty := o.qty, owner := owner }

structure State (σ : Type) where
  engine : OrderBook σ
  accounts : Accounts
  sink : Sink := {}

/-- One order of the truth book goes into the engine unless it is empty or out of the band. -/
def readd (s : Side) (st : State σ) (e : Price × Order) : Option (State σ) := do
  if e.2.qty = 0 ∨ ¬ inBand e.1 then return st
  let (owner, accounts) ← st.accounts.owner Accounts.kDepth e.2.id
  let (engine, sink) ← st.engine.add (addCommand s e.1 e.2 owner) st.sink
  return ⟨engine, accounts, sink⟩

def cancelOne (st : State σ) (id : OrderId) : Option (State σ) := do
  let (engine, sink) ← st.engine.cancel (cancelCommand id) st.sink
  return { st with engine := engine, sink := sink }

def rebuildFromTruth (engine : OrderBook σ) (accounts : Accounts) (truth : TruthBook) :
    Option (State σ) := do
  let bids ← engine.forEachOrder .buy
  let asks ← engine.forEachOrder .sell
  let live := (bids ++ asks).map fun o => o.2.1
  let st ← live.foldlM cancelOne { engine := engine, accounts := accounts }
  let st ← (truth.forEach .buy).foldlM (readd .buy) st
  (truth.forEach .sell).foldlM (readd .sell) st

/-- The orders of one side of the truth book that the engine can hold. -/
def replayable (truth : TruthBook) (s : Side) : List (Price × Order) :=
  (truth.forEach s).filter fun e => e.2.qty ≠ 0 ∧ inBand e.1

def booksEqual (engine : OrderBook σ) (truth : TruthBook) : Option Bool := do
  let bids ← engine.forEachOrder .buy
  let asks ← engine.forEachOrder .sell
  return bids = (replayable truth .buy).map (fun e => (e.1, e.2.id, e.2.qty)) &&
    asks = (replayable truth .sell).map (fun e => (e.1, e.2.id, e.2.qty))

/-! ### The abstract book -/

section Abstract

variable {R : Rules} {A : PriorityBook}

theorem cancel_mem (h : PriorityBook.Distinct A) {c : Command} {U : Side} {e : Resting}
    (he : e ∈ (PriorityBook.cancel R A c).1 U) : e ∈ A U ∧ e.id ≠ c.orderId := by
  rw [PriorityBook.cancel] at he
  cases hl : lookup A c.orderId with
  | none =>
      rw [hl] at he
      exact ⟨he, PriorityBook.lookup_eq_none hl U e he⟩
  | some p =>
      obtain ⟨S, x⟩ := p
      rw [hl] at he
      obtain ⟨hold, hne⟩ := PriorityBook.mem_erased.mp he
      obtain ⟨hx, hid⟩ := PriorityBook.lookup_mem hl
      refine ⟨hold, fun heq => hne ?_ heq⟩
      exact (h.unique hold hx (heq.trans hid.symm)).1

theorem cancel_no_trade (c : Command) : ∀ ev ∈ (PriorityBook.cancel R A c).2, ev.type ≠ .trade := by
  rw [PriorityBook.cancel]
  intro ev hev
  split at hev
  · rw [List.mem_singleton.mp hev]
    rintro ⟨⟩
  · rw [List.mem_singleton.mp hev]
    rintro ⟨⟩

/-- An order that meets nobody and is behind everybody on its side joins the end of the side. -/
theorem add_behind (fok : PriorityBook.FokCheck) {S : Side} {px : Price} {o : Order}
    {owner : OwnerId} {ix : Nat} (hid : o.id ≠ 0) (hqty : o.qty ≠ 0) (hrel : R.relOf px = some ix)
    (hnew : ∀ U, ∀ x ∈ A U, x.id ≠ o.id) (hfar : ∀ x ∈ A (opposite S), inRange S ix x.level = false)
    (hbehind : ∀ x ∈ A S, ahead S x.level ix = true) (hroom : count A < R.cfg.maxOrders) :
    PriorityBook.add R fok A (addCommand S px o owner) =
      (Function.update A S (A S ++ [⟨ix, o.id, o.qty, owner⟩]),
        [acceptedEvent R.symbol o.id S px o.qty]) := by
  have hlimit : R.limitOf S (addCommand S px o owner) = some (ix : Int) := by
    simp [Rules.limitOf, addCommand, hrel]
  have hlook : lookup A o.id = none := by
    cases hl : lookup A o.id with
    | none => rfl
    | some p =>
        obtain ⟨hx, hid⟩ := PriorityBook.lookup_mem hl
        exact absurd hid (hnew _ _ hx)
  have hsweep : ∀ stp, PriorityBook.sweep R S o.id owner ix stp (A (opposite S)) o.qty =
      ⟨A (opposite S), o.qty, false, []⟩ := by
    intro stp
    cases hA : A (opposite S) with
    | nil => rfl
    | cons x xs =>
        rw [PriorityBook.sweep, if_pos]
        exact .inr (by rw [hfar x (by rw [hA]; exact List.mem_cons_self)]; exact Bool.false_ne_true)
  have hjoin : join S ⟨ix, o.id, o.qty, owner⟩ (A S) = A S ++ [⟨ix, o.id, o.qty, owner⟩] := by
    have := PriorityBook.join_past S ⟨ix, o.id, o.qty, owner⟩ hbehind []
    rwa [List.append_nil] at this
  have henter : ∀ stp, PriorityBook.enter R A S o.id owner ix o.qty stp px true =
      (Function.update A S (A S ++ [⟨ix, o.id, o.qty, owner⟩]), []) := by
    intro stp
    simp only [PriorityBook.enter, hsweep, if_neg hqty, Function.update_eq_self, Bool.false_eq_true,
      if_false, not_true_eq_false]
    rw [PriorityBook.rest, if_neg (not_le.mpr hroom), Int.toNat_natCast, hjoin]
    rfl
  simp only [PriorityBook.add]
  rw [show (addCommand S px o owner).side = S from rfl,
    show (addCommand S px o owner).orderId = o.id from rfl,
    show (addCommand S px o owner).qty = o.qty from rfl, if_neg hid, if_neg hqty, hlimit]
  simp only [hlook, Option.isSome_none, Bool.false_eq_true, if_false]
  rw [if_neg (by simp [addCommand]), if_neg (by simp [addCommand])]
  simp only [addCommand, and_self, decide_true, Command.eventPrice, henter]

end Abstract

/-! ### The cancel sweep -/

variable {R : Rules}

theorem cancelOne_spec {st : State σ} {A : PriorityBook} (h : OrderBook.Refines R st.engine A)
    (id : OrderId) :
    ∃ st' B, cancelOne st id = some st' ∧ OrderBook.Refines R st'.engine B ∧
    st'.accounts = st.accounts ∧
      (∀ U, ∀ e ∈ B U, e ∈ A U ∧ e.id ≠ id) ∧ ∃ evs, st'.sink.events = st.sink.events ++ evs ∧
      ∀ ev ∈ evs, ev.type ≠ .trade := by
  obtain ⟨b', sink', hrun, href, hsends⟩ := h.cancel (cancelCommand id) st.sink
  refine ⟨⟨b', st.accounts, sink'⟩, _, by rw [cancelOne, hrun]; rfl, href, rfl, fun U e he =>
    cancel_mem h.ok.ids he, _, hsends.events, cancel_no_trade _⟩

theorem cancels_spec {st : State σ} {A : PriorityBook} (h : OrderBook.Refines R st.engine A)
    (ids : List OrderId) (all : ∀ U, ∀ e ∈ A U, e.id ∈ ids) :
    ∃ st', ids.foldlM cancelOne st = some st' ∧ OrderBook.Refines R st'.engine PriorityBook.empty ∧
      st'.accounts = st.accounts ∧ ∃ evs, st'.sink.events = st.sink.events ++ evs ∧ ∀ ev ∈ evs,
      ev.type ≠ .trade := by
  induction ids generalizing st A with
  | nil =>
      have hempty : A = PriorityBook.empty := by
        funext U
        rw [PriorityBook.empty, List.eq_nil_iff_forall_not_mem]
        exact fun e he => List.not_mem_nil (all U e he)
      exact ⟨st, rfl, hempty ▸ h, rfl, [], (List.append_nil _).symm, List.forall_mem_nil _⟩
  | cons id ids ih =>
      obtain ⟨st₁, B, hone, href, hacc, hmem, evs, hevs, hquiet⟩ := cancelOne_spec h id
      have hall : ∀ U, ∀ e ∈ B U, e.id ∈ ids := by
        intro U e he
        obtain ⟨hold, hne⟩ := hmem U e he
        exact (List.mem_cons.mp (all U e hold)).resolve_left hne
      obtain ⟨st', hrest, href', hacc', evs', hevs', hquiet'⟩ := ih href hall
      refine ⟨st', ?_, href', hacc'.trans hacc, evs ++ evs', ?_, ?_⟩
      · rw [List.foldlM_cons, hone]
        exact hrest
      · rw [hevs', hevs, List.append_assoc]
      · rw [List.forall_mem_append]
        exact ⟨hquiet, hquiet'⟩

/-! ### The re-insertion -/

/-- The level of a price in the band. -/
def levelOf (px : Price) : Nat := px.toInt.toNat

theorem inBand_iff {px : Price} : inBand px = true ↔ 0 ≤ px.toInt ∧ px.toInt < 2 ^ 24 := by
  have hb : (Int64.ofNat kLevels).toInt = 2 ^ 24 := by decide
  rw [inBand, decide_eq_true_eq, Int64.le_iff_toInt_le, Int64.lt_iff_toInt_lt, hb]
  rfl

variable {stp : Bool} {symbol : SymbolId}

theorem relOf_inBand {px : Price} (h : inBand px = true) :
    (⟨symbol, engineConfig stp⟩ : Rules).relOf px = some (levelOf px) := by
  obtain ⟨hlow, hhigh⟩ := inBand_iff.mp h
  have hrel : (px - (engineConfig stp).minPrice).toInt = px.toInt := by
    rw [show (engineConfig stp).minPrice = 0 from rfl, Int64.sub_zero]
  have hn : ((engineConfig stp).numLevels : Int) = 2 ^ 24 := by
    rw [show (engineConfig stp).numLevels = kLevels from rfl]
    decide
  simp only [Rules.relOf, hrel, hn]
  rw [if_neg (by omega)]
  rfl

/-- What a side of the book shows of each order. -/
def view (l : List Resting) : List (Nat × OrderId × Qty) := l.map fun e => (e.level, e.id, e.qty)

/-- The same of orders of the truth book. -/
def truthView (l : List (Price × Order)) : List (Nat × OrderId × Qty) :=
  l.map fun e => (levelOf e.1, e.2.id, e.2.qty)

structure Fits (S : Side) (A : PriorityBook) (more : List (Price × Order)) : Prop where
  valid : ∀ e ∈ more, e.2.qty ≠ 0 ∧ inBand e.1 = true ∧ e.2.id ≠ 0
  fresh : ∀ e ∈ more, ∀ U, ∀ x ∈ A U, x.id ≠ e.2.id
  distinct : (more.map fun e => e.2.id).Nodup
  far : ∀ e ∈ more, ∀ x ∈ A (opposite S), inRange S (levelOf e.1) x.level = false
  behind : ∀ e ∈ more, ∀ x ∈ A S, ahead S x.level (levelOf e.1) = true
  ordered : more.Pairwise fun a b => ahead S (levelOf a.1) (levelOf b.1) = true
  room : count A + more.length ≤ kMaxOrders

theorem count_update_append (A : PriorityBook) (S : Side) (e : Resting) :
    count (Function.update A S (A S ++ [e])) = count A + 1 := by
  cases S with
  | buy =>
      simp [count]
      omega
  | sell =>
      simp [count]
      omega

theorem Fits.tail {S : Side} {A : PriorityBook} {e : Price × Order} {more : List (Price × Order)}
    (h : Fits S A (e :: more)) (owner : OwnerId) :
    Fits S (Function.update A S (A S ++ [⟨levelOf e.1, e.2.id, e.2.qty, owner⟩])) more := by
  have hmem : ∀ U, ∀ x ∈ Function.update A S (A S ++ [⟨levelOf e.1, e.2.id, e.2.qty, owner⟩]) U,
      x ∈ A U ∨ (U = S ∧ x = ⟨levelOf e.1, e.2.id, e.2.qty, owner⟩) := by
    intro U x hx
    by_cases hU : U = S
    · subst hU
      rw [Function.update_self] at hx
      rcases List.mem_append.mp hx with hx | hx
      · exact .inl hx
      · exact .inr ⟨rfl, List.mem_singleton.mp hx⟩
    · rw [Function.update_of_ne hU] at hx
      exact .inl hx
  obtain ⟨hnodup, hdistinct⟩ := List.nodup_cons.mp h.distinct
  obtain ⟨hfirst, hordered⟩ := List.pairwise_cons.mp h.ordered
  have hlater : ∀ d ∈ more, d ∈ e :: more := fun d hd => List.mem_cons_of_mem e hd
  refine ⟨fun d hd => h.valid d (hlater d hd), fun d hd U x hx => ?_, hdistinct, fun d hd x hx =>
    ?_, fun d hd x hx => ?_, hordered, ?_⟩
  · rcases hmem U x hx with hx | ⟨_, rfl⟩
    · exact h.fresh d (hlater d hd) U x hx
    · intro heq
      exact hnodup (List.mem_map.mpr ⟨d, hd, heq.symm⟩)
  · rcases hmem _ x hx with hx | ⟨hS, _⟩
    · exact h.far d (hlater d hd) x hx
    · exact absurd hS.symm (ne_opposite S)
  · rcases hmem _ x hx with hx | ⟨_, rfl⟩
    · exact h.behind d (hlater d hd) x hx
    · exact hfirst d hd
  · have := h.room
    rw [List.length_cons] at this
    rw [count_update_append]
    omega

theorem readd_skip {s : Side} {st : State σ} {e : Price × Order}
    (h : e.2.qty = 0 ∨ ¬ inBand e.1 = true) :
    readd s st e = some st := by
  simp only [readd, if_pos h]
  rfl

theorem readd_spec {S : Side} {st : State σ} {A : PriorityBook} {e : Price × Order}
    {more : List (Price × Order)} (h : OrderBook.Refines ⟨symbol, engineConfig stp⟩ st.engine A)
    {root : OrderId → OrderId} (htree : st.accounts.Tree root) (hfits : Fits S A (e :: more)) :
    ∃ st' owner, readd S st e = some st' ∧
      OrderBook.Refines ⟨symbol, engineConfig stp⟩ st'.engine
        (Function.update A S (A S ++ [⟨levelOf e.1, e.2.id, e.2.qty, owner⟩])) ∧
      st'.accounts.Tree root ∧ ∃ evs, st'.sink.events = st.sink.events ++ evs ∧ ∀ ev ∈ evs,
      ev.type ≠ .trade := by
  obtain ⟨hqty, hband, hid⟩ := hfits.valid e List.mem_cons_self
  have hdepth : e.2.id.toNat < Accounts.kDepth := e.2.id.toNat_lt
  obtain ⟨accounts, hfind, htree', _⟩ := htree.find hdepth
  obtain ⟨owner, howner⟩ : ∃ owner, st.accounts.owner Accounts.kDepth e.2.id = some
      (owner, accounts) := by
    rw [Accounts.owner, hfind]
    exact ⟨_, rfl⟩
  obtain ⟨b', sink', hrun, href, hsends⟩ := h.add (addCommand S e.1 e.2 owner) st.sink
  have hroom : count A < (engineConfig stp).maxOrders := by
    have := hfits.room
    rw [List.length_cons] at this
    exact lt_of_lt_of_le (Nat.lt_add_of_pos_right (Nat.succ_pos _)) this
  rw [add_behind _ hid hqty (relOf_inBand hband) (hfits.fresh e List.mem_cons_self)
    (hfits.far e List.mem_cons_self)
    (hfits.behind e List.mem_cons_self) hroom] at href hsends
  refine ⟨⟨b', accounts, sink'⟩, owner, ?_, href, htree', _, hsends.events, ?_⟩
  · simp only [readd, if_neg (not_or.mpr ⟨hqty, not_not.mpr hband⟩), howner, Option.bind_eq_bind,
      Option.bind_some, hrun]
    rfl
  · intro ev hev
    rw [List.mem_singleton.mp hev]
    rintro ⟨⟩

theorem readds_spec {S : Side} (more : List (Price × Order)) {st : State σ} {A : PriorityBook}
    (h : OrderBook.Refines ⟨symbol, engineConfig stp⟩ st.engine A) {root : OrderId → OrderId}
    (htree : st.accounts.Tree root) (hfits : Fits S A more) :
    ∃ st' B, more.foldlM (readd S) st = some st' ∧
    OrderBook.Refines ⟨symbol, engineConfig stp⟩ st'.engine B ∧
      st'.accounts.Tree root ∧ view (B S) = view (A S) ++ truthView more ∧
      B (opposite S) = A (opposite S) ∧
      ∃ evs, st'.sink.events = st.sink.events ++ evs ∧ ∀ ev ∈ evs, ev.type ≠ .trade := by
  induction more generalizing st A with
  | nil => exact ⟨st, A, rfl, h, htree, (List.append_nil _).symm, rfl, [], (List.append_nil _).symm,
      List.forall_mem_nil _⟩
  | cons e more ih =>
      obtain ⟨st₁, owner, hone, href, htree₁, evs, hevs, hquiet⟩ := readd_spec h htree hfits
      obtain ⟨st', B, hrest, href', htree', hview, hopp, evs', hevs', hquiet'⟩ :=
        ih href htree₁ (hfits.tail owner)
      rw [Function.update_of_ne (ne_opposite S).symm] at hopp
      rw [Function.update_self] at hview
      refine ⟨st', B, ?_, href', htree', ?_, hopp, evs ++ evs', ?_, ?_⟩
      · rw [List.foldlM_cons, hone]
        exact hrest
      · rw [hview, view, List.map_append, List.append_assoc]
        rfl
      · rw [hevs', hevs, List.append_assoc]
      · rw [List.forall_mem_append]
        exact ⟨hquiet, hquiet'⟩

theorem foldlM_readd (s : Side) (l : List (Price × Order)) (st : State σ) :
    l.foldlM (readd s) st = (l.filter fun e => e.2.qty ≠ 0 ∧ inBand e.1).foldlM (readd s) st := by
  induction l generalizing st with
  | nil => rfl
  | cons e l ih =>
      by_cases hkeep : e.2.qty ≠ 0 ∧ inBand e.1 = true
      · rw [List.filter_cons_of_pos (by simpa using hkeep), List.foldlM_cons, List.foldlM_cons]
        cases readd s st e with
        | none => rfl
        | some st' => exact ih st'
      · have hskip : e.2.qty = 0 ∨ ¬ inBand e.1 = true := by
          by_cases hq : e.2.qty = 0
          · exact .inl hq
          · exact .inr fun hb => hkeep ⟨hq, hb⟩
        rw [List.filter_cons_of_neg (by simpa using hkeep), List.foldlM_cons, readd_skip hskip]
        exact ih st

theorem forEach_ordered (truth : TruthBook) (S : Side) :
    (truth.forEach S).Pairwise fun a b => ahead S (levelOf a.1) (levelOf b.1) = true := by
  have hmono : ∀ {p q : Price}, p ≤ q → levelOf p ≤ levelOf q := by
    intro p q hpq
    exact Int.toNat_le_toNat (Int64.le_iff_toInt_le.mp hpq)
  rw [TruthBook.forEach, List.pairwise_flatMap]
  constructor
  · intro e _
    rw [List.pairwise_map]
    refine List.pairwise_of_forall fun a b => ?_
    cases S with
    | buy => simp [ahead]
    | sell => simp [ahead]
  · have hpair : ∀ p q : Price × Queue, ahead S (levelOf p.1) (levelOf q.1) = true →
        ∀ x ∈ p.2.map (fun o => (p.1, o)), ∀ y ∈ q.2.map (fun o => (q.1, o)),
          ahead S (levelOf x.1) (levelOf y.1) = true := by
      intro p q hpq x hx y hy
      obtain ⟨_, _, rfl⟩ := List.mem_map.mp hx
      obtain ⟨_, _, rfl⟩ := List.mem_map.mp hy
      exact hpq
    cases S with
    | buy =>
        rw [TruthBook.levels, List.pairwise_reverse]
        refine (truth.queues .buy).sorted.imp fun {p q} hlt => hpair q p ?_
        simpa [ahead] using hmono (Std.le_of_lt hlt)
    | sell =>
        rw [TruthBook.levels]
        refine (truth.queues .sell).sorted.imp fun {p q} hlt => hpair p q ?_
        simpa [ahead] using hmono (Std.le_of_lt hlt)

theorem mem_of_view {A : PriorityBook} {S : Side} {l : List (Price × Order)}
    (h : view (A S) = truthView l) {x : Resting} (hx : x ∈ A S) :
    ∃ e ∈ l, x.level = levelOf e.1 ∧ x.id = e.2.id := by
  have hmem : (x.level, x.id, x.qty) ∈ truthView l := by
    rw [← h]
    exact List.mem_map.mpr ⟨x, hx, rfl⟩
  obtain ⟨e, he, heq⟩ := List.mem_map.mp hmem
  simp only [Prod.mk.injEq] at heq
  exact ⟨e, he, heq.1.symm, heq.2.1.symm⟩

theorem listing_of_view {A : PriorityBook} {S : Side} {truth : TruthBook}
    (h : view (A S) = truthView (replayable truth S)) :
    ((A S).map fun e => ((⟨symbol, engineConfig stp⟩ : Rules).priceOf e.level, e.id, e.qty)) =
      (replayable truth S).map fun e => (e.1, e.2.id, e.2.qty) := by
  have hmap :=
    congrArg (List.map fun t : Nat × OrderId × Qty =>
      ((⟨symbol, engineConfig stp⟩ : Rules).priceOf t.1, t.2)) h
  rw [view, truthView, List.map_map, List.map_map] at hmap
  refine hmap.trans (List.map_congr_left fun e he => ?_)
  have hband := (of_decide_eq_true (List.mem_filter.mp he).2).2
  simp only [Function.comp_apply, Rules.priceOf_relOf (relOf_inBand hband)]

theorem length_of_view {A : PriorityBook} {S : Side} {l : List (Price × Order)}
    (h : view (A S) = truthView l) :
    (A S).length = l.length := by
  have := congrArg List.length h
  simpa [view, truthView] using this

structure Holdable (truth : TruthBook) : Prop where
  uncrossed : ∀ x ∈ truth.forEach .buy, ∀ y ∈ truth.forEach .sell, x.1 < y.1
  distinct : ((truth.forEach .buy ++ truth.forEach .sell).map fun e => e.2.id).Nodup
  named : ∀ s, ∀ e ∈ truth.forEach s, e.2.id ≠ 0
  room : (replayable truth .buy).length + (replayable truth .sell).length ≤ kMaxOrders

theorem Holdable.fits {truth : TruthBook} (h : Holdable truth) (S : Side) {A : PriorityBook}
    (fresh : ∀ e ∈ replayable truth S, ∀ U, ∀ x ∈ A U, x.id ≠ e.2.id) (own : A S = [])
    (far : ∀ e ∈ replayable truth S, ∀ x ∈ A (opposite S), inRange S (levelOf e.1) x.level = false)
    (room : count A + (replayable truth S).length ≤ kMaxOrders) :
    Fits S A (replayable truth S) := by
  have hsub : (replayable truth S).Sublist (truth.forEach S) := List.filter_sublist
  refine ⟨fun e he => ?_, fresh, ?_, far, ?_, (forEach_ordered truth S).sublist hsub, room⟩
  · obtain ⟨hmem, hkeep⟩ := List.mem_filter.mp he
    exact ⟨(of_decide_eq_true hkeep).1, (of_decide_eq_true hkeep).2, h.named S e hmem⟩
  · have hd := h.distinct
    rw [List.map_append, List.nodup_append] at hd
    cases S with
    | buy => exact hd.1.sublist (hsub.map _)
    | sell => exact hd.2.1.sublist (hsub.map _)
  · rw [own]
    exact fun e _ => List.forall_mem_nil _

theorem engineConfig_accepted (stp : Bool) : (engineConfig stp).Accepted := by
  cases stp with
  | false => decide
  | true => decide

theorem Holdable.readd {truth : TruthBook} (h : Holdable truth) {st : State σ}
    (href : OrderBook.Refines ⟨symbol, engineConfig stp⟩ st.engine PriorityBook.empty)
    {root : OrderId → OrderId} (htree : st.accounts.Tree root) :
    ∃ st₁ st₂ B, (truth.forEach .buy).foldlM (Replay.readd .buy) st = some st₁ ∧
      (truth.forEach .sell).foldlM (Replay.readd .sell) st₁ = some st₂ ∧
      OrderBook.Refines ⟨symbol, engineConfig stp⟩ st₂.engine B ∧
      (∀ S, view (B S) = truthView (replayable truth S)) ∧
      ∃ evs, st₂.sink.events = st.sink.events ++ evs ∧ ∀ ev ∈ evs, ev.type ≠ .trade := by
  have hroom := h.room
  have hnone : ∀ (P : Resting → Prop) U, ∀ x ∈ PriorityBook.empty U, P x :=
    fun P U x hx => absurd hx List.not_mem_nil
  have hbuys : Fits .buy PriorityBook.empty (replayable truth .buy) := by
    refine h.fits .buy (fun e _ => hnone _) rfl (fun e _ => hnone _ _) ?_
    rw [show count PriorityBook.empty = 0 from rfl]
    omega
  obtain ⟨st₁, A, hrun₁, href₁, htree₁, hview₁, hopp₁, evs₁, hevs₁, hquiet₁⟩ :=
    readds_spec _ href htree hbuys
  change view (A .buy) = truthView _ at hview₁
  change A .sell = [] at hopp₁
  -- a sell meets no bid, for the truth book is not crossed
  have hsells : Fits .sell A (replayable truth .sell) := by
    refine h.fits .sell ?_ hopp₁ ?_ ?_
    · intro e he U x hx heq
      cases U with
      | buy =>
          obtain ⟨d, hd, _, hid⟩ := mem_of_view hview₁ hx
          have hnodup := h.distinct
          rw [List.map_append, List.nodup_append] at hnodup
          exact hnodup.2.2 _ (List.mem_map_of_mem (List.mem_filter.mp hd).1) _
            (List.mem_map_of_mem (List.mem_filter.mp he).1)
            (hid.symm.trans heq)
      | sell =>
          rw [hopp₁] at hx
          cases hx
    · intro e he x hx
      obtain ⟨d, hd, hlev, _⟩ := mem_of_view hview₁ hx
      have hlt := h.uncrossed d (List.mem_filter.mp hd).1 e (List.mem_filter.mp he).1
      have hband := inBand_iff.mp (of_decide_eq_true (List.mem_filter.mp hd).2).2
      have hcmp := Int64.lt_iff_toInt_lt.mp hlt
      rw [inRange, hlev, decide_eq_false_iff_not, levelOf, levelOf]
      omega
    · rw [count, hopp₁, length_of_view hview₁]
      exact hroom
  obtain ⟨st₂, B, hrun₂, href₂, _, hview₂, hopp₂, evs₂, hevs₂, hquiet₂⟩ :=
    readds_spec _ href₁ htree₁ hsells
  rw [hopp₁] at hview₂
  refine ⟨st₁, st₂, B, (foldlM_readd _ _ _).trans hrun₁, (foldlM_readd _ _ _).trans hrun₂,
    href₂, fun S => ?_, evs₁ ++ evs₂, ?_, ?_⟩
  · cases S with
    | buy =>
        change B .buy = A .buy at hopp₂
        rw [hopp₂, hview₁]
    | sell => exact hview₂
  · rw [hevs₂, hevs₁, List.append_assoc]
  · rw [List.forall_mem_append]
    exact ⟨hquiet₁, hquiet₂⟩

/-- Whatever the engine held and whoever owns the orders, a rebuild trades nothing and ends with
equal books. -/
theorem rebuild_restores_agreement (σ : Type) [StoreLayout σ] (hash : IndexHash) (stp : Bool)
    (cs : List Command) (engine : OrderBook σ) (outs : List Sink)
    (reached : (OrderBook.make hash 0 (engineConfig stp)).run cs = some (engine, outs))
    (calls : List Accounts.Call) (accounts : Accounts)
    (inferred : Accounts.run Accounts.kDepth calls = some accounts) (truth : TruthBook)
    (holdable : Holdable truth) :
    ∃ st : State σ, rebuildFromTruth engine accounts truth = some st ∧
    (∀ ev ∈ st.sink.events, ev.type ≠ .trade) ∧
      booksEqual st.engine truth = some true := by
  obtain ⟨b, outs', hrun, href, _⟩ :=
    (OrderBook.refines_make (σ := σ) hash 0 (engineConfig_accepted stp)).run cs
  rw [reached] at hrun
  obtain ⟨rfl, _⟩ := Prod.mk.inj (Option.some.inj hrun)
  generalize (PriorityBook.run _ _ _ cs).1 = A at href
  obtain ⟨m, root, hm, htree, _⟩ := Accounts.run_tree le_rfl calls
  rw [inferred] at hm
  obtain rfl := Option.some.inj hm
  have hbids := href.forEachOrder .buy
  have hasks := href.forEachOrder .sell
  have href' :
    OrderBook.Refines _ ({ engine := engine, accounts := accounts } : State σ).engine A := href
  obtain ⟨st₀, hcancel, href₀, hacc, evs₀, hevs₀, hquiet₀⟩ := cancels_spec href'
    (((A .buy).map (fun e => ((⟨0, engineConfig stp⟩ : Rules).priceOf e.level, e.id, e.qty)) ++
      (A .sell).map (fun e => ((⟨0, engineConfig stp⟩ : Rules).priceOf e.level, e.id, e.qty))).map
        fun o => o.2.1) (by
    intro U e he
    rw [List.map_append, List.map_map, List.map_map, List.mem_append]
    cases U with
    | buy => exact .inl (List.mem_map.mpr ⟨e, he, rfl⟩)
    | sell => exact .inr (List.mem_map.mpr ⟨e, he, rfl⟩))
  have htree₀ : st₀.accounts.Tree root := by
    rw [hacc]
    exact htree
  obtain ⟨st₁, st₂, B, hrun₁, hrun₂, href₂, hview, evs, hevs, hquiet⟩ := holdable.readd href₀ htree₀
  refine ⟨st₂, ?_, ?_, ?_⟩
  · simp only [rebuildFromTruth, hbids, hasks, Option.bind_eq_bind, Option.bind_some,
      hcancel, hrun₁, hrun₂]
  · rw [hevs, hevs₀, List.forall_mem_append, List.forall_mem_append]
    exact ⟨⟨List.forall_mem_nil _, hquiet₀⟩, hquiet⟩
  · rw [booksEqual, href₂.forEachOrder .buy, href₂.forEachOrder .sell]
    simp only [Option.bind_eq_bind, Option.bind_some, listing_of_view (hview .buy),
      listing_of_view (hview .sell), decide_true, Bool.and_self]
    rfl

/-- A truth book with two bids at one price, an empty order and an ask. -/
def smallTruth : TruthBook :=
  (((({} : TruthBook).add 7 .buy 100 5 0).add 8 .buy 100 0 1).add 9 .buy 100 2 2).add 4 .sell 101 3
    3

theorem rebuild_restores_agreement_small :
    ∃ engine outs, (OrderBook.make scatterHash 0 (engineConfig true) : OrderBook AosStore).run
        [{ type := .newOrder, orderId := 9, side := .sell, price := 100, qty := 1 }] = some
          (engine, outs) ∧
      ∃ st : State AosStore, rebuildFromTruth engine {} smallTruth = some st ∧
      (∀ ev ∈ st.sink.events, ev.type ≠ .trade) ∧
        booksEqual st.engine smallTruth = some true := by
  obtain ⟨engine, outs, hrun, _⟩ :=
    (OrderBook.refines_make (σ := AosStore) scatterHash 0 (engineConfig_accepted true)).run
    [{ type := .newOrder, orderId := 9, side := .sell, price := 100, qty := 1 }]
  have holdable : Holdable smallTruth := by
    have hbuy : smallTruth.forEach .buy =
      [(100, ⟨0, 7, 5, 0⟩), (100, ⟨1, 8, 0, 1⟩), (100, ⟨2, 9, 2, 2⟩)] := by decide +kernel
    have hsell : smallTruth.forEach .sell = [(101, ⟨3, 4, 3, 3⟩)] := by decide +kernel
    refine ⟨?_, ?_, ?_, ?_⟩
    · rw [hbuy, hsell]
      decide
    · rw [hbuy, hsell]
      decide
    · intro s
      cases s with
      | buy =>
          rw [hbuy]
          decide
      | sell =>
          rw [hsell]
          decide
    · rw [replayable, replayable, hbuy, hsell]
      decide
  exact ⟨engine, outs, hrun, rebuild_restores_agreement AosStore scatterHash true _ engine outs hrun
    [] {} rfl smallTruth holdable⟩

end Replay
end ExchangeSim.L3
