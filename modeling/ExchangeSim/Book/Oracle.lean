/- digest: The textbook book is simulated by the abstract book, so both books agree. -/

import ExchangeSim.Book.Audit
import ExchangeSim.Book.ReferenceBook

set_option autoImplicit false
set_option relaxedAutoImplicit false

namespace ExchangeSim.Book

open PriorityBook (Rules Outcome ahead lookup eraseId join)

structure PriorityBook.Rules.Fits (R : Rules) : Prop where
  pos : 0 < R.cfg.numLevels
  small : R.cfg.numLevels ≤ 2 ^ 30
  band : R.cfg.BandFits

namespace PriorityBook.Rules

variable {R : Rules}

def maxPrice (R : Rules) : Price := R.cfg.minPrice + Int64.ofNat R.cfg.numLevels - 1

/-- The level of a price inside the band. -/
def levelOf (R : Rules) (p : Price) : Nat := (p - R.cfg.minPrice).toInt.toNat

theorem Fits.maxPrice_toInt (h : R.Fits) :
    R.maxPrice.toInt = R.cfg.minPrice.toInt + R.cfg.numLevels - 1 := by
  have h1 := h.band
  have h2 := h.pos
  have h3 := h.small
  have h4 := R.cfg.minPrice.le_toInt
  have h5 := R.cfg.minPrice.toInt_lt
  rw [BookConfig.BandFits] at h1
  rw [maxPrice, Int64.toInt_sub, Int64.toInt_add, Int64.toInt_ofNat_of_lt (by omega)]
  rw [show Int64.toInt 1 = 1 from rfl]
  simp only [Int.bmod]
  omega

theorem Fits.relOf_eq (h : R.Fits) (p : Price) :
    R.relOf p = if p < R.cfg.minPrice ∨ R.maxPrice < p then none else some (R.levelOf p) := by
  have h1 := h.band
  have h2 := h.pos
  have h3 := h.small
  have h4 := R.cfg.minPrice.le_toInt
  have h5 := R.cfg.minPrice.toInt_lt
  have h6 := p.le_toInt
  have h7 := p.toInt_lt
  rw [BookConfig.BandFits] at h1
  have hsub : (p - R.cfg.minPrice).toInt = (p.toInt - R.cfg.minPrice.toInt).bmod (2 ^ 64) :=
    Int64.toInt_sub ..
  simp only [Int.bmod] at hsub
  simp only [relOf, levelOf, Int64.lt_iff_toInt_lt, h.maxPrice_toInt]
  congr 1
  rw [eq_iff_iff]
  omega

theorem Fits.levelOf_toInt (h : R.Fits) {p : Price} (hlo : R.cfg.minPrice ≤ p)
    (hhi : p ≤ R.maxPrice) :
    (R.levelOf p : Int) = p.toInt - R.cfg.minPrice.toInt := by
  have h1 := h.band
  have h4 := R.cfg.minPrice.le_toInt
  have h5 := R.cfg.minPrice.toInt_lt
  have h3 := h.small
  rw [BookConfig.BandFits] at h1
  rw [Int64.le_iff_toInt_le] at hlo hhi
  rw [h.maxPrice_toInt] at hhi
  have hsub : (p - R.cfg.minPrice).toInt = (p.toInt - R.cfg.minPrice.toInt).bmod (2 ^ 64) :=
    Int64.toInt_sub ..
  simp only [Int.bmod] at hsub
  rw [levelOf]
  omega

theorem Fits.priceOf_toInt (h : R.Fits) {i : Nat} (hi : i < R.cfg.numLevels) :
    (R.priceOf i).toInt = R.cfg.minPrice.toInt + i := by
  have h1 := h.band
  have h3 := h.small
  have h4 := R.cfg.minPrice.le_toInt
  have h5 := R.cfg.minPrice.toInt_lt
  rw [BookConfig.BandFits] at h1
  rw [priceOf, Int64.toInt_add, Int64.toInt_ofInt_of_le (by omega) (by omega)]
  simp only [Int.bmod]
  omega

theorem Fits.levelOf_lt (h : R.Fits) {p : Price} (hlo : R.cfg.minPrice ≤ p) (hhi : p ≤ R.maxPrice) :
    R.levelOf p < R.cfg.numLevels := by
  have := h.levelOf_toInt hlo hhi
  rw [Int64.le_iff_toInt_le, h.maxPrice_toInt] at hhi
  omega

theorem Fits.priceOf_levelOf (h : R.Fits) {p : Price} (hlo : R.cfg.minPrice ≤ p)
    (hhi : p ≤ R.maxPrice) :
    R.priceOf (R.levelOf p) = p := by
  rw [← Int64.toInt_inj, h.priceOf_toInt (h.levelOf_lt hlo hhi), h.levelOf_toInt hlo hhi]
  omega

theorem Fits.levelOf_inj (h : R.Fits) {p p' : Price} (hlo : R.cfg.minPrice ≤ p)
    (hhi : p ≤ R.maxPrice) (hlo' : R.cfg.minPrice ≤ p') (hhi' : p' ≤ R.maxPrice)
    (he : R.levelOf p = R.levelOf p') : p = p' := by
  rw [← h.priceOf_levelOf hlo hhi, he, h.priceOf_levelOf hlo' hhi']

theorem Fits.inRange_iff (h : R.Fits) (S : Side) {limit p : Price} (hlo : R.cfg.minPrice ≤ p)
    (hhi : p ≤ R.maxPrice) (hlo' : R.cfg.minPrice ≤ limit) (hhi' : limit ≤ R.maxPrice) :
    ReferenceBook.inRange S limit p = inRange S (R.levelOf limit) (R.levelOf p) := by
  have h1 := h.levelOf_toInt hlo hhi
  have h2 := h.levelOf_toInt hlo' hhi'
  cases S <;> simp only [ReferenceBook.inRange, inRange, Int64.le_iff_toInt_le, h1, h2] <;>
    rw [decide_eq_decide] <;> omega

theorem Fits.before_iff (h : R.Fits) (S : Side) {p p' : Price} (hlo : R.cfg.minPrice ≤ p)
    (hhi : p ≤ R.maxPrice) (hlo' : R.cfg.minPrice ≤ p') (hhi' : p' ≤ R.maxPrice) :
    ReferenceBook.before S p p' = true ↔ ahead S (R.levelOf p) (R.levelOf p') = true ∧ p ≠ p' := by
  have h1 := h.levelOf_toInt hlo hhi
  have h2 := h.levelOf_toInt hlo' hhi'
  rw [ne_eq, ← Int64.toInt_inj]
  cases S <;> simp only [ReferenceBook.before, ahead, Int64.lt_iff_toInt_lt, decide_eq_true_eq]
    <;> omega

end PriorityBook.Rules

namespace ReferenceBook

variable {R : Rules}

/-- The resting order that a node of the queue at price `px` stands for. -/
def resting (R : Rules) (px : Price) (o : RefOrder) : Resting :=
  ⟨R.levelOf px, o.id, o.qty, o.owner⟩

/-- The priority list that a side stands for. -/
def flatten (R : Rules) (l : RefSide) : List Resting :=
  l.flatMap fun (px, q) => q.map (resting R px)

theorem flatten_cons (px : Price) (q : RefQueue) (l : RefSide) :
    flatten R ((px, q) :: l) = q.map (resting R px) ++ flatten R l := rfl

structure SideOk (R : Rules) (S : Side) (l : RefSide) : Prop where
  sorted : l.Pairwise fun x y => before S x.1 y.1
  band : ∀ x ∈ l, R.cfg.minPrice ≤ x.1 ∧ x.1 ≤ R.maxPrice
  full : ∀ x ∈ l, x.2 ≠ []

theorem SideOk.tail {S : Side} {x : Price × RefQueue} {l : RefSide} (h : SideOk R S (x :: l)) :
    SideOk R S l :=
  ⟨(List.pairwise_cons.mp h.sorted).2, fun y hy => h.band y (by simp [hy]),
    fun y hy => h.full y (by simp [hy])⟩

theorem SideOk.cons {S : Side} {px : Price} {q : RefQueue} {l : RefSide}
    (h : SideOk R S ((px, q) :: l)) {q' : RefQueue} (hq : q' ≠ []) :
    SideOk R S ((px, q') :: l) := by
  obtain ⟨h1, h2⟩ := List.pairwise_cons.mp h.sorted
  refine ⟨List.pairwise_cons.mpr ⟨h1, h2⟩, ?_, ?_⟩
  · intro x hx
    rcases List.mem_cons.mp hx with rfl | hx
    · exact h.band (px, q) (by simp)
    · exact h.band x (by simp [hx])
  · intro x hx
    rcases List.mem_cons.mp hx with rfl | hx
    · exact hq
    · exact h.full x (by simp [hx])

theorem mem_flatten {e : Resting} {l : RefSide} :
    e ∈ flatten R l ↔ ∃ px q o, (px, q) ∈ l ∧ o ∈ q ∧ e = resting R px o := by
  simp only [flatten, List.mem_flatMap, List.mem_map, Prod.exists]
  constructor
  · rintro ⟨px, q, hl, o, ho, rfl⟩
    exact ⟨px, q, o, hl, ho, rfl⟩
  · rintro ⟨px, q, o, hl, ho, rfl⟩
    exact ⟨px, q, hl, o, ho, rfl⟩

structure Tracks (R : Rules) (b : ReferenceBook) (A : PriorityBook) : Prop where
  symbol : b.symbol = R.symbol
  minPrice : b.minPrice = R.cfg.minPrice
  maxPrice : b.maxPrice = R.maxPrice
  capacity : b.capacity = R.cfg.maxOrders
  stp : b.stp = R.cfg.stp
  flat : ∀ S, flatten R (b.sideOf S) = A S
  side : ∀ S, SideOk R S (b.sideOf S)
  index : ∀ id loc, b.index.lookup id = some loc ↔
    ∃ e ∈ A loc.side, e.id = id ∧ loc.price = R.priceOf e.level ∧ loc.it = id

theorem tracks_make (symbol : SymbolId) (cfg : BookConfig) :
    Tracks ⟨symbol, cfg⟩ (make symbol cfg) PriorityBook.empty := by
  refine ⟨rfl, rfl, rfl, rfl, rfl, fun S => ?_, fun S => ?_, fun id loc => ?_⟩
  · cases S <;> rfl
  · cases S <;> exact ⟨List.Pairwise.nil, by simp [sideOf, make], by simp [sideOf, make]⟩
  · simp [make, PriorityBook.empty]

theorem Tracks.forEachOrder {b : ReferenceBook} {A : PriorityBook} (h : Tracks R b A)
    (hfit : R.Fits) (S : Side) :
    b.forEachOrder S = (A S).map fun e => (R.priceOf e.level, e.id, e.qty) := by
  have hband := (h.side S).band
  rw [← h.flat S, ReferenceBook.forEachOrder, flatten]
  rw [List.map_flatMap]
  refine List.flatMap_congr fun x hx => ?_
  obtain ⟨px, q⟩ := x
  obtain ⟨hlo, hhi⟩ := hband _ hx
  simp only [List.map_map]
  refine List.map_congr_left fun o _ => ?_
  simp only [Function.comp_apply, resting, hfit.priceOf_levelOf hlo hhi]

/-- What a match leaves of a queue: its first order may have another quantity. -/
def Remains (r q : RefQueue) : Prop := q = r ∨ ∃ o os n, r = o :: os ∧ q = { o with qty := n } :: os

/-- The index after the orders of `p` have left the book. -/
def forget (index : AList fun _ : OrderId => Loc) (p : RefQueue) : AList fun _ : OrderId => Loc :=
  p.foldl (fun ix o => ix.erase o.id) index

section Match

variable (taker : OrderId) (owner : OwnerId) (S : Side) {limit px : Price} (stp : Stp)

structure QueueAgrees (sweep : List Resting → Qty → Outcome) (entry : RefOrder → Resting)
    (rest : List Resting) (q : RefQueue) (qty : Qty) (index : AList fun _ : OrderId => Loc)
    (m : QueueMatch) : Prop where
  dropped : ∃ p r, q = p ++ r ∧ m.index = forget index p ∧ Remains r m.queue
  stopped : m.stop = true → sweep
    (q.map entry ++ rest) qty = ⟨m.queue.map entry ++ rest, m.qty, true, m.events⟩
  passed : m.stop = false → sweep (q.map entry ++ rest) qty =
    (sweep (m.queue.map entry ++ rest) m.qty).behind m.events ∧ (m.queue = [] ∨ m.qty = 0)

theorem QueueAgrees.cons {sweep : List Resting → Qty → Outcome} {entry : RefOrder → Resting}
    {rest : List Resting} {o : RefOrder} {q : RefQueue} {qty qty' : Qty}
    {index : AList fun _ : OrderId => Loc} {m : QueueMatch} (evs : List Event)
    (h : QueueAgrees sweep entry rest q qty' (index.erase o.id) m)
    (hs : sweep ((o :: q).map entry ++ rest) qty = (sweep (q.map entry ++ rest) qty').behind evs) :
    QueueAgrees sweep entry rest (o :: q) qty index { m with events := evs ++ m.events } where
  dropped := by
    obtain ⟨p, r, hsplit, hindex, hrem⟩ := h.dropped
    exact ⟨o :: p, r, by rw [hsplit]; rfl, hindex, hrem⟩
  stopped hstop := by
    rw [hs, h.stopped hstop]
    rfl
  passed hstop := by
    obtain ⟨h1, h2⟩ := h.passed hstop
    rw [hs, h1, Outcome.behind_behind]
    exact ⟨rfl, h2⟩

theorem matchQueue_spec (hpx : R.priceOf (R.levelOf px) = px)
    (hlimit : R.priceOf (R.levelOf limit) = limit)
    (hin : PriorityBook.inRange S (R.levelOf limit) (R.levelOf px) = true)
    (rest : List Resting) (q : RefQueue) (qty : Qty) (index : AList fun _ : OrderId => Loc) :
    QueueAgrees (PriorityBook.sweep R S taker owner (R.levelOf limit) stp)
      (resting R px) rest q qty index
      (matchQueue R.symbol taker owner S limit px stp q qty index) := by
  induction q generalizing qty index with
  | nil =>
      refine ⟨⟨[], [], rfl, rfl, .inl rfl⟩, ?_, ?_⟩
      · intro h
        cases h
      · exact fun _ => ⟨rfl, .inl rfl⟩
  | cons o q ih =>
      by_cases hq : qty = 0
      · rw [matchQueue, if_pos hq]
        refine ⟨⟨[], o :: q, rfl, rfl, .inl rfl⟩, ?_, ?_⟩
        · intro h
          cases h
        · exact fun _ => ⟨rfl, .inr hq⟩
      have hstep := PriorityBook.sweep_cases R S taker owner (R.levelOf limit) stp (resting R px o)
        (q.map (resting R px) ++ rest) qty
      simp only [show (resting R px o).level = R.levelOf px from rfl, hpx, hlimit, hin,
        show (resting R px o).qty = o.qty from rfl, show (resting R px o).id = o.id from rfl,
        show (resting R px o).owner = o.owner from rfl] at hstep
      rcases hstep with ⟨_, hbad⟩ | ⟨_, _, hcase⟩
      · simp [hq] at hbad
      rcases hcase with ⟨ho, hstp, hown⟩ | ⟨ho, hstp, hown, hlt⟩ | ⟨ho, hstp, hown, heq⟩ |
        ⟨ho, hstp, hown, hlt⟩ |
        ⟨ho, hstp, hown⟩ | ⟨ho, hother, hlt⟩ | ⟨ho, hother, hle⟩
      · have hm : matchQueue R.symbol taker owner S limit px stp (o :: q) qty index =
            ⟨o :: q, qty, true, index, []⟩ := by
          simp [matchQueue, hq, hstp, hown]
        rw [hm]
        exact ⟨⟨[], o :: q, rfl, rfl, .inl rfl⟩, fun _ => ho, by simp⟩
      · have hm : matchQueue R.symbol taker owner S limit px stp (o :: q) qty index =
            ⟨{ o with qty := o.qty - qty } :: q, qty, true, index,
              [stpDecrementEvent R.symbol o.id (opposite S) px (o.qty - qty)]⟩ := by
          simp [matchQueue, hq, hstp, hown, hlt]
        rw [hm]
        exact ⟨⟨[], o :: q, rfl, rfl, .inr ⟨o, q, _, rfl, rfl⟩⟩, fun _ => ho, by simp⟩
      · have hm : matchQueue R.symbol taker owner S limit px stp (o :: q) qty index =
            ⟨q, qty, true, index.erase o.id,
              [canceledEvent R.symbol o.id (opposite S) px o.qty .selfTrade]⟩ := by
          simp [matchQueue, hq, hstp, hown, heq]
        rw [hm]
        exact ⟨⟨[o], q, rfl, rfl, .inl rfl⟩, fun _ => ho, by simp⟩
      · have hne : o.qty ≠ qty := by grind
        have hnot : ¬ qty < o.qty := by grind
        rw [matchQueue, if_neg hq, if_pos ⟨by simp [hstp], hown⟩, if_neg (by simp [hstp]),
          if_neg (fun hc => hnot hc.2)]
        simp only [if_pos hstp, if_neg hne]
        exact (ih (qty - o.qty) (index.erase o.id)).cons _ ho
      · rw [matchQueue, if_neg hq, if_pos ⟨by simp [hstp], hown⟩, if_neg (by simp [hstp]),
          if_neg (by simp [hstp])]
        simp only [if_neg (show ¬ stp = .decrementCancel by simp [hstp])]
        exact (ih qty (index.erase o.id)).cons _ ho
      · have hmin : min o.qty qty = qty := by
          rw [UInt64.min_def]
          grind
        have hself : ¬ (stp ≠ .none ∧ o.owner = owner) := by
          rintro ⟨h1, h2⟩
          exact hother.elim h1 fun h => h h2
        have hz : qty - qty = 0 := by grind
        rw [matchQueue, if_neg hq, if_neg hself]
        simp only [hmin, if_neg (show ¬ o.qty - qty = 0 by grind), hz]
        refine ⟨⟨[], o :: q, rfl, rfl, .inr ⟨o, q, _, rfl, rfl⟩⟩, by simp, fun _ => ⟨?_, .inr rfl⟩⟩
        rw [PriorityBook.sweep_zero]
        exact ho
      · have hmin : min o.qty qty = o.qty := by
          rw [UInt64.min_def]
          grind
        have hself : ¬ (stp ≠ .none ∧ o.owner = owner) := by
          rintro ⟨h1, h2⟩
          exact hother.elim h1 fun h => h h2
        have hz : o.qty - o.qty = 0 := by grind
        rw [matchQueue, if_neg hq, if_neg hself]
        simp only [hmin, hz, if_true]
        exact (ih (qty - o.qty) (index.erase o.id)).cons _ ho

/-- What identifies a resting order while its quantity changes. -/
def key (e : Resting) : OrderId × Nat := (e.id, e.level)

theorem Remains.key_eq {r q : RefQueue} (h : Remains r q) (px : Price) :
    (q.map (resting R px)).map key = (r.map (resting R px)).map key := by
  rcases h with rfl | ⟨o, os, n, rfl, rfl⟩ <;> rfl

theorem forget_append (index : AList fun _ : OrderId => Loc) (p q : RefQueue) :
    forget index (p ++ q) = forget (forget index p) q := List.foldl_append ..

theorem matchSide_spec (hfit : R.Fits) (hlo : R.cfg.minPrice ≤ limit)
    (hhi : limit ≤ R.maxPrice) {T : Side} (l : RefSide) (hl : SideOk R T l) (qty : Qty)
    (index : AList fun _ : OrderId => Loc) :
    let m := matchSide R.symbol taker owner S limit stp l qty index
    PriorityBook.sweep R S taker owner (R.levelOf limit) stp (flatten R l) qty =
      ⟨flatten R m.levels, m.qty, m.stop, m.events⟩ ∧ SideOk R T m.levels ∧
      ∃ D P r, m.index = forget index D ∧ flatten R l = P ++ r ∧ P.map (·.id) = D.map (·.id) ∧
        (flatten R m.levels).map key = r.map key := by
  induction l generalizing qty index with
  | nil => exact ⟨rfl, hl, [], [], [], rfl, rfl, rfl, rfl⟩
  | cons x rest ih =>
      obtain ⟨px, q⟩ := x
      obtain ⟨hxlo, hxhi⟩ := hl.band (px, q) (by simp)
      have hpx := hfit.priceOf_levelOf hxlo hxhi
      have hq : q ≠ [] := hl.full (px, q) (by simp)
      have hrange := hfit.inRange_iff S hxlo hxhi hlo hhi
      rw [matchSide]
      by_cases hgo : qty = 0 ∨ ¬ inRange S limit px = true
      · rw [if_pos hgo]
        refine ⟨?_, hl, [], [], flatten R ((px, q) :: rest), rfl, rfl, rfl, rfl⟩
        obtain ⟨o, os, rfl⟩ := List.exists_cons_of_ne_nil hq
        rw [hrange] at hgo
        rw [flatten_cons, List.map_cons, List.cons_append, PriorityBook.sweep,
          if_pos (show qty = 0 ∨ ¬ PriorityBook.inRange S (R.levelOf limit)
            (resting R px o).level = true from hgo)]
      rw [if_neg hgo]
      rw [not_or, not_not, hrange] at hgo
      have hspec := matchQueue_spec taker owner S stp hpx (hfit.priceOf_levelOf hlo hhi) hgo.2
        (flatten R rest) q qty
        index
      generalize matchQueue R.symbol taker owner S limit px stp q qty index = r at hspec ⊢
      obtain ⟨p, r', hsplit, hindex, hrem⟩ := hspec.dropped
      have hkey : (flatten R ((px, r.queue) :: rest)).map key =
          (r'.map (resting R px) ++ flatten R rest).map key := by
        rw [flatten_cons, List.map_append, List.map_append, hrem.key_eq]
      have hhead : flatten R ((px, q) :: rest) =
          p.map (resting R px) ++ (r'.map (resting R px) ++ flatten R rest) := by
        rw [flatten_cons, hsplit, List.map_append, List.append_assoc]
      have hids : (p.map (resting R px)).map (·.id) = p.map (·.id) := by
        rw [List.map_map]
        rfl
      have hempty : r.queue = [] → r' = [] := by
        intro h0
        rcases hrem with he | ⟨o, os, n, rfl, he⟩
        · rw [← he, h0]
        · rw [h0] at he
          cases he
      by_cases hstop : r.stop = true
      · simp only [if_pos hstop]
        have hs := hspec.stopped hstop
        rw [← flatten_cons] at hs
        by_cases h0 : r.queue = []
        · rw [if_pos h0]
          rw [h0] at hs
          refine ⟨hs, hl.tail, p, _, _, hindex, hhead, hids, ?_⟩
          rw [hempty h0]
          rfl
        · rw [if_neg h0]
          exact ⟨hs, hl.cons h0, p, _, _, hindex, hhead, hids, hkey⟩
      · have hpass := hspec.passed (by simpa using hstop)
        rw [← flatten_cons] at hpass
        simp only [if_neg hstop]
        by_cases h0 : r.queue = []
        · simp only [if_pos h0]
          obtain ⟨hs, hok, D, P, rr, hix, hsp, hpd, hk⟩ := ih hl.tail r.qty r.index
          rw [h0, List.map_nil, List.nil_append] at hpass
          refine ⟨?_, hok, p ++ D, p.map (resting R px) ++ P, rr, ?_, ?_, ?_, hk⟩
          · rw [hpass.1, hs]
            rfl
          · rw [hix, hindex, forget_append]
          · rw [hhead, hempty h0, hsp, List.append_assoc]
            rfl
          · rw [List.map_append, List.map_append, hids, hpd]
        · rw [if_neg h0]
          have hz := hpass.2.resolve_left h0
          refine ⟨?_, hl.cons h0, p, _, _, hindex, hhead, hids, hkey⟩
          rw [hpass.1, hz, PriorityBook.sweep_zero, flatten_cons]
          simp [Outcome.behind]

end Match

section Commands

variable {b : ReferenceBook} {A : PriorityBook}

theorem lookup_forget (index : AList fun _ : OrderId => Loc) (D : RefQueue) (id : OrderId) :
    (forget index D).lookup id = if id ∈ D.map (·.id) then none else index.lookup id := by
  induction D generalizing index with
  | nil => rfl
  | cons o D ih =>
      rw [forget, List.foldl_cons]
      change (forget (index.erase o.id) D).lookup id = _
      rw [ih]
      by_cases hid : id = o.id
      · subst hid
        simp
      · rw [AList.lookup_erase_ne hid]
        simp [hid]

theorem Tracks.size_eq (h : Tracks R b A) (hd : PriorityBook.Distinct A) :
    b.size = PriorityBook.count A := by
  have hperm : b.index.keys.Perm ((A .buy ++ A .sell).map (·.id)) := by
    refine (List.perm_ext_iff_of_nodup b.index.nodupKeys hd).mpr fun id => ?_
    change id ∈ b.index.keys ↔ _
    rw [← AList.mem_keys, ← AList.lookup_isSome, Option.isSome_iff_exists]
    simp only [h.index, List.mem_map, List.mem_append]
    constructor
    · rintro ⟨loc, e, he, hid, _⟩
      refine ⟨e, ?_, hid⟩
      cases hs : loc.side <;> rw [hs] at he
      · exact .inl he
      · exact .inr he
    · rintro ⟨e, he | he, hid⟩
      · exact ⟨⟨.buy, _, id⟩, e, he, hid, rfl, rfl⟩
      · exact ⟨⟨.sell, _, id⟩, e, he, hid, rfl, rfl⟩
  have := hperm.length_eq
  rw [List.length_map, List.length_append] at this
  rw [PriorityBook.count, ← this, size, AList.keys, List.keys, List.length_map]

theorem Tracks.crosses_eq (h : Tracks R b A) (hfit : R.Fits) (S : Side) {limit : Price}
    (hlo : R.cfg.minPrice ≤ limit) (hhi : limit ≤ R.maxPrice) :
    b.crosses S limit = PriorityBook.crosses A S (R.levelOf limit) := by
  have hside := h.side (opposite S)
  rw [crosses, PriorityBook.crosses, ← h.flat]
  cases hl : b.sideOf (opposite S) with
  | nil => rfl
  | cons x rest =>
      obtain ⟨px, q⟩ := x
      rw [hl] at hside
      obtain ⟨hxlo, hxhi⟩ := hside.band (px, q) (by simp)
      obtain ⟨o, os, rfl⟩ := List.exists_cons_of_ne_nil (hside.full (px, q) (by simp))
      exact hfit.inRange_iff S hxlo hxhi hlo hhi

theorem fillableQueue_eq (owner : OwnerId) (stp : Stp) (px : Price) (q : RefQueue) (need : Qty) :
    fillableQueue owner stp q need = PriorityBook.fillableQueue owner stp
      (q.map (resting R px)) need := by
  induction q generalizing need with
  | nil => rfl
  | cons o q ih => simp only [fillableQueue, List.map_cons, PriorityBook.fillableQueue, resting, ih]

theorem fillable_eq (hfit : R.Fits) (S : Side) {limit : Price} (hlo : R.cfg.minPrice ≤ limit)
    (hhi : limit ≤ R.maxPrice) (owner : OwnerId) (stp : Stp) {T : Side} (l : RefSide)
    (hl : SideOk R T l) (need : Qty) :
    fillable S limit owner stp l need =
      PriorityBook.fillableSeq S (R.levelOf limit) owner stp (flatten R l) need := by
  induction l generalizing need with
  | nil => rfl
  | cons x rest ih =>
      obtain ⟨px, q⟩ := x
      obtain ⟨hxlo, hxhi⟩ := hl.band (px, q) (by simp)
      have hrange := hfit.inRange_iff S hxlo hxhi hlo hhi
      rw [fillable, flatten_cons]
      by_cases hin : inRange S limit px = true
      · rw [if_neg (by simp [hin]), fillableQueue_eq (R := R) owner stp px,
          PriorityBook.fillableSeq_append]
        · cases PriorityBook.fillableQueue owner stp (q.map (resting R px)) need with
          | inl v => rfl
          | inr need => exact ih hl.tail need
        · intro e he
          obtain ⟨o, _, rfl⟩ := List.mem_map.mp he
          exact hrange.symm.trans hin
      · rw [if_pos hin]
        obtain ⟨o, os, rfl⟩ := List.exists_cons_of_ne_nil (hl.full (px, q) (by simp))
        rw [hrange] at hin
        rw [List.map_cons, List.cons_append, PriorityBook.fillableSeq, if_pos (by exact hin)]

theorem Tracks.update (h : Tracks R b A) {S : Side} {l : RefSide} {l' : List Resting}
    (index : AList fun _ : OrderId => Loc) (hflat : flatten R l = l') (hok : SideOk R S l)
    (hindex : ∀ id loc, index.lookup id = some loc ↔
      ∃ e ∈ Function.update A S l' loc.side, e.id = id ∧
      loc.price = R.priceOf e.level ∧ loc.it = id) :
    Tracks R { b.setSide S l with index := index } (Function.update A S l') := by
  have hside : ∀ T, ({ b.setSide S l with index := index } : ReferenceBook).sideOf T =
      if T = S then l else b.sideOf T := sideOf_setSide S l
  refine ⟨?_, ?_, ?_, ?_, ?_, fun T => ?_, fun T => ?_, hindex⟩
  · rw [← h.symbol]
    cases S <;> rfl
  · rw [← h.minPrice]
    cases S <;> rfl
  · rw [← h.maxPrice]
    cases S <;> rfl
  · rw [← h.capacity]
    cases S <;> rfl
  · rw [← h.stp]
    cases S <;> rfl
  · rw [hside]
    by_cases hT : T = S
    · subst hT
      rw [if_pos rfl, Function.update_self, hflat]
    · rw [if_neg hT, Function.update_of_ne hT, h.flat]
  · rw [hside]
    by_cases hT : T = S
    · subst hT
      rw [if_pos rfl]
      exact hok
    · rw [if_neg hT]
      exact h.side T

theorem Tracks.matched (h : Tracks R b A) (hd : PriorityBook.Distinct A) (hfit : R.Fits)
    (taker : OrderId) (owner : OwnerId) (S : Side) {limit : Price} (hlo : R.cfg.minPrice ≤ limit)
    (hhi : limit ≤ R.maxPrice) (qty : Qty) (stp : Stp) :
    let m := b.matchOrder taker owner S limit qty stp
    let o := PriorityBook.sweep R S taker owner (R.levelOf limit) stp (A (opposite S)) qty
    m.qty = o.qty ∧ m.stop = o.stop ∧ m.events = o.events ∧
      Tracks R { b.setSide (opposite S) m.levels with index := m.index }
        (Function.update A (opposite S) o.makers) := by
  intro m o
  obtain ⟨hs, hok, D, P, r, hindex, hsplit, hids, hkey⟩ :=
    matchSide_spec taker owner S stp hfit hlo hhi
    (b.sideOf (opposite S)) (h.side (opposite S)) qty b.index
  rw [h.flat, ← h.symbol] at hs
  rw [h.flat] at hsplit
  rw [← h.symbol] at hindex hok hkey
  have ho : o = ⟨flatten R m.levels, m.qty, m.stop, m.events⟩ := hs
  refine ⟨by rw [ho], by rw [ho], by rw [ho], ?_⟩
  rw [ho]
  refine h.update _ rfl hok fun id loc => ?_
  rw [show m.index = forget b.index D from hindex, lookup_forget, ← hids]
  have hnd := hd.nodup (opposite S)
  rw [hsplit, List.map_append, List.nodup_append] at hnd
  -- an order left by the match is one behind the dropped ones
  have hleft : ∀ id lv, (∃ e ∈ flatten R m.levels, e.id = id ∧ e.level = lv) ↔
      ∃ e ∈ r, e.id = id ∧ e.level = lv := by
    intro id lv
    have hmem := congrArg (fun l => (id, lv) ∈ l) hkey
    simp only [List.mem_map, key, Prod.mk.injEq] at hmem
    exact iff_of_eq hmem
  have hprice : ∀ l : List Resting,
    (∃ e ∈ l, e.id = id ∧ loc.price = R.priceOf e.level ∧ loc.it = id) ↔
      ∃ lv : Nat, (∃ e ∈ l, e.id = id ∧ e.level = lv) ∧ loc.price = R.priceOf lv ∧ loc.it = id := by
    intro l
    constructor
    · rintro ⟨e, he, h1, h2, h3⟩
      exact ⟨e.level, ⟨e, he, h1, rfl⟩, h2, h3⟩
    · rintro ⟨lv, ⟨e, he, h1, rfl⟩, h2, h3⟩
      exact ⟨e, he, h1, h2, h3⟩
  by_cases hT : loc.side = opposite S
  · rw [hT, Function.update_self, hprice,
      show (∃ lv : Nat, (∃ e ∈ flatten R m.levels, e.id = id ∧ e.level = lv) ∧
        loc.price = R.priceOf lv ∧ loc.it = id) ↔ ∃ lv : Nat, (∃ e ∈ r, e.id = id ∧ e.level = lv) ∧
        loc.price = R.priceOf lv ∧ loc.it = id by simp only [hleft], ← hprice]
    by_cases hin : id ∈ P.map (·.id)
    · rw [if_pos hin]
      simp only [reduceCtorEq, false_iff]
      rintro ⟨e, he, hid, _⟩
      exact hnd.2.2 id hin id (hid ▸ List.mem_map_of_mem he) rfl
    · rw [if_neg hin, h.index, hT, hsplit]
      constructor
      · rintro ⟨e, he, hid, hrest⟩
        rcases List.mem_append.mp he with he | he
        · exact absurd (hid ▸ List.mem_map_of_mem he) hin
        · exact ⟨e, he, hid, hrest⟩
      · rintro ⟨e, he, hrest⟩
        exact ⟨e, List.mem_append_right _ he, hrest⟩
  · rw [Function.update_of_ne hT]
    by_cases hin : id ∈ P.map (·.id)
    · rw [if_pos hin]
      simp only [reduceCtorEq, false_iff]
      rintro ⟨e, he, hid, _⟩
      obtain ⟨x, hx, hxid⟩ := List.mem_map.mp hin
      have hxA : x ∈ A (opposite S) := by
        rw [hsplit]
        exact List.mem_append_left _ hx
      exact hT (hd.unique he hxA (hid.trans hxid.symm)).1
    · rw [if_neg hin, h.index]

theorem flatten_pushBack (hfit : R.Fits) (S : Side) {px : Price} (hlo : R.cfg.minPrice ≤ px)
    (hhi : px ≤ R.maxPrice) (o : RefOrder) {l : RefSide} (hl : SideOk R S l) :
    flatten R (pushBack S px o l) = join S (resting R px o) (flatten R l) ∧
    SideOk R S (pushBack S px o l) ∧
      ∀ y ∈ pushBack S px o l, y.1 = px ∨ ∃ x ∈ l, x.1 = y.1 := by
  induction l with
  | nil =>
      refine ⟨rfl, ⟨List.pairwise_singleton .., ?_, ?_⟩, ?_⟩
      · intro x hx
        rw [List.mem_singleton.mp hx]
        exact ⟨hlo, hhi⟩
      · intro x hx
        rw [List.mem_singleton.mp hx]
        simp
      · intro y hy
        rw [List.mem_singleton.mp hy]
        exact .inl rfl
  | cons x rest ih =>
      obtain ⟨p, q⟩ := x
      obtain ⟨hplo, hphi⟩ := hl.band (p, q) (by simp)
      obtain ⟨hfirst, _⟩ := List.pairwise_cons.mp hl.sorted
      have hbehind : ∀ (r : RefSide), SideOk R S r → (∀ y ∈ r, before S px y.1 = true) →
          join S (resting R px o) (flatten R r) = resting R px o :: flatten R r := by
        intro r hr hb
        refine PriorityBook.join_append S (resting R px o) (p := []) (by simp) ?_
        intro e he
        obtain ⟨py, qy, oy, hmem, _, rfl⟩ := mem_flatten.mp he
        obtain ⟨hylo, hyhi⟩ := hr.band _ hmem
        have := (hfit.before_iff S hlo hhi hylo hyhi).mp (hb _ hmem)
        rw [← Bool.not_eq_true, ahead_iff R.cfg.numLevels]
        rw [ahead_iff R.cfg.numLevels] at this
        intro hle
        have heq := rank_inj (le_antisymm this.1 hle)
        exact this.2 (hfit.levelOf_inj hlo hhi hylo hyhi (by exact_mod_cast heq))
      rw [pushBack]
      by_cases hp : p = px
      · subst hp
        rw [if_pos rfl]
        refine ⟨?_, hl.cons (by simp), ?_⟩
        · rw [flatten_cons, flatten_cons, PriorityBook.join_past, hbehind rest hl.tail hfirst,
            List.map_append, List.append_assoc]
          · rfl
          · intro e he
            obtain ⟨x, _, rfl⟩ := List.mem_map.mp he
            rw [ahead_iff R.cfg.numLevels]
            exact le_rfl
        · intro y hy
          rcases List.mem_cons.mp hy with rfl | hy
          · exact .inl rfl
          · exact .inr ⟨y, by simp [hy], rfl⟩
      rw [if_neg hp]
      by_cases hb : before S p px = true
      · rw [if_pos hb]
        obtain ⟨ih1, ih2, ih3⟩ := ih hl.tail
        refine ⟨?_, ⟨List.pairwise_cons.mpr ⟨?_, ih2.sorted⟩, ?_, ?_⟩, ?_⟩
        · rw [flatten_cons, flatten_cons, PriorityBook.join_past, ih1]
          intro e he
          obtain ⟨x, _, rfl⟩ := List.mem_map.mp he
          exact ((hfit.before_iff S hplo hphi hlo hhi).mp hb).1
        · intro y hy
          rcases ih3 y hy with he | ⟨x, hx, he⟩
          · rw [he]
            exact hb
          · rw [← he]
            exact hfirst x hx
        · intro y hy
          rcases List.mem_cons.mp hy with rfl | hy
          · exact ⟨hplo, hphi⟩
          · exact ih2.band y hy
        · intro y hy
          rcases List.mem_cons.mp hy with rfl | hy
          · exact hl.full _ (by simp)
          · exact ih2.full y hy
        · intro y hy
          rcases List.mem_cons.mp hy with rfl | hy
          · exact .inr ⟨_, List.mem_cons_self, rfl⟩
          · exact (ih3 y hy).imp_right fun ⟨x, hx, he⟩ => ⟨x, by simp [hx], he⟩
      · rw [if_neg hb]
        have hpx : before S px p = true := by
          have hne : p.toInt ≠ px.toInt := fun he => hp (Int64.toInt_inj.mp he)
          cases S <;> simp only [before, Int64.lt_iff_toInt_lt, decide_eq_true_eq] at hb ⊢ <;> omega
        have hall : ∀ y ∈ (p, q) :: rest, before S px y.1 = true := by
          intro y hy
          rcases List.mem_cons.mp hy with rfl | hy
          · exact hpx
          · have := hfirst y hy
            cases S <;> simp only [before, Int64.lt_iff_toInt_lt, decide_eq_true_eq] at this hpx ⊢
              <;> omega
        refine ⟨?_, ⟨List.pairwise_cons.mpr ⟨hall, hl.sorted⟩, ?_, ?_⟩, ?_⟩
        · rw [hbehind _ hl hall]
          rfl
        · intro y hy
          rcases List.mem_cons.mp hy with rfl | hy
          · exact ⟨hlo, hhi⟩
          · exact hl.band y hy
        · intro y hy
          rcases List.mem_cons.mp hy with rfl | hy
          · simp
          · exact hl.full y hy
        · intro y hy
          rcases List.mem_cons.mp hy with rfl | hy
          · exact .inl rfl
          · exact .inr ⟨y, hy, rfl⟩

theorem Tracks.rest (h : Tracks R b A) (hd : PriorityBook.Distinct A) (hfit : R.Fits) {id : OrderId}
    (hid : ∀ U, ∀ e ∈ A U, e.id ≠ id) (owner : OwnerId) (S : Side) {px : Price}
    (hlo : R.cfg.minPrice ≤ px) (hhi : px ≤ R.maxPrice) (qty : Qty) :
    (b.rest id owner S px qty).2 = (PriorityBook.rest R A S ⟨R.levelOf px, id, qty, owner⟩).2 ∧
      Tracks R (b.rest id owner S px qty).1
        (PriorityBook.rest R A S ⟨R.levelOf px, id, qty, owner⟩).1 := by
  rw [ReferenceBook.rest, PriorityBook.rest, h.capacity, h.size_eq hd]
  split
  · rw [hfit.priceOf_levelOf hlo hhi, h.symbol]
    exact ⟨rfl, h⟩
  · obtain ⟨hflat, hok, _⟩ := flatten_pushBack hfit S hlo hhi ⟨id, qty, owner⟩ (h.side S)
    rw [h.flat] at hflat
    refine ⟨rfl, ?_⟩
    change Tracks R _ (Function.update A S (join S ⟨R.levelOf px, id, qty, owner⟩ (A S)))
    refine h.update _ hflat hok fun i loc => ?_
    have hindex : (b.setSide S (pushBack S px ⟨id, qty, owner⟩ (b.sideOf S))).index = b.index := by
      cases S <;> rfl
    rw [hindex]
    have hnew : R.priceOf (R.levelOf px) = px := hfit.priceOf_levelOf hlo hhi
    by_cases hi : i = id
    · subst hi
      rw [AList.lookup_insert, Option.some.injEq]
      constructor
      · rintro rfl
        rw [Function.update_self]
        exact ⟨_, PriorityBook.mem_join.mpr (.inl rfl), rfl, hnew.symm, rfl⟩
      · rintro ⟨e, he, heid, hp, hit⟩
        by_cases hT : loc.side = S
        · rw [hT, Function.update_self] at he
          rcases PriorityBook.mem_join.mp he with rfl | he
          · obtain ⟨s, p, t⟩ := loc
            simp only at hT hp hit
            rw [hT, hp, hit]
            simp only [hnew]
          · exact absurd heid (hid S e he)
        · rw [Function.update_of_ne hT] at he
          exact absurd heid (hid _ e he)
    · rw [AList.lookup_insert_ne hi, h.index]
      by_cases hT : loc.side = S
      · rw [hT, Function.update_self]
        constructor
        · rintro ⟨e, he, hrest⟩
          exact ⟨e, PriorityBook.mem_join.mpr (.inr he), hrest⟩
        · rintro ⟨e, he, heid, hrest⟩
          rcases PriorityBook.mem_join.mp he with rfl | he
          · exact absurd heid.symm hi
          · exact ⟨e, he, heid, hrest⟩
      · rw [Function.update_of_ne hT]

theorem queueAt_eq {S : Side} {l : RefSide} (hl : SideOk R S l) {px : Price} {q : RefQueue}
    (hmem : (px, q) ∈ l) :
    queueAt px l = q := by
  induction l with
  | nil => cases hmem
  | cons x rest ih =>
      obtain ⟨p, q'⟩ := x
      rw [queueAt]
      rcases List.mem_cons.mp hmem with he | hmem
      · cases he
        rw [if_pos rfl]
      · have hb := (List.pairwise_cons.mp hl.sorted).1 _ hmem
        rw [if_neg, ih hl.tail hmem]
        rintro rfl
        cases S <;> simp [before] at hb

theorem Tracks.located (h : Tracks R b A) (hd : PriorityBook.Distinct A) (hfit : R.Fits)
    {id : OrderId} {loc : Loc} (hloc : b.index.lookup id = some loc) :
    ∃ o q, b.deref loc = some o ∧ o.id = id ∧ loc.it = id ∧
    (loc.price, q) ∈ b.sideOf loc.side ∧ o ∈ q ∧
      lookup A id = some (loc.side, resting R loc.price o) := by
  obtain ⟨e, he, heid, hprice, hit⟩ := (h.index id loc).mp hloc
  have hmem := he
  rw [← h.flat] at hmem
  obtain ⟨px, q, o, hl, ho, rfl⟩ := mem_flatten.mp hmem
  obtain ⟨hlo, hhi⟩ := (h.side loc.side).band _ hl
  have hpx : loc.price = px := hprice.trans (hfit.priceOf_levelOf hlo hhi)
  have hlook := hd.lookup_eq he
  rw [heid] at hlook
  refine ⟨o, q, ?_, heid, hit, hpx ▸ hl, ho, hpx ▸ hlook⟩
  rw [deref, hpx, queueAt_eq (h.side loc.side) hl]
  cases hf : q.find? (·.id = loc.it) with
  | none =>
      have := List.find?_eq_none.mp hf o ho
      simp only [decide_eq_true_eq] at this
      exact absurd (heid.trans hit.symm) this
  | some o' =>
      have ho' := List.mem_of_find?_eq_some hf
      have hid' : o'.id = loc.it := by simpa using List.find?_some hf
      have hA : resting R px o' ∈ A loc.side := by
        rw [← h.flat]
        exact mem_flatten.mpr ⟨px, q, o', hl, ho', rfl⟩
      have heq := (hd.unique hA he (show o'.id = o.id by rw [hid', hit]; exact heid.symm)).2
      simp only [resting, Resting.mk.injEq, true_and] at heq
      obtain ⟨h1, h2, h3⟩ := heq
      obtain ⟨i1, q1, w1⟩ := o
      obtain ⟨i2, q2, w2⟩ := o'
      simp only at h1 h2 h3
      rw [h1, h2, h3]

/-- Rewriting one queue is rewriting the priority list, for a rewriting that goes order by
order and leaves the other queues alone. -/
theorem flatten_setQueue {S : Side} (px : Price) (f : RefQueue → RefQueue)
    (G : List Resting → List Resting) (hG : ∀ x y, G (x ++ y) = G x ++ G y) (hnil : G [] = [])
    {l : RefSide} (hl : SideOk R S l)
    (hhere : ∀ q, (px, q) ∈ l → (f q).map (resting R px) = G (q.map (resting R px)))
    (hother : ∀ p q, (p, q) ∈ l → p ≠ px → G (q.map (resting R p)) = q.map (resting R p)) :
    flatten R (setQueue px f l) = G (flatten R l) ∧ SideOk R S (setQueue px f l) ∧
      ∀ y ∈ setQueue px f l, ∃ x ∈ l, x.1 = y.1 := by
  induction l with
  | nil => exact ⟨hnil.symm, hl, by simp [setQueue]⟩
  | cons x rest ih =>
      obtain ⟨p, q⟩ := x
      obtain ⟨hfirst, _⟩ := List.pairwise_cons.mp hl.sorted
      rw [setQueue, flatten_cons, hG]
      by_cases hp : p = px
      · subst hp
        rw [if_pos rfl]
        have htail : G (flatten R rest) = flatten R rest := by
          have hall : ∀ r : RefSide, (∀ y ∈ r, y ∈ rest) → G (flatten R r) = flatten R r := by
            intro r hr
            induction r with
            | nil => exact hnil
            | cons y r ihr =>
                obtain ⟨py, qy⟩ := y
                have hy := hr (py, qy) (by simp)
                rw [flatten_cons, hG, ihr fun z hz => hr z (by simp [hz]),
                  hother py qy (by simp [hy])]
                rintro rfl
                have := hfirst _ hy
                cases S <;> simp [before] at this
          exact hall rest fun y hy => hy
        rw [htail, ← hhere q (by simp)]
        by_cases hf : f q = []
        · rw [if_pos hf, hf]
          exact ⟨rfl, hl.tail, fun y hy => ⟨y, by simp [hy], rfl⟩⟩
        · rw [if_neg hf]
          refine ⟨rfl, hl.cons hf, fun y hy => ?_⟩
          rcases List.mem_cons.mp hy with rfl | hy
          · exact ⟨_, List.mem_cons_self, rfl⟩
          · exact ⟨y, by simp [hy], rfl⟩
      · rw [if_neg hp]
        obtain ⟨h1, h2, h3⟩ := ih hl.tail (fun q' hq' => hhere q' (by simp [hq']))
          (fun p' q' hm hne => hother p' q' (by simp [hm]) hne)
        refine ⟨?_, ⟨List.pairwise_cons.mpr ⟨?_, h2.sorted⟩, ?_, ?_⟩, ?_⟩
        · rw [flatten_cons, h1, hother p q (by simp) hp]
        · intro y hy
          obtain ⟨x, hx, he⟩ := h3 y hy
          rw [← he]
          exact hfirst x hx
        · intro y hy
          rcases List.mem_cons.mp hy with rfl | hy
          · exact hl.band _ (by simp)
          · exact h2.band y hy
        · intro y hy
          rcases List.mem_cons.mp hy with rfl | hy
          · exact hl.full _ (by simp)
          · exact h2.full y hy
        · intro y hy
          rcases List.mem_cons.mp hy with rfl | hy
          · exact ⟨_, List.mem_cons_self, rfl⟩
          · obtain ⟨x, hx, he⟩ := h3 y hy
            exact ⟨x, by simp [hx], he⟩

private theorem Tracks.elsewhere (h : Tracks R b A) (hd : PriorityBook.Distinct A) (hfit : R.Fits)
    {S : Side} {px : Price} {q : RefQueue} {o : RefOrder} (hl : (px, q) ∈ b.sideOf S) (ho : o ∈ q)
    {p : Price} {q' : RefQueue} (hl' : (p, q') ∈ b.sideOf S) (hne : p ≠ px) :
    ∀ x ∈ q', x.id ≠ o.id := by
  intro x hx he
  have hA : ∀ p q o, (p, q) ∈ b.sideOf S → o ∈ q → resting R p o ∈ A S := by
    intro p q o hl ho
    rw [← h.flat]
    exact mem_flatten.mpr ⟨p, q, o, hl, ho, rfl⟩
  have heq := (hd.unique (hA _ _ _ hl' hx) (hA _ _ _ hl ho) he).2
  obtain ⟨h1, h2⟩ := (h.side S).band _ hl'
  obtain ⟨h3, h4⟩ := (h.side S).band _ hl
  exact hne (hfit.levelOf_inj h1 h2 h3 h4 (congrArg Resting.level heq))

theorem Tracks.removed (h : Tracks R b A) (hd : PriorityBook.Distinct A) (hfit : R.Fits)
    {id : OrderId} {loc : Loc} (hloc : b.index.lookup id = some loc) :
    Tracks R (b.remove id loc) (Function.update A loc.side (eraseId id (A loc.side))) := by
  obtain ⟨o, q, _, hid, hit, hl, ho, _⟩ := h.located hd hfit hloc
  have herase : ∀ (p : Price) (q : RefQueue), (q.filter (·.id ≠ loc.it)).map (resting R p) =
      eraseId id (q.map (resting R p)) := by
    intro p q
    rw [eraseId, List.filter_map, hit]
    rfl
  obtain ⟨hflat, hok, _⟩ :=
    flatten_setQueue loc.price (fun q => q.filter (·.id ≠ loc.it)) (eraseId id)
    (fun x y => List.filter_append ..) rfl (h.side loc.side) (fun q _ => herase loc.price q)
    (fun p q' hl' hne => by
      have hfar := h.elsewhere hd hfit hl ho hl' hne
      rw [eraseId, List.filter_eq_self]
      intro e he
      obtain ⟨x, hx, rfl⟩ := List.mem_map.mp he
      have := hfar x hx
      rw [hid] at this
      exact decide_eq_true this)
  rw [h.flat] at hflat
  have hindex :
    (b.setSide loc.side (setQueue loc.price (fun q => q.filter (·.id ≠ loc.it))
      (b.sideOf loc.side))).index =
      b.index := by
    cases loc.side <;> rfl
  refine h.update _ hflat hok fun i l => ?_
  rw [hindex]
  by_cases hi : i = id
  · subst hi
    rw [AList.lookup_erase]
    simp only [reduceCtorEq, false_iff]
    rintro ⟨e, he, heid, _⟩
    obtain ⟨e0, he0, hid0, _⟩ := (h.index i loc).mp hloc
    by_cases hT : l.side = loc.side
    · rw [hT, Function.update_self] at he
      have := (List.mem_filter.mp he).2
      simp only [decide_eq_true_eq] at this
      exact this heid
    · rw [Function.update_of_ne hT] at he
      exact hT (hd.unique he he0 (heid.trans hid0.symm)).1
  · rw [AList.lookup_erase_ne hi, h.index]
    by_cases hT : l.side = loc.side
    · rw [hT, Function.update_self]
      constructor
      · rintro ⟨e, he, heid, hrest⟩
        exact ⟨e, List.mem_filter.mpr ⟨he, by simpa using fun hc => hi (heid.symm.trans hc)⟩, heid,
          hrest⟩
      · rintro ⟨e, he, hrest⟩
        exact ⟨e, (List.mem_filter.mp he).1, hrest⟩
    · rw [Function.update_of_ne hT]

theorem Tracks.amended (h : Tracks R b A) (hd : PriorityBook.Distinct A) (hfit : R.Fits)
    {id : OrderId} {loc : Loc} (hloc : b.index.lookup id = some loc) (n : Qty) :
    Tracks R (b.setSide loc.side (setQueue loc.price
      (fun q => q.map fun x => if x.id = loc.it then { x with qty := n } else x)
        (b.sideOf loc.side)))
      (Function.update A loc.side (PriorityBook.setQty id n (A loc.side))) := by
  obtain ⟨o, q, _, hid, hit, hl, ho, _⟩ := h.located hd hfit hloc
  have hset : ∀ (p : Price) (q : RefQueue),
      (q.map fun x => if x.id = loc.it then { x with qty := n } else x).map (resting R p) =
      PriorityBook.setQty id n (q.map (resting R p)) := by
    intro p q
    rw [PriorityBook.setQty, List.map_map, List.map_map, hit]
    refine List.map_congr_left fun x _ => ?_
    by_cases hx : x.id = id <;> simp [resting, hx]
  obtain ⟨hflat, hok, _⟩ := flatten_setQueue loc.price
    (fun q => q.map fun x => if x.id = loc.it then { x with qty := n } else x)
      (PriorityBook.setQty id n)
    (fun x y => List.map_append ..) rfl (h.side loc.side) (fun q _ => hset loc.price q)
    (fun p q' hl' hne => by
      have hfar := h.elsewhere hd hfit hl ho hl' hne
      rw [PriorityBook.setQty, List.map_map]
      refine List.map_congr_left fun x hx => ?_
      have := hfar x hx
      rw [hid] at this
      simp [resting, this])
  rw [h.flat] at hflat
  have := h.update b.index hflat hok fun i l => ?_
  · have hindex : { b.setSide loc.side (setQueue loc.price
        (fun q => q.map fun x => if x.id = loc.it then { x with qty := n } else x)
            (b.sideOf loc.side)) with
        index := b.index } = b.setSide loc.side (setQueue loc.price
        (fun q => q.map fun x => if x.id = loc.it then { x with qty := n } else x)
            (b.sideOf loc.side)) := by
      cases loc.side <;> rfl
    rwa [hindex] at this
  · rw [h.index]
    by_cases hT : l.side = loc.side
    · rw [hT, Function.update_self]
      simp only [PriorityBook.setQty, List.mem_map]
      constructor
      · rintro ⟨e, he, heid, hp, hit'⟩
        refine ⟨_, ⟨e, he, rfl⟩, ?_⟩
        split <;> exact ⟨heid, hp, hit'⟩
      · rintro ⟨_, ⟨e, he, rfl⟩, hrest⟩
        refine ⟨e, he, ?_⟩
        split at hrest <;> exact hrest
    · rw [Function.update_of_ne hT]

theorem Tracks.enter (h : Tracks R b A) (hd : PriorityBook.Distinct A)
    (hfit : R.Fits) {id : OrderId} (hid : ∀ U, ∀ e ∈ A U, e.id ≠ id) (owner : OwnerId) (S : Side)
    {limit : Price} (hlo : R.cfg.minPrice ≤ limit) (hhi : limit ≤ R.maxPrice) (qty : Qty)
    (stp : Stp) (px : Price) (mayRest : Bool) :
    let m := b.matchOrder id owner S limit qty stp
    let b' := { b.setSide (opposite S) m.levels with index := m.index }
    let r := PriorityBook.enter R A S id owner (R.levelOf limit) qty stp px mayRest
    (m.qty = 0 → m.events = r.2 ∧ Tracks R b' r.1) ∧
    (m.qty ≠ 0 → m.stop = true →
      m.events ++ [canceledEvent R.symbol id S px m.qty .selfTrade] = r.2 ∧ Tracks R b' r.1) ∧
    (m.qty ≠ 0 → m.stop = false → mayRest = false →
      m.events ++ [canceledEvent R.symbol id S px m.qty .iocExpired] = r.2 ∧ Tracks R b' r.1) ∧
    (m.qty ≠ 0 → m.stop = false → mayRest = true →
      m.events ++ (b'.rest id owner S limit m.qty).2 = r.2 ∧
      Tracks R (b'.rest id owner S limit m.qty).1 r.1) := by
  intro m b' r
  obtain ⟨hqty, hstop, hevents, htracks⟩ := h.matched hd hfit id owner S hlo hhi qty stp
  have hmakers := PriorityBook.sweep_makers R S id owner (R.levelOf limit) stp (A (opposite S)) qty
  have hsub := PriorityBook.sweep_sub R S id owner (R.levelOf limit) stp (A (opposite S)) qty
  have hr : r = PriorityBook.enter R A S id owner (R.levelOf limit) qty stp px mayRest := rfl
  rw [PriorityBook.enter] at hr
  generalize PriorityBook.sweep R S id owner (R.levelOf limit) stp (A (opposite S)) qty = o at *
  change m.qty = o.qty at hqty
  change m.stop = o.stop at hstop
  change m.events = o.events at hevents
  rw [hqty, hstop, hevents]
  refine ⟨fun hz => ?_, fun hz hs => ?_, fun hz hs hm => ?_, fun hz hs hm => ?_⟩
  · simp only [if_pos hz] at hr
    rw [hr]
    exact ⟨rfl, htracks⟩
  · simp only [if_neg hz, if_pos hs] at hr
    rw [hr]
    exact ⟨rfl, htracks⟩
  · simp only [if_neg hz, hs, hm, Bool.false_eq_true, not_false_eq_true, if_true, if_false] at hr
    rw [hr]
    exact ⟨rfl, htracks⟩
  · simp only [if_neg hz, hs, hm, Bool.false_eq_true, not_true_eq_false, if_false] at hr
    have hdist : PriorityBook.Distinct (Function.update A (opposite S) o.makers) := by
      refine hd.update ?_
      obtain ⟨p, l, hsplit, hres | ⟨e, es, q', rfl, _, _, hres⟩⟩ := hmakers
      · rw [hsplit, hres, List.map_append]
        exact List.sublist_append_right ..
      · rw [hsplit, hres, List.map_append]
        exact List.sublist_append_right ..
    have hfresh : ∀ U, ∀ e ∈ Function.update A (opposite S) o.makers U, e.id ≠ id := by
      intro U e he
      by_cases hU : U = opposite S
      · subst hU
        rw [Function.update_self] at he
        obtain ⟨e', he', heq, _⟩ := hsub e he
        rw [show e.id = e'.id from (congrArg Resting.id heq).symm]
        exact hid _ e' he'
      · rw [Function.update_of_ne hU] at he
        exact hid U e he
    obtain ⟨hev, htr⟩ := Tracks.rest htracks hdist hfit hfresh owner S hlo hhi o.qty
    rw [hr]
    simp only [Int.toNat_natCast]
    exact ⟨by rw [← hev], htr⟩

theorem Tracks.limit_cases (h : Tracks R b A) (hfit : R.Fits) (c : Command) :
    (c.ordType = .limit ∧ (c.price < b.minPrice ∨ b.maxPrice < c.price) ∧
      R.limitOf c.side c = none) ∨
      (¬ (c.ordType = .limit ∧ (c.price < b.minPrice ∨ b.maxPrice < c.price)) ∧
        R.limitOf c.side c = some (R.levelOf (b.limitPrice c) : Int) ∧
        R.cfg.minPrice ≤ b.limitPrice c ∧
        b.limitPrice c ≤ R.maxPrice) := by
  rw [h.minPrice, h.maxPrice]
  have hmax := hfit.maxPrice_toInt
  have hpos := hfit.pos
  have hends : R.cfg.minPrice ≤ R.maxPrice := by
    rw [Int64.le_iff_toInt_le]
    omega
  cases hty : c.ordType with
  | market =>
      refine .inr ⟨by simp, ?_⟩
      simp only [Rules.limitOf, limitPrice, hty, h.minPrice, h.maxPrice]
      cases c.side with
      | buy =>
          refine ⟨?_, hends, Int64.le_refl _⟩
          rw [hfit.levelOf_toInt hends (Int64.le_refl _)]
          simp only [Option.some.injEq]
          omega
      | sell =>
          refine ⟨?_, Int64.le_refl _, hends⟩
          rw [hfit.levelOf_toInt (Int64.le_refl _) hends]
          simp
  | limit =>
      have hrel := hfit.relOf_eq c.price
      simp only [Rules.limitOf, limitPrice, hty, hrel]
      by_cases hout : c.price < R.cfg.minPrice ∨ R.maxPrice < c.price
      · exact .inl ⟨trivial, hout, by rw [if_pos hout]; rfl⟩
      · refine .inr ⟨fun hc => hout hc.2, by rw [if_neg hout]; rfl, ?_⟩
        rw [not_or] at hout
        exact ⟨Int64.not_lt.mp hout.1, Int64.not_lt.mp hout.2⟩

theorem Tracks.lookup_isSome (h : Tracks R b A) (hd : PriorityBook.Distinct A) (hfit : R.Fits)
    (id : OrderId) :
    (b.index.lookup id).isSome = (lookup A id).isSome := by
  cases hb : b.index.lookup id with
  | some loc =>
      obtain ⟨_, _, _, _, _, _, _, hlook⟩ := h.located hd hfit hb
      rw [hlook]
      rfl
  | none =>
      cases ha : lookup A id with
      | none => rfl
      | some p =>
          obtain ⟨S, e⟩ := p
          obtain ⟨he, hid⟩ := PriorityBook.lookup_mem ha
          have := (h.index id ⟨S, R.priceOf e.level, id⟩).mpr ⟨e, he, hid, rfl, rfl⟩
          rw [hb] at this
          cases this

theorem Tracks.add (h : Tracks R b A) (hd : PriorityBook.Distinct A) (hfit : R.Fits) (c : Command) :
    (b.add c).2 = (PriorityBook.add R PriorityBook.fillableSeq A c).2 ∧
      Tracks R (b.add c).1 (PriorityBook.add R PriorityBook.fillableSeq A c).1 := by
  rw [ReferenceBook.add, PriorityBook.add]
  by_cases hid0 : c.orderId = 0
  · simp only [if_pos hid0]
    exact ⟨trivial, h⟩
  by_cases hq0 : c.qty = 0
  · simp only [if_neg hid0, if_pos hq0]
    exact ⟨trivial, h⟩
  simp only [if_neg hid0, if_neg hq0]
  rcases h.limit_cases hfit c with ⟨hty, hout, hlim⟩ | ⟨hin, hlim, hlo, hhi⟩
  · rw [if_pos ⟨hty, hout⟩, hlim]
    exact ⟨rfl, h⟩
  simp only [if_neg hin, hlim, h.lookup_isSome hd hfit, h.crosses_eq hfit c.side hlo hhi,
    h.symbol, h.stp]
  cases hlook : lookup A c.orderId with
  | some p =>
      simp only [Option.isSome_some, if_true]
      exact ⟨trivial, h⟩
  | none =>
      simp only [Option.isSome_none, Bool.false_eq_true, if_false]
      by_cases hpost : c.flags &&& kFlagPostOnly ≠ 0 ∧
          PriorityBook.crosses A c.side (R.levelOf (b.limitPrice c)) = true
      · simp only [if_pos hpost]
        exact ⟨trivial, h⟩
      simp only [if_neg hpost]
      rw [fillable_eq hfit c.side hlo hhi c.owner _ _ (h.side (opposite c.side)), h.flat]
      by_cases hfok : c.tif = .fok ∧ ¬ PriorityBook.fillableSeq c.side
        (R.levelOf (b.limitPrice c)) c.owner
          (effectiveStp c.flags R.cfg.stp) (A (opposite c.side)) c.qty = true
      · simp only [if_pos hfok]
        exact ⟨trivial, h⟩
      simp only [if_neg hfok]
      obtain ⟨hzero, hstp, hioc, hrest⟩ :=
        h.enter hd hfit (PriorityBook.lookup_eq_none hlook) c.owner c.side hlo hhi
        c.qty (effectiveStp c.flags R.cfg.stp) c.eventPrice
          (decide (c.ordType = .limit ∧ c.tif = .day))
      generalize b.matchOrder c.orderId c.owner c.side (b.limitPrice c) c.qty
        (effectiveStp c.flags R.cfg.stp) = m at *
      generalize PriorityBook.enter R A c.side c.orderId c.owner (R.levelOf (b.limitPrice c)) c.qty
        (effectiveStp c.flags R.cfg.stp) c.eventPrice
          (decide (c.ordType = .limit ∧ c.tif = .day)) = r at *
      by_cases hz : m.qty = 0
      · obtain ⟨he, ht⟩ := hzero hz
        simp only [if_pos hz, he]
        exact ⟨trivial, ht⟩
      by_cases hs : m.stop = true
      · obtain ⟨he, ht⟩ := hstp hz hs
        simp only [if_neg hz, if_pos hs, List.cons_append, he]
        exact ⟨trivial, ht⟩
      rw [Bool.not_eq_true] at hs
      by_cases hday : c.ordType = .market ∨ c.tif ≠ .day
      · obtain ⟨he, ht⟩ := hioc hz hs (by
          rw [decide_eq_false_iff_not]
          rintro ⟨h1, h2⟩
          rcases hday with h3 | h3
          · rw [h1] at h3
            cases h3
          · exact h3 h2)
        simp only [if_neg hz, hs, Bool.false_eq_true, if_false, if_pos hday, List.cons_append, he]
        exact ⟨trivial, ht⟩
      · obtain ⟨he, ht⟩ := hrest hz hs (by
          rw [not_or, not_not] at hday
          rw [decide_eq_true_eq]
          refine ⟨?_, hday.2⟩
          cases hty : c.ordType with
          | limit => rfl
          | market => exact absurd hty hday.1)
        simp only [if_neg hz, hs, Bool.false_eq_true, if_false, if_neg hday, List.cons_append, he]
        exact ⟨trivial, ht⟩

theorem Tracks.cancel (h : Tracks R b A) (hd : PriorityBook.Distinct A)
    (hfit : R.Fits) (c : Command) :
    ∃ b', b.cancel c = some (b', (PriorityBook.cancel R A c).2) ∧
    Tracks R b' (PriorityBook.cancel R A c).1 := by
  rw [ReferenceBook.cancel, PriorityBook.cancel]
  cases hb : b.index.lookup c.orderId with
  | none =>
      have hnone := h.lookup_isSome hd hfit c.orderId
      rw [hb, Option.isSome_none, eq_comm, Option.isSome_eq_false_iff,
        Option.isNone_iff_eq_none] at hnone
      rw [hnone]
      exact ⟨b, rfl, h⟩
  | some loc =>
      obtain ⟨o, q, hderef, _, _, hl, _, hlook⟩ := h.located hd hfit hb
      obtain ⟨hlo, hhi⟩ := (h.side loc.side).band _ hl
      have hprice : R.priceOf (resting R loc.price o).level = loc.price :=
        hfit.priceOf_levelOf hlo hhi
      refine ⟨b.remove c.orderId loc, ?_, ?_⟩
      · simp only [hderef, hlook, hprice, h.symbol]
        rfl
      · simp only [hlook]
        exact h.removed hd hfit hb

private theorem Tracks.reentered (h : Tracks R b A) (hd : PriorityBook.Distinct A) (hfit : R.Fits)
    {id : OrderId} {loc : Loc} (hloc : b.index.lookup id = some loc) {price : Price}
    (hlo : R.cfg.minPrice ≤ price) (hhi : price ≤ R.maxPrice) (owner : OwnerId) (qty : Qty)
    (stp : Stp) (px : Price) :
    let B := Function.update A loc.side (eraseId id (A loc.side))
    let m := (b.remove id loc).matchOrder id owner loc.side price qty stp
    let b' := { (b.remove id loc).setSide (opposite loc.side) m.levels with index := m.index }
    let r := PriorityBook.enter R B loc.side id owner (R.levelOf price) qty stp px true
    (m.qty = 0 → m.events = r.2 ∧ Tracks R b' r.1) ∧
    (m.qty ≠ 0 → m.stop = true →
      m.events ++ [canceledEvent R.symbol id loc.side px m.qty .selfTrade] = r.2 ∧
      Tracks R b' r.1) ∧
    (m.qty ≠ 0 → m.stop = false →
      m.events ++ (b'.rest id owner loc.side price m.qty).2 = r.2 ∧
        Tracks R (b'.rest id owner loc.side price m.qty).1 r.1) := by
  have hdist : PriorityBook.Distinct (Function.update A loc.side (eraseId id (A loc.side))) :=
    hd.update ((List.filter_sublist).map _)
  have hgone : ∀ U, ∀ e ∈ Function.update A loc.side (eraseId id (A loc.side)) U, e.id ≠ id := by
    intro U e he
    by_cases hU : U = loc.side
    · subst hU
      rw [Function.update_self] at he
      simpa using (List.mem_filter.mp he).2
    · rw [Function.update_of_ne hU] at he
      obtain ⟨e0, he0, hid0, _⟩ := (h.index id loc).mp hloc
      exact fun heq => hU (hd.unique he he0 (heq.trans hid0.symm)).1
  obtain ⟨hzero, hstop, _, hrest⟩ :=
    (h.removed hd hfit hloc).enter hdist hfit hgone owner loc.side hlo hhi qty stp
    px true
  exact ⟨hzero, hstop, fun hz hs => hrest hz hs rfl⟩

theorem Tracks.modify (h : Tracks R b A) (hd : PriorityBook.Distinct A)
    (hfit : R.Fits) (c : Command) :
    ∃ b', b.modify c = some (b', (PriorityBook.modify R A c).2) ∧
    Tracks R b' (PriorityBook.modify R A c).1 := by
  rw [ReferenceBook.modify, PriorityBook.modify]
  by_cases hq0 : c.qty = 0
  · simp only [if_pos hq0]
    exact ⟨b, rfl, h⟩
  simp only [if_neg hq0]
  cases hb : b.index.lookup c.orderId with
  | none =>
      have hnone := h.lookup_isSome hd hfit c.orderId
      rw [hb, Option.isSome_none, eq_comm, Option.isSome_eq_false_iff,
        Option.isNone_iff_eq_none] at hnone
      simp only [hnone]
      exact ⟨b, rfl, h⟩
  | some loc =>
      obtain ⟨o, q, hderef, _, _, hl, _, hlook⟩ := h.located hd hfit hb
      obtain ⟨hllo, hlhi⟩ := (h.side loc.side).band _ hl
      simp only [hlook, h.minPrice, h.maxPrice, hfit.relOf_eq c.price]
      by_cases hout : c.price < R.cfg.minPrice ∨ R.maxPrice < c.price
      · simp only [if_pos hout]
        exact ⟨b, rfl, h⟩
      simp only [if_neg hout, hderef, Option.bind_eq_bind, Option.bind_some, Option.pure_def]
      rw [not_or] at hout
      have hlo : R.cfg.minPrice ≤ c.price := Int64.not_lt.mp hout.1
      have hhi : c.price ≤ R.maxPrice := Int64.not_lt.mp hout.2
      have hprice : R.priceOf (R.levelOf c.price) = c.price := hfit.priceOf_levelOf hlo hhi
      have hsame : R.levelOf c.price = (resting R loc.price o).level ↔ c.price = loc.price :=
        ⟨fun heq => hfit.levelOf_inj hlo hhi hllo hlhi heq, fun heq => congrArg R.levelOf heq⟩
      simp only [hsame]
      by_cases hkeep : c.price = loc.price ∧ c.qty ≤ (resting R loc.price o).qty
      · simp only [if_pos hkeep, if_pos (show c.price = loc.price ∧ c.qty ≤ o.qty from hkeep)]
        refine ⟨_, ?_, h.amended hd hfit hb c.qty⟩
        rw [h.symbol]
      simp only [if_neg hkeep, if_neg (show ¬ (c.price = loc.price ∧ c.qty ≤ o.qty) from hkeep)]
      have hsymbol : (b.remove c.orderId loc).symbol = R.symbol := (h.removed hd hfit hb).symbol
      have hstp : (b.remove c.orderId loc).stp = R.cfg.stp := (h.removed hd hfit hb).stp
      obtain ⟨hzero, hstop, hrest⟩ := h.reentered hd hfit hb hlo hhi o.owner c.qty R.cfg.stp c.price
      simp only [hprice, hsymbol, hstp, h.symbol,
        show (resting R loc.price o).owner = o.owner from rfl]
      generalize (b.remove c.orderId loc).matchOrder c.orderId o.owner loc.side c.price c.qty
        R.cfg.stp = m at *
      generalize PriorityBook.enter R _ loc.side c.orderId o.owner
        (R.levelOf c.price) c.qty R.cfg.stp c.price true =
        r at *
      by_cases hz : m.qty = 0
      · obtain ⟨he, ht⟩ := hzero hz
        refine ⟨_, ?_, ht⟩
        simp only [if_pos hz, he]
      by_cases hs : m.stop = true
      · obtain ⟨he, ht⟩ := hstop hz hs
        refine ⟨_, ?_, ht⟩
        simp only [if_neg hz, if_pos hs, List.cons_append, he]
      rw [Bool.not_eq_true] at hs
      obtain ⟨he, ht⟩ := hrest hz hs
      refine ⟨_, ?_, ht⟩
      simp only [if_neg hz, hs, Bool.false_eq_true, if_false, List.cons_append, ← he]

theorem Tracks.process (h : Tracks R b A) (hd : PriorityBook.Distinct A)
    (hfit : R.Fits) (c : Command) :
    ∃ b', b.process c = some (b', (PriorityBook.process R PriorityBook.fillableSeq A c).2) ∧
      Tracks R b' (PriorityBook.process R PriorityBook.fillableSeq A c).1 := by
  rw [ReferenceBook.process, PriorityBook.process]
  cases c.type with
  | newOrder =>
      obtain ⟨he, ht⟩ := h.add hd hfit c
      exact ⟨(b.add c).1, by rw [← he], ht⟩
  | cancel => exact h.cancel hd hfit c
  | modify => exact h.modify hd hfit c

end Commands

end ReferenceBook
end ExchangeSim.Book
