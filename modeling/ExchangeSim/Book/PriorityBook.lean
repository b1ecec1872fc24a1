/- digest: The abstract book: each side is the list of its resting orders in priority order. -/

import ExchangeSim.Common
import Mathlib.Data.List.Nodup
import Mathlib.Data.List.Basic

set_option autoImplicit false
set_option relaxedAutoImplicit false

namespace ExchangeSim.Book

structure Resting where
  level : Nat
  id : OrderId
  qty : Qty
  owner : OwnerId
  deriving DecidableEq

/-- Each side in priority order: best price first, oldest first within a price. -/
abbrev PriorityBook := Side → List Resting

namespace PriorityBook

structure Rules where
  symbol : SymbolId
  cfg : BookConfig

variable (R : Rules)

def Rules.priceOf (ix : Int) : Price := R.cfg.minPrice + Int64.ofInt ix

def Rules.relOf (price : Price) : Option Nat :=
  let rel := (price - R.cfg.minPrice).toInt
  if rel < 0 ∨ (R.cfg.numLevels : Int) ≤ rel then none else some rel.toNat

def Rules.limitOf (S : Side) (c : Command) : Option Int :=
  match c.ordType with
  | .market => some (match S with
      | .buy => (R.cfg.numLevels : Int) - 1
      | .sell => 0)
  | .limit => (R.relOf c.price).map fun rel : Nat => (rel : Int)

variable {R} in
theorem Rules.relOf_lt {p : Price} {ix : Nat} (h : R.relOf p = some ix) : ix < R.cfg.numLevels := by
  simp only [Rules.relOf] at h
  split at h
  · cases h
  · simp only [Option.some.injEq] at h
    omega

variable {R} in
theorem Rules.priceOf_relOf {p : Price} {ix : Nat} (h : R.relOf p = some ix) :
    R.priceOf ix = p := by
  simp only [Rules.relOf] at h
  split at h
  · cases h
  · rename_i hin
    rw [not_or, Int.not_lt] at hin
    cases h
    rw [Rules.priceOf, Int.toNat_of_nonneg hin.1, Int64.ofInt_toInt]
    grind

variable {R} in
theorem Rules.priceOf_inj (hsmall : R.cfg.numLevels ≤ 2 ^ 30) {i j : Nat} (hi : i < R.cfg.numLevels)
    (hj : j < R.cfg.numLevels) (h : R.priceOf i = R.priceOf j) : i = j := by
  have hof : Int64.ofInt (i : Int) = Int64.ofInt (j : Int) := by
    simp only [Rules.priceOf] at h
    grind
  have := congrArg Int64.toInt hof
  rw [Int64.toInt_ofInt, Int64.toInt_ofInt] at this
  simp only [Int.bmod, Int64.size] at this
  omega

/-- An order of side `S` with this limit may trade at the level. -/
def inRange (S : Side) (limit : Int) (level : Nat) : Bool :=
  match S with
  | .buy => (level : Int) ≤ limit
  | .sell => limit ≤ (level : Int)

/-- An order at level `a` of side `S` goes before a later one at level `b`. -/
def ahead (S : Side) (a b : Nat) : Bool :=
  match S with
  | .buy => b ≤ a
  | .sell => a ≤ b

/-- The new order joins the back of the queue at its price. -/
def join (S : Side) (e : Resting) : List Resting → List Resting
  | [] => [e]
  | x :: xs => if ahead S x.level e.level then x :: join S e xs else e :: x :: xs

theorem join_append (S : Side) (e : Resting) {p r : List Resting}
    (hp : ∀ x ∈ p, ahead S x.level e.level = true) (hr : ∀ x ∈ r, ahead S x.level e.level = false) :
    join S e (p ++ r) = p ++ e :: r := by
  induction p with
  | nil =>
      cases r with
      | nil => rfl
      | cons x xs => simp [join, hr x]
  | cons x xs ih =>
      rw [List.cons_append, join, if_pos (hp x (by simp)), ih fun y hy => hp y (by simp [hy])]
      rfl

theorem join_past (S : Side) (e : Resting) {p : List Resting}
    (hp : ∀ x ∈ p, ahead S x.level e.level = true) (l : List Resting) :
    join S e (p ++ l) = p ++ join S e l := by
  induction p with
  | nil => rfl
  | cons x xs ih =>
      rw [List.cons_append, join, if_pos (hp x (by simp)), ih fun y hy => hp y (by simp [hy])]
      rfl

theorem mem_join {S : Side} {e x : Resting} {l : List Resting} :
    x ∈ join S e l ↔ x = e ∨ x ∈ l := by
  induction l with
  | nil => simp [join]
  | cons y ys ih =>
      rw [join]
      split
      · rw [List.mem_cons, ih, List.mem_cons]
        tauto
      · rw [List.mem_cons]

def eraseId (id : OrderId) (l : List Resting) : List Resting := l.filter fun e => e.id ≠ id

def setQty (id : OrderId) (q : Qty) (l : List Resting) : List Resting :=
  l.map fun e => if e.id = id then { e with qty := q } else e

/-- What a sweep leaves: the side it took from, the taker's remainder, whether
self-trade prevention stopped it, and its events. -/
structure Outcome where
  makers : List Resting
  qty : Qty
  stop : Bool
  events : List Event

/-- The outcome of a sweep that has sent these events before. -/
def Outcome.behind (evs : List Event) (o : Outcome) : Outcome :=
  { o with events := evs ++ o.events }

@[simp] theorem Outcome.behind_nil (o : Outcome) : o.behind [] = o := rfl

@[simp] theorem Outcome.behind_behind (evs evs' : List Event) (o : Outcome) :
    (o.behind evs').behind evs = o.behind (evs ++ evs') := by
  simp [Outcome.behind]

/-- The sweep of an order of side `S` through the opposite side, best order first. -/
def sweep (S : Side) (taker : OrderId) (owner : OwnerId) (limit : Int) (stp : Stp) :
    List Resting → Qty → Outcome
  | [], q => ⟨[], q, false, []⟩
  | e :: es, q =>
      if q = 0 ∨ ¬ inRange S limit e.level then ⟨e :: es, q, false, []⟩
      else if stp ≠ .none ∧ e.owner = owner then
        if stp = .cancelIncoming then ⟨e :: es, q, true, []⟩
        else if stp = .decrementCancel ∧ q < e.qty then
          ⟨{ e with qty := e.qty - q } :: es, q, true,
            [stpDecrementEvent R.symbol e.id (opposite S) (R.priceOf e.level) (e.qty - q)]⟩
        else
          let ev := canceledEvent R.symbol e.id (opposite S) (R.priceOf e.level) e.qty .selfTrade
          if stp = .decrementCancel then
            if e.qty = q then ⟨es, q, true, [ev]⟩
            else (sweep S taker owner limit stp es (q - e.qty)).behind
              [ev, stpDecrementEvent R.symbol taker S (R.priceOf limit) (q - e.qty)]
          else (sweep S taker owner limit stp es q).behind [ev]
      else
        let fill := if e.qty < q then e.qty else q
        let left := e.qty - fill
        let ev := tradeEvent R.symbol taker e.id S (R.priceOf e.level) fill left
        if left ≠ 0 then ⟨{ e with qty := left } :: es, q - fill, false, [ev]⟩
        else (sweep S taker owner limit stp es (q - fill)).behind [ev]

/-- The quantity of some resting orders. -/
def volume (l : List Resting) : Nat := (l.map fun e => e.qty.toNat).sum

@[simp] theorem volume_cons (e : Resting) (l : List Resting) :
    volume (e :: l) = e.qty.toNat + volume l := rfl

section Sweep

variable (S : Side) (taker : OrderId) (owner : OwnerId) (limit : Int) (stp : Stp)

/-- How the sweep goes past its first maker: it does not meet it, it stops there with the
maker whole or reduced, it stops having removed it, or it removes it and goes on. -/
theorem sweep_cases (e : Resting) (es : List Resting) (q : Qty) :
    let o := sweep R S taker owner limit stp (e :: es) q
    (o = ⟨e :: es, q, false, []⟩ ∧ (q = 0 ∨ inRange S limit e.level = false)) ∨
    (q ≠ 0 ∧ inRange S limit e.level = true ∧
      ((o = ⟨e :: es, q, true, []⟩ ∧ stp = .cancelIncoming ∧ e.owner = owner) ∨
       (o = ⟨{ e with qty := e.qty - q } :: es, q, true,
          [stpDecrementEvent R.symbol e.id (opposite S) (R.priceOf e.level) (e.qty - q)]⟩ ∧
          stp = .decrementCancel ∧ e.owner = owner ∧ q < e.qty) ∨
       (o = ⟨es, q, true,
          [canceledEvent R.symbol e.id (opposite S) (R.priceOf e.level) e.qty .selfTrade]⟩ ∧
          stp = .decrementCancel ∧ e.owner = owner ∧ e.qty = q) ∨
       (o = (sweep R S taker owner limit stp es (q - e.qty)).behind
          [canceledEvent R.symbol e.id (opposite S) (R.priceOf e.level) e.qty .selfTrade,
            stpDecrementEvent R.symbol taker S (R.priceOf limit) (q - e.qty)] ∧
          stp = .decrementCancel ∧ e.owner = owner ∧ e.qty < q) ∨
       (o = (sweep R S taker owner limit stp es q).behind
          [canceledEvent R.symbol e.id (opposite S) (R.priceOf e.level) e.qty .selfTrade] ∧
          stp = .cancelResting ∧ e.owner = owner) ∨
       (o = ⟨{ e with qty := e.qty - q } :: es, 0, false,
          [tradeEvent R.symbol taker e.id S (R.priceOf e.level) q (e.qty - q)]⟩ ∧
          (stp = .none ∨ e.owner ≠ owner) ∧ q < e.qty) ∨
       (o = (sweep R S taker owner limit stp es (q - e.qty)).behind
          [tradeEvent R.symbol taker e.id S (R.priceOf e.level) e.qty 0] ∧
          (stp = .none ∨ e.owner ≠ owner) ∧ e.qty ≤ q))) := by
  intro o
  have ho : o = sweep R S taker owner limit stp (e :: es) q := rfl
  rw [sweep] at ho
  by_cases hgo : q = 0 ∨ ¬ inRange S limit e.level = true
  · rw [if_pos hgo] at ho
    exact .inl ⟨ho, hgo.imp_right (by simp)⟩
  rw [if_neg hgo] at ho
  rw [not_or, not_not] at hgo
  refine .inr ⟨hgo.1, hgo.2, ?_⟩
  by_cases hself : stp ≠ .none ∧ e.owner = owner
  · rw [if_pos hself] at ho
    by_cases hci : stp = .cancelIncoming
    · rw [if_pos hci] at ho
      exact .inl ⟨ho, hci, hself.2⟩
    rw [if_neg hci] at ho
    by_cases hdec : stp = .decrementCancel ∧ q < e.qty
    · rw [if_pos hdec] at ho
      exact .inr (.inl ⟨ho, hdec.1, hself.2, hdec.2⟩)
    rw [if_neg hdec] at ho
    by_cases hdc : stp = .decrementCancel
    · rw [if_pos hdc] at ho
      by_cases heq : e.qty = q
      · rw [if_pos heq] at ho
        exact .inr (.inr (.inl ⟨ho, hdc, hself.2, heq⟩))
      · rw [if_neg heq] at ho
        have hlt : e.qty < q := by
          have : ¬ q < e.qty := fun h => hdec ⟨hdc, h⟩
          grind
        exact .inr (.inr (.inr (.inl ⟨ho, hdc, hself.2, hlt⟩)))
    · rw [if_neg hdc] at ho
      have hcr : stp = .cancelResting := by cases stp <;> simp_all
      exact .inr (.inr (.inr (.inr (.inl ⟨ho, hcr, hself.2⟩))))
  · rw [if_neg hself] at ho
    have hother : stp = .none ∨ e.owner ≠ owner := by
      by_cases hn : stp = .none
      · exact .inl hn
      · exact .inr fun h => hself ⟨hn, h⟩
    by_cases hlt : q < e.qty
    · have hfill : (if e.qty < q then e.qty else q) = q := by
        rw [if_neg]
        grind
      have hleft : e.qty - q ≠ 0 := by grind
      simp only [hfill, if_pos hleft, show q - q = 0 by grind] at ho
      exact .inr (.inr (.inr (.inr (.inr (.inl ⟨ho, hother, hlt⟩)))))
    · have hle : e.qty ≤ q := by grind
      have hfill : (if e.qty < q then e.qty else q) = e.qty := by
        split
        · rfl
        · grind
      simp only [hfill, show e.qty - e.qty = 0 by grind, ne_eq, not_true_eq_false, if_false] at ho
      exact .inr (.inr (.inr (.inr (.inr (.inr ⟨ho, hother, hle⟩)))))

theorem sweep_zero (l : List Resting) :
    sweep R S taker owner limit stp l 0 = ⟨l, 0, false, []⟩ := by
  cases l <;> simp [sweep]

theorem sweep_makers (l : List Resting) (q : Qty) :
    ∃ p r, l = p ++ r ∧ ((sweep R S taker owner limit stp l q).makers = r ∨
      ∃ e es q', r = e :: es ∧ q' < e.qty ∧ q' ≠ 0 ∧
        (sweep R S taker owner limit stp l q).makers = { e with qty := q' } :: es) := by
  induction l generalizing q with
  | nil => exact ⟨[], [], rfl, .inl rfl⟩
  | cons e es ih =>
      have hgo : ∀ q' evs, sweep R S taker owner limit stp (e :: es) q =
          (sweep R S taker owner limit stp es q').behind evs → ∃ p r, e :: es = p ++ r ∧
          ((sweep R S taker owner limit stp (e :: es) q).makers = r ∨ ∃ e' es' q', r = e' :: es' ∧
            q' < e'.qty ∧ q' ≠ 0 ∧
            (sweep R S taker owner limit stp (e :: es) q).makers =
            { e' with qty := q' } :: es') := by
        intro q' evs heq
        obtain ⟨p, r, hsplit, hres⟩ := ih q'
        refine ⟨e :: p, r, by rw [hsplit]; rfl, ?_⟩
        rw [heq]
        exact hres
      rcases sweep_cases R S taker owner limit stp e es q with ⟨ho, _⟩ | ⟨hq, _, hcase⟩
      · exact ⟨[], e :: es, rfl, .inl (by rw [ho])⟩
      rcases hcase with ⟨ho, _⟩ | ⟨ho, _, _, hlt⟩ | ⟨ho, _⟩ | ⟨ho, _⟩ | ⟨ho, _⟩ |
        ⟨ho, _, hlt⟩ | ⟨ho, _⟩
      · exact ⟨[], e :: es, rfl, .inl (by rw [ho])⟩
      · exact ⟨[], e :: es, rfl, .inr ⟨e, es, e.qty - q, rfl, by grind, by grind, by rw [ho]⟩⟩
      · exact ⟨[e], es, rfl, .inl (by rw [ho])⟩
      · exact hgo _ _ ho
      · exact hgo _ _ ho
      · exact ⟨[], e :: es, rfl, .inr ⟨e, es, e.qty - q, rfl, by grind, by grind, by rw [ho]⟩⟩
      · exact hgo _ _ ho

theorem sweep_sub (l : List Resting) (q : Qty) :
    ∀ e ∈ (sweep R S taker owner limit stp l q).makers,
      ∃ e' ∈ l, e' = { e with qty := e'.qty } ∧ e.qty ≤ e'.qty := by
  obtain ⟨p, r, rfl, hres | ⟨x, xs, q', rfl, hlt, _, hres⟩⟩ :=
    sweep_makers R S taker owner limit stp l q
  · rw [hres]
    exact fun e he => ⟨e, List.mem_append_right p he, rfl, UInt64.le_refl _⟩
  · rw [hres]
    intro e he
    rcases List.mem_cons.mp he with rfl | he
    · exact ⟨x, by simp, rfl, UInt64.le_of_lt hlt⟩
    · exact ⟨e, by simp [he], rfl, UInt64.le_refl _⟩

theorem sweep_length (l : List Resting) (q : Qty) :
    (sweep R S taker owner limit stp l q).makers.length ≤ l.length := by
  obtain ⟨p, r, rfl, hres | ⟨x, xs, q', rfl, _, _, hres⟩⟩ :=
    sweep_makers R S taker owner limit stp l q
  · rw [hres]
    simp
  · rw [hres]
    simp

theorem sweep_done (l : List Resting) (q : Qty)
    (hq : (sweep R S taker owner limit stp l q).qty ≠ 0)
    (hstop : (sweep R S taker owner limit stp l q).stop = false) :
    ∀ e ∈ (sweep R S taker owner limit stp l q).makers.head?, inRange S limit e.level = false := by
  induction l generalizing q with
  | nil => simp [sweep]
  | cons e es ih =>
      have hgo : ∀ q' evs, sweep R S taker owner limit stp (e :: es) q =
          (sweep R S taker owner limit stp es q').behind evs →
          ∀ e' ∈ (sweep R S taker owner limit stp (e :: es) q).makers.head?,
            inRange S limit e'.level = false := by
        intro q' evs heq
        rw [heq] at hq hstop ⊢
        exact ih q' hq hstop
      rcases sweep_cases R S taker owner limit stp e es q with ⟨ho, hend⟩ | ⟨_, _, hcase⟩
      · rw [ho] at hq ⊢
        intro e' he'
        simp only [List.head?_cons, Option.mem_def, Option.some.injEq] at he'
        rw [← he']
        exact hend.resolve_left hq
      rcases hcase with ⟨ho, _⟩ | ⟨ho, _⟩ | ⟨ho, _⟩ | ⟨ho, _⟩ | ⟨ho, _⟩ | ⟨ho, _⟩ | ⟨ho, _⟩
      · rw [ho] at hstop
        cases hstop
      · rw [ho] at hstop
        cases hstop
      · rw [ho] at hstop
        cases hstop
      · exact hgo _ _ ho
      · exact hgo _ _ ho
      · rw [ho] at hq
        exact absurd rfl hq
      · exact hgo _ _ ho

end Sweep

/-- The orders of the opposite side, asked one by one, would resolve all of `need`. -/
def fillableSeq (S : Side) (limit : Int) (owner : OwnerId) (stp : Stp) : List Resting → Qty → Bool
  | [], _ => false
  | e :: es, need =>
      if ¬ inRange S limit e.level then false
      else if stp ≠ .none ∧ e.owner = owner then
        if stp = .cancelIncoming then false
        else if stp = .decrementCancel then
          if need ≤ e.qty then false else fillableSeq S limit owner stp es (need - e.qty)
        else fillableSeq S limit owner stp es need
      else if need ≤ e.qty then true
      else fillableSeq S limit owner stp es (need - e.qty)

/-- The total of each level, modulo 2^64. -/
def totals : List Resting → List (Nat × UInt64)
  | [] => []
  | e :: es =>
      match totals es with
      | [] => [(e.level, e.qty)]
      | (l, q) :: rest =>
          if l = e.level then (l, e.qty + q) :: rest else (e.level, e.qty) :: (l, q) :: rest

/-- The level totals of the opposite side, asked one by one. -/
def fillableTotals (S : Side) (limit : Int) : List (Nat × UInt64) → Qty → Bool
  | [], _ => false
  | (l, q) :: rest, need =>
      if ¬ inRange S limit l then false
      else if need ≤ q then true
      else fillableTotals S limit rest (need - q)

theorem totals_level (ix : Nat) {l rest : List Resting} (hne : l ≠ []) (hl : ∀ e ∈ l, e.level = ix)
    (hrest : ∀ e ∈ rest, e.level ≠ ix) :
    totals (l ++ rest) = (ix, (l.map Resting.qty).sum) :: totals rest := by
  have hhead : ∀ p q, totals rest = p :: q → p.1 ≠ ix := by
    intro p q hp
    cases rest with
    | nil => simp [totals] at hp
    | cons x xs =>
        have hx := hrest x (by simp)
        rw [totals] at hp
        split at hp
        · cases hp
          exact hx
        · split at hp
          · rename_i hlev
            cases hp
            rw [hlev]
            exact hx
          · cases hp
            exact hx
  induction l with
  | nil => exact absurd rfl hne
  | cons e es ih =>
      have he := hl e (by simp)
      cases es with
      | nil =>
          simp only [List.cons_append, List.nil_append, totals, List.map_cons,
            List.map_nil, List.sum_cons, List.sum_nil, he]
          split
          · rename_i h0
            rw [h0]
            simp
          · rename_i l q tl h0
            rw [if_neg (hhead _ _ h0), h0]
            simp
      | cons u es =>
          have := ih (by simp) fun x hx => hl x (by simp [hx])
          rw [List.cons_append, totals, this]
          simp [he]

/-- The check order by order along the queue of one level: a verdict, or what is still needed. -/
def fillableQueue (owner : OwnerId) (stp : Stp) : List Resting → Qty → Bool ⊕ Qty
  | [], need => .inr need
  | e :: es, need =>
      if stp ≠ .none ∧ e.owner = owner then
        if stp = .cancelIncoming then .inl false
        else if stp = .decrementCancel then
          if need ≤ e.qty then .inl false else fillableQueue owner stp es (need - e.qty)
        else fillableQueue owner stp es need
      else if need ≤ e.qty then .inl true
      else fillableQueue owner stp es (need - e.qty)

theorem fillableSeq_append (S : Side) (limit : Int) (owner : OwnerId) (stp : Stp) {l : List Resting}
    (hl : ∀ e ∈ l, inRange S limit e.level = true) (rest : List Resting) (need : Qty) :
    fillableSeq S limit owner stp (l ++ rest) need =
      match fillableQueue owner stp l need with
      | .inl v => v
      | .inr need => fillableSeq S limit owner stp rest need := by
  induction l generalizing need with
  | nil => rfl
  | cons e es ih =>
      have ih := ih fun x hx => hl x (by simp [hx])
      rw [List.cons_append, fillableSeq, fillableQueue, if_neg (by simp [hl e])]
      split
      · split
        · rfl
        · split
          · split
            · rfl
            · exact ih _
          · exact ih _
      · split
        · rfl
        · exact ih _

/-- How a book decides whether a fill-or-kill order can be filled. -/
abbrev FokCheck := Side → Int → OwnerId → Stp → List Resting → Qty → Bool

/-- Level totals answer unless self-trade prevention is on. -/
def fillableAgg : FokCheck := fun S limit owner stp l need =>
  if stp = .none then fillableTotals S limit (totals l) need else
    fillableSeq S limit owner stp l need

/-- The live order with this id and its side. -/
def lookup (A : PriorityBook) (id : OrderId) : Option (Side × Resting) :=
  match (A .buy).find? (·.id = id) with
  | some e => some (.buy, e)
  | none => ((A .sell).find? (·.id = id)).map fun e => (.sell, e)

def count (A : PriorityBook) : Nat := (A .buy).length + (A .sell).length

def crosses (A : PriorityBook) (S : Side) (limit : Int) : Bool :=
  match A (opposite S) with
  | [] => false
  | e :: _ => inRange S limit e.level

/-- The remainder of an order joins its side, or is cancelled when the book is full. -/
def rest (A : PriorityBook) (S : Side) (e : Resting) : PriorityBook × List Event :=
  if R.cfg.maxOrders ≤ count A then
    (A, [canceledEvent R.symbol e.id S (R.priceOf e.level) e.qty .bookFull])
  else (Function.update A S (join S e (A S)), [])

/-- Sweep, then cancel or rest the remainder: the part shared by a new order and a
re-entered one. `px` is the price its own events carry and `mayRest` whether it is a day order. -/
def enter (A : PriorityBook) (S : Side) (id : OrderId) (owner : OwnerId) (limit : Int) (qty : Qty)
    (stp : Stp) (px : Price) (mayRest : Bool) : PriorityBook × List Event :=
  let o := sweep R S id owner limit stp (A (opposite S)) qty
  let B := Function.update A (opposite S) o.makers
  if o.qty = 0 then (B, o.events)
  else if o.stop then
    (B, o.events ++ [canceledEvent R.symbol id S px o.qty .selfTrade])
  else if ¬ mayRest then
    (B, o.events ++ [canceledEvent R.symbol id S px o.qty .iocExpired])
  else
    let (C, evs) := rest R B S ⟨limit.toNat, id, o.qty, owner⟩
    (C, o.events ++ evs)

def add (fok : FokCheck) (A : PriorityBook) (c : Command) : PriorityBook × List Event :=
  let S := c.side
  if c.orderId = 0 then (A, [rejectedEvent c .invalidOrderId])
  else if c.qty = 0 then (A, [rejectedEvent c .invalidQty])
  else match R.limitOf S c with
  | none => (A, [rejectedEvent c .invalidPrice])
  | some limit =>
    if (lookup A c.orderId).isSome then (A, [rejectedEvent c .duplicateOrderId])
    else if c.flags &&& kFlagPostOnly ≠ 0 ∧ crosses A S limit then
      (A, [rejectedEvent c .wouldCross])
    else
      let px := c.eventPrice
      let ev := acceptedEvent R.symbol c.orderId S px c.qty
      let stp := effectiveStp c.flags R.cfg.stp
      if c.tif = .fok ∧ ¬ fok S limit c.owner stp (A (opposite S)) c.qty then
        (A, [ev, canceledEvent R.symbol c.orderId S px c.qty .fokUnfilled])
      else
        let (B, evs) := enter R A S c.orderId c.owner limit c.qty stp px
          (c.ordType = .limit ∧ c.tif = .day)
        (B, ev :: evs)

def cancel (A : PriorityBook) (c : Command) : PriorityBook × List Event :=
  match lookup A c.orderId with
  | none => (A, [rejectedEvent c .unknownOrder])
  | some (S, e) =>
      (Function.update A S (eraseId c.orderId (A S)),
        [canceledEvent R.symbol c.orderId S (R.priceOf e.level) e.qty .userCanceled])

def modify (A : PriorityBook) (c : Command) : PriorityBook × List Event :=
  if c.qty = 0 then (A, [rejectedEvent c .invalidQty])
  else match lookup A c.orderId with
  | none => (A, [rejectedEvent c .unknownOrder])
  | some (S, e) =>
    match R.relOf c.price with
    | none => (A, [rejectedEvent c .invalidPrice])
    | some ix =>
      let ev := modifiedEvent R.symbol c.orderId S c.price c.qty
      if ix = e.level ∧ c.qty ≤ e.qty then
        (Function.update A S (setQty c.orderId c.qty (A S)), [ev])
      else
        let (B, evs) :=
          enter R (Function.update A S (eraseId c.orderId (A S))) S c.orderId e.owner ix
          c.qty R.cfg.stp (R.priceOf ix) true
        (B, ev :: evs)

def process (fok : FokCheck) (A : PriorityBook) (c : Command) : PriorityBook × List Event :=
  match c.type with
  | .newOrder => add R fok A c
  | .cancel => cancel R A c
  | .modify => modify R A c

def run (fok : FokCheck) (A : PriorityBook) : List Command → PriorityBook × List (List Event)
  | [] => (A, [])
  | c :: cs =>
      let (B, evs) := process R fok A c
      let (C, rest) := run fok B cs
      (C, evs :: rest)

def empty : PriorityBook := fun _ => []

structure Ok (A : PriorityBook) : Prop where
  sorted : ∀ S, (A S).Pairwise fun x y => ahead S x.level y.level
  positive : ∀ S, ∀ e ∈ A S, e.qty ≠ 0
  level_lt : ∀ S, ∀ e ∈ A S, e.level < R.cfg.numLevels
  distinct : (A .buy ++ A .sell).Pairwise fun x y => x.id ≠ y.id
  uncrossed : ∀ x ∈ A .buy, ∀ y ∈ A .sell, x.level < y.level
  count_le : count A ≤ R.cfg.maxOrders

/-- No two resting orders have the same id. -/
def Distinct (A : PriorityBook) : Prop := ((A .buy ++ A .sell).map (·.id)).Nodup

theorem Ok.ids {R : Rules} {A : PriorityBook} (h : Ok R A) : Distinct A :=
  List.pairwise_map.mpr h.distinct

theorem Distinct.unique {A : PriorityBook} (h : Distinct A) {S T : Side} {x y : Resting}
    (hx : x ∈ A S) (hy : y ∈ A T) (he : x.id = y.id) : S = T ∧ x = y := by
  rw [Distinct, List.map_append, List.nodup_append] at h
  obtain ⟨hb, hs, hd⟩ := h
  have hsame : ∀ U, ((A U).map (·.id)).Nodup := by
    intro U
    cases U
    · exact hb
    · exact hs
  cases S <;> cases T
  · exact ⟨rfl, List.inj_on_of_nodup_map (hsame .buy) hx hy he⟩
  · exact absurd he (hd _ (List.mem_map_of_mem hx) _ (List.mem_map_of_mem hy))
  · exact absurd he.symm (hd _ (List.mem_map_of_mem hy) _ (List.mem_map_of_mem hx))
  · exact ⟨rfl, List.inj_on_of_nodup_map (hsame .sell) hx hy he⟩

theorem Distinct.nodup {A : PriorityBook} (h : Distinct A) (S : Side) :
    ((A S).map (·.id)).Nodup := by
  rw [Distinct, List.map_append, List.nodup_append] at h
  cases S
  · exact h.1
  · exact h.2.1

theorem Distinct.update {A : PriorityBook} (h : Distinct A) {T : Side} {l : List Resting}
    (hl : (l.map (·.id)).Sublist ((A T).map (·.id))) : Distinct (Function.update A T l) := by
  rw [Distinct, List.map_append] at h ⊢
  refine h.sublist ?_
  cases T
  · exact hl.append (List.Sublist.refl _)
  · exact (List.Sublist.refl _).append hl

theorem lookup_mem {A : PriorityBook} {id : OrderId} {S : Side} {e : Resting}
    (h : lookup A id = some (S, e)) :
    e ∈ A S ∧ e.id = id := by
  simp only [lookup] at h
  split at h
  · rename_i x hx
    cases h
    exact ⟨List.mem_of_find?_eq_some hx, by simpa using List.find?_some hx⟩
  · rw [Option.map_eq_some_iff] at h
    obtain ⟨x, hx, he⟩ := h
    cases he
    exact ⟨List.mem_of_find?_eq_some hx, by simpa using List.find?_some hx⟩

theorem lookup_eq_none {A : PriorityBook} {id : OrderId} (h : lookup A id = none) :
    ∀ S, ∀ e ∈ A S, e.id ≠ id := by
  simp only [lookup] at h
  split at h
  · cases h
  · rename_i hb
    rw [Option.map_eq_none_iff] at h
    intro S e he
    cases S
    · simpa using List.find?_eq_none.mp hb e he
    · simpa using List.find?_eq_none.mp h e he

theorem Distinct.lookup_eq {A : PriorityBook} (h : Distinct A) {S : Side} {e : Resting}
    (he : e ∈ A S) :
    lookup A e.id = some (S, e) := by
  cases hl : lookup A e.id with
  | none => exact absurd rfl (lookup_eq_none hl S e he)
  | some p =>
      obtain ⟨T, x⟩ := p
      obtain ⟨hx, hid⟩ := lookup_mem hl
      obtain ⟨rfl, rfl⟩ := h.unique hx he hid
      rfl

theorem mem_erased {A : PriorityBook} {S U : Side} {id : OrderId} {x : Resting} :
    x ∈ Function.update A S (eraseId id (A S)) U ↔ x ∈ A U ∧ (U = S → x.id ≠ id) := by
  by_cases hU : U = S
  · subst hU
    rw [Function.update_self, eraseId, List.mem_filter]
    simp
  · rw [Function.update_of_ne hU]
    simp [hU]

/-- What a command can do: it is refused, it takes an order out, it makes one smaller in place, it
is killed unfilled, or its order enters the book, anew or again. -/
theorem process_cases (fok : FokCheck) (A : PriorityBook) (c : Command) :
    let r := process R fok A c
    let accepted := acceptedEvent R.symbol c.orderId c.side c.eventPrice c.qty
    let stp := effectiveStp c.flags R.cfg.stp
    (∃ reason, r = (A, [rejectedEvent c reason])) ∨
    (∃ S e, c.type = .cancel ∧ lookup A c.orderId = some (S, e) ∧
      r = (Function.update A S (eraseId c.orderId (A S)),
        [canceledEvent R.symbol c.orderId S (R.priceOf e.level) e.qty .userCanceled])) ∨
    (∃ S e, c.type = .modify ∧ c.qty ≠ 0 ∧ lookup A c.orderId = some (S, e) ∧
      R.relOf c.price = some e.level ∧
      c.qty ≤ e.qty ∧ r = (Function.update A S (setQty c.orderId c.qty (A S)),
        [modifiedEvent R.symbol c.orderId S c.price c.qty])) ∨
    (∃ limit, c.type = .newOrder ∧ c.qty ≠ 0 ∧ lookup A c.orderId = none ∧
      R.limitOf c.side c = some limit ∧
      c.tif = .fok ∧ fok c.side limit c.owner stp (A (opposite c.side)) c.qty = false ∧
      r = (A, [accepted, canceledEvent R.symbol c.orderId c.side c.eventPrice c.qty
        .fokUnfilled])) ∨
    (∃ limit, c.type = .newOrder ∧ c.qty ≠ 0 ∧ lookup A c.orderId = none ∧
      R.limitOf c.side c = some limit ∧
      (c.tif = .fok → fok c.side limit c.owner stp (A (opposite c.side)) c.qty = true) ∧
      let n := enter R A c.side c.orderId c.owner limit c.qty stp c.eventPrice
        (c.ordType = .limit ∧ c.tif = .day)
      r = (n.1, accepted :: n.2)) ∨
    (∃ S e ix, c.type = .modify ∧ c.qty ≠ 0 ∧ lookup A c.orderId = some (S, e) ∧
      R.relOf c.price = some ix ∧
      ¬ (ix = e.level ∧ c.qty ≤ e.qty) ∧
      let n := enter R (Function.update A S (eraseId c.orderId (A S))) S c.orderId e.owner
        ix c.qty R.cfg.stp
        (R.priceOf ix) true
      r = (n.1, modifiedEvent R.symbol c.orderId S c.price c.qty :: n.2)) := by
  simp only [process]
  cases hty : c.type with
  | newOrder =>
      simp only [add]
      by_cases hid0 : c.orderId = 0
      · exact .inl ⟨_, by rw [if_pos hid0]⟩
      by_cases hq0 : c.qty = 0
      · exact .inl ⟨_, by rw [if_neg hid0, if_pos hq0]⟩
      rw [if_neg hid0, if_neg hq0]
      cases hlimit : R.limitOf c.side c with
      | none => exact .inl ⟨_, rfl⟩
      | some limit =>
      cases hlook : lookup A c.orderId with
      | some p => exact .inl ⟨_, rfl⟩
      | none =>
      simp only [Option.isSome_none, Bool.false_eq_true, if_false]
      split
      · exact .inl ⟨_, rfl⟩
      split
      · rename_i hkill
        exact .inr (.inr (.inr (.inl ⟨limit, trivial, hq0, trivial, rfl,
          hkill.1, by simpa using hkill.2, rfl⟩)))
      · rename_i hgo
        refine .inr (.inr (.inr (.inr
          (.inl ⟨limit, trivial, hq0, trivial, rfl, fun hfok => ?_, rfl⟩))))
        by_contra hnot
        exact hgo ⟨hfok, hnot⟩
  | cancel =>
      simp only [cancel]
      cases hlook : lookup A c.orderId with
      | none => exact .inl ⟨_, rfl⟩
      | some p => exact .inr (.inl ⟨p.1, p.2, trivial, rfl, rfl⟩)
  | modify =>
      simp only [modify]
      by_cases hq0 : c.qty = 0
      · exact .inl ⟨_, by rw [if_pos hq0]⟩
      rw [if_neg hq0]
      cases hlook : lookup A c.orderId with
      | none => exact .inl ⟨_, rfl⟩
      | some p =>
      obtain ⟨S, e⟩ := p
      cases hrel : R.relOf c.price with
      | none => exact .inl ⟨_, rfl⟩
      | some ix =>
      simp only
      by_cases hkeep : ix = e.level ∧ c.qty ≤ e.qty
      · rw [if_pos hkeep]
        exact .inr (.inr (.inl ⟨S, e, trivial, hq0, rfl, by rw [hkeep.1], hkeep.2, rfl⟩))
      · rw [if_neg hkeep]
        exact .inr (.inr (.inr (.inr (.inr ⟨S, e, ix, trivial, hq0, rfl, rfl, hkeep, rfl⟩))))

section Shape

variable {R} {A : PriorityBook}

/-- What stays of an order while it rests. -/
def key (e : Resting) : Nat × OrderId := (e.level, e.id)

theorem sweep_keys (S : Side) (taker : OrderId) (owner : OwnerId) (limit : Int) (stp : Stp)
    (l : List Resting) (q : Qty) :
    ((sweep R S taker owner limit stp l q).makers.map key).Sublist (l.map key) := by
  obtain ⟨p, r, rfl, hres | ⟨x, xs, q', rfl, _, _, hres⟩⟩ :=
    sweep_makers R S taker owner limit stp l q
  · rw [hres, List.map_append]
    exact List.sublist_append_right ..
  · rw [hres, List.map_append]
    exact List.sublist_append_right ..

theorem sweep_qty_le (S : Side) (taker : OrderId) (owner : OwnerId) (limit : Int) (stp : Stp)
    (l : List Resting) (q : Qty) : (sweep R S taker owner limit stp l q).qty ≤ q := by
  induction l generalizing q with
  | nil => exact UInt64.le_refl q
  | cons e es ih =>
      have hgo : ∀ q' evs, sweep R S taker owner limit stp (e :: es) q =
          (sweep R S taker owner limit stp es q').behind evs → q' ≤ q →
          (sweep R S taker owner limit stp (e :: es) q).qty ≤ q := by
        intro q' evs heq hle
        rw [heq]
        exact UInt64.le_trans (ih q') hle
      rcases sweep_cases R S taker owner limit stp e es q with ⟨ho, _⟩ | ⟨_, _, hcase⟩
      · rw [ho]
        exact UInt64.le_refl q
      rcases hcase with ⟨ho, _⟩ | ⟨ho, _⟩ | ⟨ho, _⟩ | ⟨ho, _, _, hlt⟩ | ⟨ho, _⟩ |
        ⟨ho, _⟩ | ⟨ho, _, hle⟩
      · rw [ho]
        exact UInt64.le_refl q
      · rw [ho]
        exact UInt64.le_refl q
      · rw [ho]
        exact UInt64.le_refl q
      · exact hgo _ _ ho (by grind)
      · exact hgo _ _ ho (UInt64.le_refl q)
      · rw [ho]
        simp only
        grind
      · exact hgo _ _ ho (by grind)

theorem enter_book (S : Side) (id : OrderId) (owner : OwnerId) (limit : Int) (qty : Qty)
    (stp : Stp) (px : Price) (mayRest : Bool) :
    let o := sweep R S id owner limit stp (A (opposite S)) qty
    let B := Function.update A (opposite S) o.makers
    (enter R A S id owner limit qty stp px mayRest).1 = B ∨
      (mayRest = true ∧ (enter R A S id owner limit qty stp px mayRest).1 =
        Function.update B S (join S ⟨limit.toNat, id, o.qty, owner⟩ (A S))) := by
  intro o B
  have hside : B S = A S := Function.update_of_ne (ne_opposite S) _ _
  simp only [enter]
  split
  · exact .inl rfl
  split
  · exact .inl rfl
  split
  · exact .inl rfl
  · rename_i hm
    rw [not_not] at hm
    simp only [rest]
    split
    · exact .inl rfl
    · exact .inr ⟨hm, by rw [← hside]⟩

/-- A book in which some orders are gone and others smaller. -/
def Shrunk (A B : PriorityBook) : Prop := ∀ U, ((B U).map key).Sublist ((A U).map key) ∧
  ∀ e ∈ B U, ∃ e' ∈ A U, e' = { e with qty := e'.qty } ∧ e.qty ≤ e'.qty

theorem Shrunk.refl (A : PriorityBook) : Shrunk A A :=
  fun _ => ⟨List.Sublist.refl _, fun e he => ⟨e, he, rfl, UInt64.le_refl _⟩⟩

theorem Shrunk.update {B : PriorityBook} (h : Shrunk A B) {S : Side} {l : List Resting}
    (hkeys : (l.map key).Sublist ((B S).map key))
    (hmem : ∀ e ∈ l, ∃ e' ∈ B S, e' = { e with qty := e'.qty } ∧ e.qty ≤ e'.qty) :
    Shrunk A (Function.update B S l) := by
  intro U
  by_cases hU : U = S
  · subst hU
    rw [Function.update_self]
    refine ⟨hkeys.trans (h U).1, fun e he => ?_⟩
    obtain ⟨e₁, he₁, heq₁, hle₁⟩ := hmem e he
    obtain ⟨e₂, he₂, heq₂, hle₂⟩ := (h U).2 e₁ he₁
    refine ⟨e₂, he₂, ?_, UInt64.le_trans hle₁ hle₂⟩
    rw [heq₁] at heq₂
    exact heq₂
  · rw [Function.update_of_ne hU]
    exact h U

theorem Shrunk.eraseId (A : PriorityBook) (S : Side) (id : OrderId) :
    Shrunk A (Function.update A S (eraseId id (A S))) :=
  (Shrunk.refl A).update (List.filter_sublist.map _) fun e he =>
    ⟨e, (List.mem_filter.mp he).1, rfl, UInt64.le_refl _⟩

/-- The book after an order has been queued: it left if it was there, the other orders may
have shrunk, and its remainder may have joined a side. -/
def Queued (R : Rules) (A : PriorityBook) (c : Command) (C : PriorityBook) : Prop :=
  ∃ B, Shrunk A B ∧ (∀ U, ∀ e ∈ B U, e.id ≠ c.orderId) ∧
    (C = B ∨ ∃ S e, e.id = c.orderId ∧ e.qty ≤ c.qty ∧ R.relOf c.price = some e.level ∧
      C = Function.update B S (join S e (B S)))

theorem Queued.enter {B : PriorityBook} (h : Shrunk A B) {c : Command}
    (hid : ∀ U, ∀ e ∈ B U, e.id ≠ c.orderId) (S : Side) (owner : OwnerId) (limit : Int) (stp : Stp)
    (px : Price) (mayRest : Bool) (hrest : mayRest = true → R.relOf c.price = some limit.toNat) :
    Queued R A c (PriorityBook.enter R B S c.orderId owner limit c.qty stp px mayRest).1 := by
  have hsub := sweep_sub R S c.orderId owner limit stp (B (opposite S)) c.qty
  have hkeys := sweep_keys (R := R) S c.orderId owner limit stp (B (opposite S)) c.qty
  have hqty := sweep_qty_le (R := R) S c.orderId owner limit stp (B (opposite S)) c.qty
  have hbook := enter_book (R := R) (A := B) S c.orderId owner limit c.qty stp px mayRest
  simp only at hbook
  generalize sweep R S c.orderId owner limit stp (B (opposite S)) c.qty = o at *
  refine ⟨Function.update B (opposite S) o.makers, h.update hkeys hsub, ?_, ?_⟩
  · intro U e he
    by_cases hU : U = opposite S
    · subst hU
      rw [Function.update_self] at he
      obtain ⟨e', he', heq, _⟩ := hsub e he
      have := hid _ e' he'
      rw [heq] at this
      exact this
    · rw [Function.update_of_ne hU] at he
      exact hid U e he
  · refine hbook.imp_right fun ⟨hm, heq⟩ =>
      ⟨S, ⟨limit.toNat, c.orderId, o.qty, owner⟩, rfl, hqty, hrest hm, ?_⟩
    rw [heq, Function.update_of_ne (ne_opposite S)]

/-- The command gave its order a place at the back of a queue, or tried to. -/
def queues (R : Rules) (A : PriorityBook) (c : Command) (evs : List Event) : Bool :=
  match c.type, evs.head?.map Event.type with
  | .newOrder, some .accepted => true
  | .modify, some .modified =>
      match lookup A c.orderId with
      | some (_, e) => decide (R.priceOf e.level ≠ c.price ∨ e.qty < c.qty)
      | none => false
  | _, _ => false

theorem process_shape (hsmall : R.cfg.numLevels ≤ 2 ^ 30) (ok : Ok R A)
    (fok : FokCheck) (c : Command) :
    let r := process R fok A c
    (queues R A c r.2 = false ∧ Shrunk A r.1) ∨ (queues R A c r.2 = true ∧ Queued R A c r.1) := by
  have hrej : ∀ reason, queues R A c [rejectedEvent c reason] = false := by
    intro reason
    cases hty : c.type <;> simp [queues, hty, rejectedEvent]
  have hsame : ∀ reason, (queues R A c [rejectedEvent c reason] = false ∧ Shrunk A A) ∨
      (queues R A c [rejectedEvent c reason] = true ∧ Queued R A c A) :=
    fun reason => .inl ⟨hrej reason, Shrunk.refl A⟩
  simp only [process]
  cases hty : c.type with
  | newOrder =>
      simp only [add]
      by_cases hid0 : c.orderId = 0
      · simp only [if_pos hid0]
        exact hsame _
      by_cases hq0 : c.qty = 0
      · simp only [if_neg hid0, if_pos hq0]
        exact hsame _
      simp only [if_neg hid0, if_neg hq0]
      cases hlimit : R.limitOf c.side c with
      | none => exact hsame _
      | some limit =>
      cases hlook : lookup A c.orderId with
      | some p =>
          simp only [Option.isSome_some, if_true]
          exact hsame _
      | none =>
      simp only [Option.isSome_none, Bool.false_eq_true, if_false]
      have hnew := lookup_eq_none hlook
      split
      · exact hsame _
      split
      · exact .inr ⟨by simp [queues, hty, acceptedEvent], A, Shrunk.refl A, hnew, .inl rfl⟩
      · refine .inr ⟨by simp [queues, hty, acceptedEvent], ?_⟩
        refine Queued.enter (Shrunk.refl A) hnew _ _ _ _ _ _ fun hm => ?_
        obtain ⟨hlim, _⟩ := of_decide_eq_true hm
        simp only [Rules.limitOf, hlim] at hlimit
        obtain ⟨ix, hix, rfl⟩ := Option.map_eq_some_iff.mp hlimit
        exact hix
  | cancel =>
      simp only [cancel]
      split
      · exact hsame _
      · exact .inl ⟨by simp [queues, hty], Shrunk.eraseId A _ _⟩
  | modify =>
      simp only [modify]
      split
      · exact hsame _
      cases hlook : lookup A c.orderId with
      | none => exact hsame _
      | some p =>
      obtain ⟨S, e⟩ := p
      obtain ⟨he, hid⟩ := lookup_mem hlook
      simp only
      cases hrel : R.relOf c.price with
      | none => exact hsame _
      | some ix =>
      have hprice : R.priceOf e.level = c.price ↔ ix = e.level := by
        rw [← Rules.priceOf_relOf hrel]
        exact ⟨fun heq =>
          Rules.priceOf_inj hsmall (Rules.relOf_lt hrel) (ok.level_lt S e he) heq.symm,
          fun heq => by rw [heq]⟩
      simp only
      split
      · rename_i hkeep
        refine .inl ⟨?_, (Shrunk.refl A).update ?_ ?_⟩
        · simp [queues, hty, modifiedEvent, hlook, hprice, hkeep]
        · have hmap : (setQty c.orderId c.qty (A S)).map key = (A S).map key := by
            rw [setQty, List.map_map]
            refine List.map_congr_left fun x _ => ?_
            simp only [Function.comp_apply]
            split <;> rfl
          rw [hmap]
        · intro x hx
          obtain ⟨y, hy, rfl⟩ := List.mem_map.mp hx
          refine ⟨y, hy, ?_⟩
          split
          · rename_i hy'
            obtain ⟨_, rfl⟩ := ok.ids.unique hy he (hy'.trans hid.symm)
            exact ⟨rfl, hkeep.2⟩
          · exact ⟨rfl, UInt64.le_refl _⟩
      · rename_i hmove
        refine .inr ⟨?_, ?_⟩
        · rw [not_and_or, UInt64.not_le] at hmove
          simp [queues, hty, modifiedEvent, hlook, hprice, hmove]
        · refine Queued.enter (Shrunk.eraseId A S c.orderId) ?_ _ _ _ _ _ _ fun _ => by
            simpa using hrel
          intro U x hx
          by_cases hU : U = S
          · subst hU
            rw [Function.update_self] at hx
            simpa using (List.mem_filter.mp hx).2
          · rw [Function.update_of_ne hU] at hx
            exact fun heq => hU (ok.ids.unique hx he (heq.trans hid.symm)).1

theorem process_mem (hsmall : R.cfg.numLevels ≤ 2 ^ 30) (ok : Ok R A) (fok : FokCheck)
    (c : Command) (S : Side) :
    ∀ e ∈ (process R fok A c).1 S, (∃ e' ∈ A S, e' = { e with qty := e'.qty } ∧ e.qty ≤ e'.qty) ∨
      (e.id = c.orderId ∧ e.qty ≤ c.qty ∧ R.relOf c.price = some e.level) := by
  intro e he
  rcases process_shape hsmall ok fok c with ⟨_, h⟩ |
    ⟨_, B, h, _, heq | ⟨T, x, hid, hqty, hrel, heq⟩⟩
  · exact .inl ((h S).2 e he)
  · rw [heq] at he
    exact .inl ((h S).2 e he)
  · rw [heq] at he
    by_cases hS : S = T
    · subst hS
      rw [Function.update_self] at he
      rcases mem_join.mp he with rfl | he
      · exact .inr ⟨hid, hqty, hrel⟩
      · exact .inl ((h S).2 e he)
    · rw [Function.update_of_ne hS] at he
      exact .inl ((h S).2 e he)

end Shape

end PriorityBook
end ExchangeSim.Book
