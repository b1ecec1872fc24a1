/- digest: Matching does not depend on how orders are named, nor on who owns them unless self-trade
   prevention asks. -/

import ExchangeSim.Book.PriorityBook

set_option autoImplicit false
set_option relaxedAutoImplicit false

namespace ExchangeSim.Book

open PriorityBook

structure Relabel where
  id : OrderId → OrderId
  owner : OwnerId → OwnerId

namespace Relabel

variable (ρ : Relabel)

def order (e : Resting) : Resting := { e with id := ρ.id e.id, owner := ρ.owner e.owner }

def book (A : PriorityBook) : PriorityBook := fun S => (A S).map ρ.order

def command (c : Command) : Command :=
  { c with orderId := ρ.id c.orderId, owner := ρ.owner c.owner }

/-- An event without a maker stays without one. -/
def event (e : Event) : Event :=
  { e with orderId := ρ.id e.orderId, makerId := if e.makerId = 0 then 0 else ρ.id e.makerId }

def outcome (o : Outcome) : Outcome := ⟨o.makers.map ρ.order, o.qty, o.stop, o.events.map ρ.event⟩

/-- What a book says of a command, in the other names. -/
def answer (r : PriorityBook × List Event) : PriorityBook × List Event :=
  (ρ.book r.1, r.2.map ρ.event)

@[simp] theorem order_id (e : Resting) : (ρ.order e).id = ρ.id e.id := rfl
@[simp] theorem order_owner (e : Resting) : (ρ.order e).owner = ρ.owner e.owner := rfl
@[simp] theorem order_level (e : Resting) : (ρ.order e).level = e.level := rfl
@[simp] theorem order_qty (e : Resting) : (ρ.order e).qty = e.qty := rfl
@[simp] theorem command_orderId (c : Command) : (ρ.command c).orderId = ρ.id c.orderId := rfl
@[simp] theorem command_owner (c : Command) : (ρ.command c).owner = ρ.owner c.owner := rfl

theorem event_canceled (s : SymbolId) (id : OrderId) (S : Side) (px : Price)
    (q : Qty) (r : Reason) :
    ρ.event (canceledEvent s id S px q r) = canceledEvent s (ρ.id id) S px q r := rfl

theorem event_trade (s : SymbolId) (taker : OrderId) {maker : OrderId} (h : maker ≠ 0) (S : Side)
    (px : Price) (q left : Qty) :
    ρ.event (tradeEvent s taker maker S px q left) = tradeEvent s (ρ.id taker)
      (ρ.id maker) S px q left := by
  simp [event, tradeEvent, h]

theorem outcome_behind (evs : List Event) (o : Outcome) :
    ρ.outcome (o.behind evs) = (ρ.outcome o).behind (evs.map ρ.event) := by
  simp [outcome, Outcome.behind]

theorem book_update (A : PriorityBook) (S : Side) (l : List Resting) :
    ρ.book (Function.update A S l) = Function.update (ρ.book A) S (l.map ρ.order) := by
  ext1 U
  by_cases hU : U = S
  · subst hU
    simp [book]
  · simp [book, Function.update_of_ne hU]

theorem book_congr {ρ ρ' : Relabel} {A : PriorityBook}
    (hid : ∀ U, ∀ e ∈ A U, ρ.id e.id = ρ'.id e.id) (howner : ρ.owner = ρ'.owner) :
    ρ.book A = ρ'.book A := by
  ext1 U
  refine List.map_congr_left fun e he => ?_
  simp only [order, hid U e he, howner]

end Relabel

/-! ### The sweep -/

section Sweep

variable (R : Rules) {ρ : Relabel} (S : Side) {owner : OwnerId} (limit : Int) {stp : Stp}
    {l : List Resting}

/-- Self-trade prevention is off, or asks the same of the other names. -/
def SameSelf (ρ : Relabel) (owner : OwnerId) (stp : Stp) (l : List Resting) : Prop :=
  stp = .none ∨ ∀ e ∈ l, ρ.owner e.owner = ρ.owner owner → e.owner = owner

theorem SameSelf.tail {e : Resting} (h : SameSelf ρ owner stp (e :: l)) : SameSelf ρ owner stp l :=
  h.imp_right fun hall x hx => hall x (List.mem_cons_of_mem e hx)

theorem SameSelf.head_iff {e : Resting} (h : SameSelf ρ owner stp (e :: l)) :
    (stp ≠ .none ∧ (ρ.order e).owner = ρ.owner owner) ↔ (stp ≠ .none ∧ e.owner = owner) := by
  refine and_congr_right fun hon => ⟨h.resolve_left hon e List.mem_cons_self, ?_⟩
  intro heq
  rw [Relabel.order_owner, heq]

theorem sweep_relabel (taker : OrderId) (hzero : ∀ e ∈ l, e.id ≠ 0)
    (hself : SameSelf ρ owner stp l) (q : Qty) :
    sweep R S (ρ.id taker) (ρ.owner owner) limit stp (l.map ρ.order) q = ρ.outcome
      (sweep R S taker owner limit stp l q) := by
  induction l generalizing q with
  | nil => rfl
  | cons e es ih =>
      have ih := ih (fun x hx => hzero x (List.mem_cons_of_mem e hx)) hself.tail
      have htrade :
        ∀ q left, [tradeEvent R.symbol (ρ.id taker) (ρ.id e.id) S (R.priceOf e.level) q left] =
          [tradeEvent R.symbol taker e.id S (R.priceOf e.level) q left].map ρ.event := by
        intro q left
        rw [List.map_singleton, ρ.event_trade _ _ (hzero e List.mem_cons_self)]
      have hmine := hself.head_iff
      obtain ⟨level, id, qty, holder⟩ := e
      rw [List.map_cons, sweep, sweep]
      dsimp only [Relabel.order] at hmine htrade ⊢
      simp only [hmine, ih, htrade]
      by_cases hend : q = 0 ∨ ¬ inRange S limit level = true
      · rw [if_pos hend, if_pos hend]
        rfl
      rw [if_neg hend, if_neg hend]
      by_cases hmine : stp ≠ .none ∧ holder = owner
      · rw [if_pos hmine, if_pos hmine]
        by_cases hin : stp = .cancelIncoming
        · rw [if_pos hin, if_pos hin]
          rfl
        rw [if_neg hin, if_neg hin]
        by_cases hshort : stp = .decrementCancel ∧ q < qty
        · rw [if_pos hshort, if_pos hshort]
          rfl
        rw [if_neg hshort, if_neg hshort]
        by_cases hdec : stp = .decrementCancel
        · rw [if_pos hdec, if_pos hdec]
          by_cases heq : qty = q
          · rw [if_pos heq, if_pos heq]
            rfl
          · rw [if_neg heq, if_neg heq, Relabel.outcome_behind]
            rfl
        · rw [if_neg hdec, if_neg hdec, Relabel.outcome_behind]
          rfl
      · rw [if_neg hmine, if_neg hmine]
        have hfill : ∀ fill : Qty, (if qty - fill ≠ 0 then
            (⟨⟨level, ρ.id id, qty - fill, ρ.owner holder⟩ :: es.map ρ.order, q - fill, false,
              [tradeEvent R.symbol taker id S (R.priceOf level) fill (qty - fill)].map ρ.event⟩ :
                Outcome)
            else (ρ.outcome (sweep R S taker owner limit stp es (q - fill))).behind
              ([tradeEvent R.symbol taker id S (R.priceOf level) fill (qty - fill)].map ρ.event)) =
            ρ.outcome (if qty - fill ≠ 0 then
              ⟨⟨level, id, qty - fill, holder⟩ :: es, q - fill, false,
                [tradeEvent R.symbol taker id S (R.priceOf level) fill (qty - fill)]⟩
              else (sweep R S taker owner limit stp es (q - fill)).behind
                [tradeEvent R.symbol taker id S (R.priceOf level) fill (qty - fill)]) := by
          intro fill
          split
          · rfl
          · rw [Relabel.outcome_behind]
        exact hfill (if qty < q then qty else q)

theorem fillableSeq_relabel (hself : SameSelf ρ owner stp l) (need : Qty) :
    fillableSeq S limit (ρ.owner owner) stp
      (l.map ρ.order) need = fillableSeq S limit owner stp l need := by
  induction l generalizing need with
  | nil => rfl
  | cons e es ih =>
      rw [List.map_cons, fillableSeq, fillableSeq]
      simp only [hself.head_iff, Relabel.order_level, Relabel.order_qty, ih hself.tail]

theorem totals_relabel (ρ : Relabel) (l : List Resting) : totals (l.map ρ.order) = totals l := by
  induction l with
  | nil => rfl
  | cons e es ih => rw [List.map_cons, totals, totals, ih, Relabel.order_level, Relabel.order_qty]

theorem fillableAgg_relabel (hself : SameSelf ρ owner stp l) (need : Qty) :
    fillableAgg S limit (ρ.owner owner) stp
      (l.map ρ.order) need = fillableAgg S limit owner stp l need := by
  rw [fillableAgg, fillableAgg, totals_relabel, fillableSeq_relabel S limit hself]

end Sweep

theorem join_relabel (ρ : Relabel) (S : Side) (e : Resting) (l : List Resting) :
    join S (ρ.order e) (l.map ρ.order) = (join S e l).map ρ.order := by
  induction l with
  | nil => rfl
  | cons x xs ih =>
      rw [List.map_cons, join, join, Relabel.order_level, Relabel.order_level, ih]
      split <;> rfl

/-! ### The operations -/

section Operations

variable (R : Rules) {ρ : Relabel} {A : PriorityBook} {x : OrderId}

theorem find_relabel {l : List Resting} (hx : ∀ e ∈ l, ρ.id e.id = ρ.id x → e.id = x) :
    (l.map ρ.order).find? (·.id = ρ.id x) = (l.find? (·.id = x)).map ρ.order := by
  induction l with
  | nil => rfl
  | cons e es ih =>
      have ih := ih fun y hy => hx y (List.mem_cons_of_mem e hy)
      rw [List.map_cons, List.find?_cons, List.find?_cons, ih]
      by_cases he : e.id = x
      · simp [he]
      · have hne : ρ.id e.id ≠ ρ.id x := fun heq => he (hx e List.mem_cons_self heq)
        simp [he, hne]

variable (hx : ∀ U, ∀ e ∈ A U, ρ.id e.id = ρ.id x → e.id = x)

include hx

theorem lookup_relabel : lookup (ρ.book A) (ρ.id x) = (lookup A x).map fun p =>
    (p.1, ρ.order p.2) := by
  rw [lookup, lookup, Relabel.book, Relabel.book, find_relabel (hx .buy), find_relabel (hx .sell)]
  cases (A .buy).find? (·.id = x) with
  | some e => rfl
  | none => cases (A .sell).find? (·.id = x) <;> rfl

theorem eraseId_relabel (S : Side) :
    eraseId (ρ.id x) ((A S).map ρ.order) = (eraseId x (A S)).map ρ.order := by
  rw [eraseId, eraseId, List.filter_map]
  congr 1
  refine List.filter_congr fun e he => ?_
  have hiff : ρ.id e.id = ρ.id x ↔ e.id = x := ⟨hx S e he, fun heq => by rw [heq]⟩
  simp [hiff]

theorem setQty_relabel (S : Side) (q : Qty) :
    setQty (ρ.id x) q ((A S).map ρ.order) = (setQty x q (A S)).map ρ.order := by
  rw [setQty, setQty, List.map_map, List.map_map]
  refine List.map_congr_left fun e he => ?_
  have hiff : ρ.id e.id = ρ.id x ↔ e.id = x := ⟨hx S e he, fun heq => by rw [heq]⟩
  simp only [Function.comp_apply, Relabel.order_id, hiff]
  split <;> rfl

omit hx

theorem crosses_relabel (ρ : Relabel) (A : PriorityBook) (S : Side) (limit : Int) :
    crosses (ρ.book A) S limit = crosses A S limit := by
  rw [crosses, crosses, Relabel.book]
  cases A (opposite S) <;> rfl

theorem count_relabel (ρ : Relabel) (A : PriorityBook) : count (ρ.book A) = count A := by
  rw [count, count, Relabel.book, Relabel.book, List.length_map, List.length_map]

theorem rest_relabel (ρ : Relabel) (A : PriorityBook) (S : Side) (e : Resting) :
    rest R (ρ.book A) S (ρ.order e) = ρ.answer (rest R A S e) := by
  rw [rest, rest, count_relabel]
  split
  · rfl
  · change (Function.update (ρ.book A) S (join S (ρ.order e) ((A S).map ρ.order)), []) = _
    rw [join_relabel, ← Relabel.book_update]
    rfl

theorem enter_relabel (S : Side) {owner : OwnerId} (limit : Int) (qty : Qty) {stp : Stp}
    (px : Price) (mayRest : Bool) (hzero : ∀ U, ∀ e ∈ A U, e.id ≠ 0)
    (hself : SameSelf ρ owner stp (A (opposite S))) :
    enter R (ρ.book A) S (ρ.id x) (ρ.owner owner) limit qty stp px mayRest =
      ρ.answer (enter R A S x owner limit qty stp px mayRest) := by
  have hsweep := sweep_relabel R S limit x (hzero (opposite S)) hself qty
  simp only [enter]
  rw [show ρ.book A (opposite S) = (A (opposite S)).map ρ.order from rfl, hsweep]
  generalize sweep R S x owner limit stp (A (opposite S)) qty = o
  rw [Relabel.outcome]
  simp only [← Relabel.book_update]
  split
  · rfl
  split
  · simp [Relabel.answer, Relabel.event_canceled]
  split
  · simp [Relabel.answer, Relabel.event_canceled]
  · have hrest := rest_relabel R ρ (Function.update A (opposite S) o.makers) S
      ⟨limit.toNat, x, o.qty, owner⟩
    rw [show (⟨limit.toNat, ρ.id x, o.qty, ρ.owner owner⟩ : Resting) =
      ρ.order ⟨limit.toNat, x, o.qty, owner⟩ from rfl, hrest]
    simp [Relabel.answer]

end Operations

structure Relabel.Fits (ρ : Relabel) (R : Rules) (A : PriorityBook) (c : Command) : Prop where
  nonzero : ∀ U, ∀ e ∈ A U, e.id ≠ 0
  invalid : c.type = .newOrder → (ρ.id c.orderId = 0 ↔ c.orderId = 0)
  apart : ∀ U, ∀ e ∈ A U, ρ.id e.id = ρ.id c.orderId → e.id = c.orderId
  owners : (R.cfg.stp = .none ∧ effectiveStp c.flags R.cfg.stp = .none) ∨ Function.Injective ρ.owner

namespace Relabel.Fits

variable {R : Rules} {ρ : Relabel} {A : PriorityBook} {c : Command}

theorem add (h : ρ.Fits R A c) (hty : c.type = .newOrder) :
    PriorityBook.add R fillableAgg (ρ.book A) (ρ.command c) = ρ.answer
      (PriorityBook.add R fillableAgg A c) := by
  have hself : SameSelf ρ c.owner (effectiveStp c.flags R.cfg.stp) (A (opposite c.side)) :=
    h.owners.imp And.right fun hinj e _ heq => hinj heq
  have hlook : (lookup (ρ.book A) (ρ.command c).orderId).isSome = (lookup A c.orderId).isSome := by
    rw [Relabel.command_orderId, lookup_relabel h.apart, Option.isSome_map]
  have hlimit : R.limitOf (ρ.command c).side (ρ.command c) = R.limitOf c.side c := rfl
  rw [PriorityBook.add, PriorityBook.add]
  dsimp only
  by_cases hid : c.orderId = 0
  · rw [if_pos hid, if_pos (show (ρ.command c).orderId = 0 from (h.invalid hty).mpr hid)]
    rfl
  rw [if_neg hid, if_neg (show ¬ (ρ.command c).orderId = 0 from fun hx =>
    hid ((h.invalid hty).mp hx))]
  by_cases hqty : c.qty = 0
  · rw [if_pos hqty, if_pos (show (ρ.command c).qty = 0 from hqty)]
    rfl
  rw [if_neg hqty, if_neg (show ¬ (ρ.command c).qty = 0 from hqty), hlimit]
  cases R.limitOf c.side c with
  | none => rfl
  | some limit =>
      dsimp only
      rw [hlook]
      by_cases hdup : (lookup A c.orderId).isSome = true
      · rw [if_pos hdup, if_pos hdup]
        rfl
      rw [if_neg hdup, if_neg hdup, crosses_relabel]
      by_cases hpost : c.flags &&& kFlagPostOnly ≠ 0 ∧ crosses A c.side limit = true
      · rw [if_pos hpost, if_pos (show (ρ.command c).flags &&& kFlagPostOnly ≠ 0 ∧
          crosses A (ρ.command c).side limit = true
          from hpost)]
        rfl
      rw [if_neg hpost, if_neg (show ¬ ((ρ.command c).flags &&& kFlagPostOnly ≠ 0 ∧
        crosses A (ρ.command c).side limit = true)
        from hpost)]
      have hfok : fillableAgg (ρ.command c).side limit (ρ.command c).owner
        (effectiveStp (ρ.command c).flags R.cfg.stp)
          (ρ.book A (opposite (ρ.command c).side))
            (ρ.command c).qty = fillableAgg c.side limit c.owner
            (effectiveStp c.flags R.cfg.stp) (A (opposite c.side)) c.qty :=
              fillableAgg_relabel c.side limit hself c.qty
      rw [hfok]
      generalize fillableAgg c.side limit c.owner (effectiveStp c.flags R.cfg.stp)
        (A (opposite c.side)) c.qty = fillable
      by_cases hkill : c.tif = .fok ∧ ¬ fillable = true
      · rw [if_pos hkill, if_pos (show (ρ.command c).tif = .fok ∧ ¬ fillable = true from hkill)]
        rfl
      · rw [if_neg hkill, if_neg (show ¬ ((ρ.command c).tif = .fok ∧ ¬ fillable = true) from hkill)]
        have henter : PriorityBook.enter R (ρ.book A) (ρ.command c).side (ρ.command c).orderId
          (ρ.command c).owner limit
            (ρ.command c).qty (effectiveStp (ρ.command c).flags R.cfg.stp) (ρ.command c).eventPrice
            (decide ((ρ.command c).ordType = .limit ∧ (ρ.command c).tif = .day)) = ρ.answer
              (PriorityBook.enter R A c.side
              c.orderId c.owner limit c.qty (effectiveStp c.flags R.cfg.stp) c.eventPrice
              (decide (c.ordType = .limit ∧ c.tif = .day))) :=
          enter_relabel R c.side limit c.qty c.eventPrice _ h.nonzero hself
        rw [henter]
        rfl

theorem cancel (h : ρ.Fits R A c) :
    PriorityBook.cancel R (ρ.book A) (ρ.command c) = ρ.answer (PriorityBook.cancel R A c) := by
  have hlook := lookup_relabel h.apart
  rw [PriorityBook.cancel, PriorityBook.cancel, Relabel.command_orderId, hlook]
  cases lookup A c.orderId with
  | none => rfl
  | some p =>
      simp only [Option.map_some, Relabel.answer, Relabel.book_update, ← eraseId_relabel h.apart]
      rfl

theorem modify (h : ρ.Fits R A c) :
    PriorityBook.modify R (ρ.book A) (ρ.command c) = ρ.answer (PriorityBook.modify R A c) := by
  have hrel : R.relOf (ρ.command c).price = R.relOf c.price := rfl
  rw [PriorityBook.modify, PriorityBook.modify, Relabel.command_orderId, lookup_relabel h.apart]
  by_cases hqty : c.qty = 0
  · rw [if_pos hqty, if_pos (show (ρ.command c).qty = 0 from hqty)]
    rfl
  rw [if_neg hqty, if_neg (show ¬ (ρ.command c).qty = 0 from hqty)]
  cases lookup A c.orderId with
  | none => rfl
  | some p =>
      dsimp only [Option.map_some]
      rw [hrel]
      cases R.relOf c.price with
      | none => rfl
      | some ix =>
          dsimp only
          by_cases hkeep : ix = p.2.level ∧ c.qty ≤ p.2.qty
          · rw [if_pos hkeep, if_pos (show ix = (ρ.order p.2).level ∧
              (ρ.command c).qty ≤ (ρ.order p.2).qty from hkeep)]
            rw [Relabel.answer, Relabel.book_update, ← setQty_relabel h.apart]
            rfl
          rw [if_neg hkeep, if_neg (show ¬ (ix = (ρ.order p.2).level ∧
            (ρ.command c).qty ≤ (ρ.order p.2).qty) from hkeep)]
          have hself :
              SameSelf ρ p.2.owner R.cfg.stp
                (Function.update A p.1 (eraseId c.orderId (A p.1)) (opposite p.1)) :=
            h.owners.imp And.left fun hinj e _ heq => hinj heq
          have hzero : ∀ U, ∀ e ∈ Function.update A p.1 (eraseId c.orderId (A p.1)) U, e.id ≠ 0 :=
            fun U e he => h.nonzero U e (mem_erased.mp he).1
          have henter :
            PriorityBook.enter R (Function.update (ρ.book A) p.1
              (eraseId (ρ.id c.orderId) (ρ.book A p.1))) p.1
              (ρ.id c.orderId) (ρ.order p.2).owner ix (ρ.command c).qty R.cfg.stp
                (R.priceOf ix) true =
              ρ.answer (PriorityBook.enter R (Function.update A p.1 (eraseId c.orderId (A p.1))) p.1
                c.orderId p.2.owner ix
                c.qty R.cfg.stp (R.priceOf ix) true) := by
            rw [← enter_relabel R p.1 ix c.qty (R.priceOf ix) true hzero hself, Relabel.book_update,
              ← eraseId_relabel h.apart]
            rfl
          rw [henter]
          rfl

theorem process (h : ρ.Fits R A c) :
    PriorityBook.process R fillableAgg (ρ.book A) (ρ.command c) = ρ.answer
      (PriorityBook.process R fillableAgg A c) := by
  have hsame : (ρ.command c).type = c.type := rfl
  rw [PriorityBook.process, PriorityBook.process, hsame]
  cases hty : c.type with
  | newOrder => exact h.add hty
  | cancel => exact h.cancel
  | modify => exact h.modify

end Relabel.Fits

end ExchangeSim.Book
