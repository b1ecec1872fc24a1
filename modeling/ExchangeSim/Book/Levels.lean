/- digest: The level totals of a book, best first, and its lookups by id, against its resting
   orders. -/

import ExchangeSim.Book.Equivalence

set_option autoImplicit false
set_option relaxedAutoImplicit false

namespace ExchangeSim.Book

open ExchangeSim.Lib
open PriorityBook (Rules ahead inRange totals volume)

namespace OrderBook

variable {σ : Type} [StoreLayout σ] {b : OrderBook σ} {R : Rules} {A : PriorityBook}

theorem Refines.forEachLevel (h : Refines R b A) (T : Side) :
    b.forEachLevel T = some ((totals (A T)).map fun p => (R.priceOf p.1, p.2)) := by
  obtain ⟨L, free, hrep, hfol, rfl⟩ := h
  rw [OrderBook.forEachLevel, Loop.run_eq_runM]
  refine (hrep.walk T _ (fun l (acc : List (Price × Qty)) =>
    acc ++ (totals (l.map b.entry)).map fun p =>
    (R.priceOf p.1, p.2)) (fun i x hend => ?_) (fun s rest x hs hrest => .inr
      ⟨x ++ [(b.priceOf (b.store.level s), (b.levels (b.store.level s)).qty)], ?_, ?_⟩) []).trans
        (by simp [abs])
  · have hout : b.onLadder T i = false := by
      cases T <;> simp only [rank] at hend
        <;> simp only [onLadder, decide_eq_false_iff_not] <;> omega
    simp [hout, totals]
  · have hlt := hrep.level_lt hs
    have hon : b.onLadder T (b.store.level s) = true := by
      cases T <;> simp only [onLadder, decide_eq_true_eq] <;> omega
    simp only [hon, Int.toNat_natCast, if_true]
  · have hlane : (b.lane (L T) (b.store.level s)).map b.entry ≠ [] := by
      rw [ne_eq, List.map_eq_nil_iff]
      exact lane_ne_nil.mpr ⟨s, hs, rfl⟩
    have hl : ∀ e ∈ (b.lane (L T) (b.store.level s)).map b.entry, e.level = b.store.level s := by
      intro e he
      obtain ⟨t, ht, rfl⟩ := List.mem_map.mp he
      exact (mem_lane.mp ht).2
    have hr : ∀ e ∈ rest.map b.entry, e.level ≠ b.store.level s := by
      intro e he
      obtain ⟨t, ht, rfl⟩ := List.mem_map.mp he
      exact (hrest t ht).2
    have hsum : (((b.lane (L T) (b.store.level s)).map b.entry).map Resting.qty).sum =
        (b.levels (b.store.level s)).qty := by
      rw [(hrep.queue_at hs).2, List.map_map]
      rfl
    simp only [List.map_append, PriorityBook.totals_level _ hlane hl hr, hsum,
      List.map_cons, hfol.priceOf, List.append_assoc, List.singleton_append]

theorem Refines.findOrder (h : Refines R b A) (id : OrderId) :
    b.findOrder id = some ((PriorityBook.lookup A id).map fun p =>
      ⟨R.priceOf p.2.level, p.2.qty, p.1, p.2.owner⟩) := by
  obtain ⟨L, free, hrep, hfol, rfl⟩ := h
  rw [OrderBook.findOrder]
  rcases hrep.find id with ⟨hf, hnone⟩ | ⟨T, s, hs, hf, rfl⟩
  · rw [hf, lookup_none hnone]
    rfl
  · have hside : b.store.side s = T := (hrep.filed T s hs).1
    rw [hf, hrep.lookup_some hs]
    simp only [Option.bind_eq_bind, Option.bind_some, if_neg (hrep.slot_ne_nil hs),
      hfol.priceOf, hside]
    rfl

end OrderBook

namespace PriorityBook

variable {R : Rules} {A : PriorityBook}

theorem totals_sublist (l : List Resting) :
    ((totals l).map Prod.fst).Sublist (l.map Resting.level) := by
  induction l with
  | nil => exact List.Sublist.refl _
  | cons e es ih =>
      rw [totals, List.map_cons]
      split
      · exact List.Sublist.cons_cons _ (List.nil_sublist _)
      · rename_i ix q rest hes
        rw [hes] at ih
        split
        · rename_i hix
          rw [List.map_cons, hix]
          rw [List.map_cons, hix] at ih
          exact ih.cons _
        · rw [List.map_cons]
          exact ih.cons_cons _

end PriorityBook
end ExchangeSim.Book
