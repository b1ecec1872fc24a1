/- digest: The loops that only read the book: its listing, the fill-or-kill check and the audit. -/

import ExchangeSim.Book.Refinement
import Mathlib.Data.List.TakeWhile

set_option autoImplicit false
set_option relaxedAutoImplicit false

namespace ExchangeSim.Book

open ExchangeSim.Lib
open PriorityBook (Rules ahead inRange)

namespace OrderBook

variable {σ : Type} [StoreLayout σ] {b : OrderBook σ} {L : Side → List Nat}
    {free : List Nat} {T : Side}
  {R : Rules} {A : PriorityBook}

structure Walk (b : OrderBook σ) (T : Side) (l : List Nat) (i : Int) (rem : List Nat) : Prop where
  split : ∃ p, l = p ++ rem ∧ ∀ t ∈ p, rank T b.n (b.store.level t) < rank T b.n i
  here : (rem = [] ∧ rank T b.n i = b.n) ∨ ∃ s r, rem = s :: r ∧ i = b.store.level s

theorem Rep.walk_start (h : Rep b L free) (T : Side) : Walk b T (L T) (b.top T) (L T) where
  split := ⟨[], rfl, by simp⟩
  here := by
    cases hL : L T with
    | nil => exact .inl ⟨rfl, h.top_end hL⟩
    | cons s r => exact .inr ⟨s, r, rfl, h.top_eq hL⟩

theorem Rep.rank_lt (h : Rep b L free) {s : Nat} (hs : s ∈ L T) :
    rank T b.n (b.store.level s) < b.n := by
  have := h.level_lt hs
  cases T <;> simp only [rank] <;> omega

theorem Walk.next (h : Rep b L free) {i : Int} {s : Nat} {r : List Nat}
    (w : Walk b T (L T) i (s :: r)) :
    i = b.store.level s ∧ rank T b.n i < rank T b.n (b.nextLevel (opposite T) i) ∧
      ∃ rest, s :: r = b.lane (L T) (b.store.level s) ++ rest ∧
        (∀ t ∈ rest, b.store.level t ≠ b.store.level s) ∧
        Walk b T (L T) (b.nextLevel (opposite T) i) rest := by
  obtain ⟨⟨p, hL, hp⟩, hhere⟩ := w
  obtain ⟨hnil, _⟩ | ⟨s', r', heq, hi⟩ := hhere
  · cases hnil
  obtain ⟨rfl, rfl⟩ := List.cons.inj heq
  have hnext := h.next_first T (b.store.level s : Int)
  have hsn := h.rank_lt (T := T) (s := s) (by rw [hL]; simp)
  refine ⟨hi, ?_, ?_⟩
  · rw [hi]
    rcases hnext.found with hend | ⟨j, hj, _, hr⟩
    · omega
    · rw [hj]
      omega
  rw [hi] at hp ⊢
  have hsort := h.sorted T
  rw [hL] at hsort
  have hrem := (List.pairwise_append.mp hsort).2.1
  have hbehind : ∀ t ∈ s :: r, rank T b.n (b.store.level s) ≤ rank T b.n (b.store.level t) := by
    intro t ht
    rcases List.mem_cons.mp ht with rfl | ht
    · exact le_rfl
    · exact (ahead_iff b.n).mp (List.rel_of_pairwise_cons hrem ht)
  have hsplit :=
    List.takeWhile_append_dropWhile (p := fun t => decide (b.store.level t = b.store.level s))
    (l := s :: r)
  set tk := (s :: r).takeWhile fun t => decide (b.store.level t = b.store.level s) with htk
  set rest := (s :: r).dropWhile fun t => decide (b.store.level t = b.store.level s) with hrest
  have htk_level : ∀ t ∈ tk, b.store.level t = b.store.level s := by
    intro t ht
    simpa using List.mem_takeWhile_imp ht
  have hsub : ∀ t ∈ rest, t ∈ s :: r := fun t ht => List.dropWhile_sublist _ |>.subset ht
  have hsort_rest : rest.Pairwise fun x y => ahead T (b.store.level x) (b.store.level y) = true :=
    hrem.sublist (List.dropWhile_sublist _)
  have hrest_rank : ∀ t ∈ rest, rank T b.n (b.store.level s) < rank T b.n (b.store.level t) := by
    have hhead : ∀ u l, rest = u :: l → rank T b.n (b.store.level s) < rank T b.n
        (b.store.level u) := by
      intro u l hu
      have hne : b.store.level u ≠ b.store.level s := by
        have := List.head_dropWhile_not (fun t => decide (b.store.level t = b.store.level s))
          (l := s :: r) (by rw [← hrest, hu]; simp)
        simp only [← hrest, hu, List.head_cons, decide_eq_false_iff_not] at this
        exact this
      have hle := hbehind u (hsub u (by rw [hu]; simp))
      rcases hle.lt_or_eq with hlt | he
      · exact hlt
      · exact absurd (by exact_mod_cast (rank_inj he).symm) hne
    intro t ht
    cases hr : rest with
    | nil => rw [hr] at ht; cases ht
    | cons u l =>
        have hlt := hhead u l hr
        rw [hr] at ht hsort_rest
        rcases List.mem_cons.mp ht with rfl | ht
        · exact hlt
        · exact lt_of_lt_of_le hlt ((ahead_iff b.n).mp (List.rel_of_pairwise_cons hsort_rest ht))
  have hlane : b.lane (L T) (b.store.level s) = tk := by
    have h1 : b.lane p (b.store.level s) = [] := by
      rw [lane_eq_nil]
      rintro ⟨t, ht, he⟩
      have := hp t ht
      rw [he] at this
      omega
    have h2 : b.lane rest (b.store.level s) = [] := by
      rw [lane_eq_nil]
      rintro ⟨t, ht, he⟩
      have := hrest_rank t ht
      rw [he] at this
      omega
    have h3 : b.lane tk (b.store.level s) = tk := by
      rw [lane, List.filter_eq_self]
      intro t ht
      simpa using htk_level t ht
    have hall : b.lane (p ++ (tk ++ rest)) (b.store.level s) =
        b.lane p (b.store.level s) ++
        (b.lane tk (b.store.level s) ++ b.lane rest (b.store.level s)) := by
      simp [lane]
    rw [hL, ← hsplit, hall, h1, h2, h3, List.nil_append, List.append_nil]
  refine ⟨rest, by rw [hlane, hsplit], fun t ht he => ?_, ⟨p ++ tk, ?_, ?_⟩, ?_⟩
  · have := hrest_rank t ht
    rw [he] at this
    omega
  · rw [hL, ← hsplit, List.append_assoc]
  · intro t ht
    have hle : rank T b.n (b.store.level t) ≤ rank T b.n (b.store.level s) := by
      rcases List.mem_append.mp ht with ht | ht
      · exact (hp t ht).le
      · rw [htk_level t ht]
    have htn : rank T b.n (b.store.level t) < b.n := by
      refine h.rank_lt (T := T) ?_
      rw [hL, ← hsplit]
      simp only [List.mem_append] at ht ⊢
      tauto
    rcases hnext.found with hend | ⟨j, hj, _, hr⟩
    · omega
    · rw [hj]
      omega
  · cases hr : rest with
    | nil =>
        refine .inl ⟨rfl, ?_⟩
        rcases hnext.found with hend | ⟨j, hj, ⟨t, ht, rfl⟩, hr'⟩
        · exact hend
        · exfalso
          rw [hL, ← hsplit, hr, List.append_nil] at ht
          rcases List.mem_append.mp ht with ht | ht
          · have := hp t ht
            omega
          · rw [htk_level t ht] at hr'
            omega
    | cons u l =>
        refine .inr ⟨u, l, rfl, ?_⟩
        have hu : u ∈ rest := by rw [hr]; simp
        have hgt := hrest_rank u hu
        have huL : u ∈ L T := by rw [hL]; exact List.mem_append_right _ (hsub u hu)
        have hle := hnext.least _ ⟨u, huL, rfl⟩ (by omega)
        have hun := h.rank_lt huL
        rcases hnext.found with hend | ⟨j, hj, ⟨t, ht, rfl⟩, hr'⟩
        · omega
        · rw [hj] at hle ⊢
          refine rank_inj (le_antisymm hle ?_)
          rw [hL, ← hsplit] at ht
          rcases List.mem_append.mp ht with ht | ht
          · have := hp t ht
            omega
          · rcases List.mem_append.mp ht with ht | ht
            · rw [htk_level t ht] at hr'
              omega
            · rw [hr] at ht hsort_rest
              rcases List.mem_cons.mp ht with rfl | ht
              · exact le_rfl
              · exact (ahead_iff b.n).mp (List.rel_of_pairwise_cons hsort_rest ht)

/-- A loop over the levels of a side computes `g` of its slots, if at each level it either
decides or leaves `g` of the slots behind the level to do. -/
theorem Rep.walk {β γ : Type} (h : Rep b L free) (T : Side)
    (body : Int × β → Option (Loop.Pass (Int × β) γ)) (g : List Nat → β → γ)
    (stop : ∀ i x, rank T b.n i = b.n → body (i, x) = some (.leave (g [] x)))
    (step : ∀ (s : Nat) (rest : List Nat) x, s ∈ L T →
      (∀ t ∈ rest, t ∈ L T ∧ b.store.level t ≠ b.store.level s) →
      let ix := b.store.level s
      body ((ix : Int), x) = some (.leave (g (b.lane (L T) ix ++ rest) x)) ∨
        ∃ y, body ((ix : Int), x) = some (.again (b.nextLevel (opposite T) ix, y)) ∧
          g (b.lane (L T) ix ++ rest) x = g rest y) (x : β) :
    Loop.runM body b.levelFuel (b.top T, x) = some (g (L T) x) := by
  have hrun : ∀ fuel i rem x, Walk b T (L T) i rem → ((b.n : Int) - rank T b.n i).toNat < fuel →
      Loop.runM body fuel (i, x) = some (g rem x) := by
    intro fuel
    induction fuel with
    | zero => intro i rem x _ hlt; omega
    | succ fuel ih =>
        intro i rem x w hlt
        obtain ⟨rfl, hend⟩ | ⟨s, r, rfl, hi⟩ := w.here
        · exact Loop.runM_leave (stop i x hend) fuel
        · obtain ⟨hi, hrank, rest, hsplit, hne, w'⟩ := w.next h
          have hsn : s ∈ L T := by
            obtain ⟨p, hL, _⟩ := w.split
            rw [hL]
            simp
          have hin : ∀ t ∈ rest, t ∈ L T ∧ b.store.level t ≠ b.store.level s := by
            intro t ht
            obtain ⟨p, hL, _⟩ := w.split
            refine ⟨?_, hne t ht⟩
            rw [hL, hsplit]
            simp [ht]
          rw [hsplit]
          rw [hi] at hrank w' hlt ⊢
          have hsr := h.rank_lt hsn
          rcases step s rest x hsn hin with hleave | ⟨y, hagain, hg⟩
          · exact Loop.runM_leave hleave fuel
          · rw [Loop.runM_again hagain fuel, hg]
            exact ih _ _ _ w' (by omega)
  refine hrun b.levelFuel (b.top T) (L T) x (h.walk_start T) ?_
  rw [levelFuel]
  have : 0 ≤ rank T b.n (b.top T) := by
    obtain ⟨_, hend⟩ | ⟨s, r, hL, hi⟩ := (h.walk_start T).here
    · omega
    · have := h.level_lt (T := T) (s := s) (by rw [hL]; simp)
      rw [hi]
      cases T <;> simp only [rank] <;> omega
  omega

theorem run_queue {next : Nat → Nat} {β γ : Type} (body : Nat × β → Loop.Pass (Nat × β) γ)
    (g : List Nat → β → γ) (stop : ∀ x, body (kNil, x) = .leave (g [] x))
    (l : List Nat) (step : ∀ s ∈ l, ∀ r x, s ≠ kNil → body (s, x) = .leave (g (s :: r) x) ∨
      ∃ y, body (s, x) = .again (next s, y) ∧ g (s :: r) x = g r y)
    {head fuel : Nat} (path : Fifo.Seg kNil next head l kNil) (enough : l.length < fuel) (x : β) :
    Loop.run body fuel (head, x) = some (g l x) := by
  induction l generalizing head fuel x with
  | nil =>
      obtain ⟨fuel, rfl⟩ := Nat.exists_eq_add_of_lt enough
      have hhead : head = kNil := path
      rw [hhead]
      exact Loop.run_leave (stop x) _
  | cons s l ih =>
      obtain ⟨fuel, rfl⟩ : ∃ k, fuel = k + 1 := ⟨fuel - 1, by omega⟩
      obtain ⟨rfl, hne, hrest⟩ := path
      rcases step head (by simp) l x hne with hleave | ⟨y, hagain, hg⟩
      · exact Loop.run_leave hleave fuel
      · rw [Loop.run_again hagain fuel, hg]
        exact ih (fun t ht => step t (by simp [ht])) hrest (by simpa using enough) y

theorem Rep.lane_length (h : Rep b L free) (T : Side) (i : Nat) :
    (b.lane (L T) i).length < b.queueFuel := by
  have h1 : (b.lane (L T) i).length ≤ (L T).length := List.length_filter_le _ _
  have h2 := h.length_eq
  have h3 := h.live_eq
  rw [queueFuel]
  cases T <;> omega

theorem Rep.visitLevel (h : Rep b L free) {s : Nat} (hs : s ∈ L T) :
    b.visitLevel (b.store.level s) = some ((b.lane (L T) (b.store.level s)).map fun t =>
      (b.priceOf (b.store.level s), b.store.id t, b.store.qty t)) := by
  refine (run_queue _ (fun l (acc : List (Price × OrderId × Qty)) => acc ++ l.map fun t =>
      (b.priceOf (b.store.level s), b.store.id t, b.store.qty t)) (fun x => ?_) _
    (fun t _ r x hne =>
      .inr ⟨x ++ [(b.priceOf (b.store.level s), b.store.id t, b.store.qty t)], ?_, ?_⟩)
    (h.queue_at hs).1.path (h.lane_length T _) []).trans (by simp)
  · simp
  · simp only [if_neg hne]
  · simp

theorem Refines.forEachOrder (h : Refines R b A) (T : Side) :
    b.forEachOrder T = some ((A T).map fun e => (R.priceOf e.level, e.id, e.qty)) := by
  obtain ⟨L, free, hrep, hfol, rfl⟩ := h
  have hmap : ((b.abs L T).map fun e => (R.priceOf e.level, e.id, e.qty)) =
      (L T).map fun t => (b.priceOf (b.store.level t), b.store.id t, b.store.qty t) := by
    simp only [abs, List.map_map, ← hfol.priceOf]
    rfl
  rw [hmap]
  refine (hrep.walk T _ (fun l (acc : List (Price × OrderId × Qty)) => acc ++ l.map fun t =>
    (b.priceOf (b.store.level t), b.store.id t, b.store.qty t)) (fun i x hend => ?_)
    (fun s rest x hs _ => .inr ⟨x ++ (b.lane (L T) (b.store.level s)).map (fun t =>
        (b.priceOf (b.store.level s), b.store.id t, b.store.qty t)), ?_, ?_⟩) []).trans (by simp)
  · have hout : b.onLadder T i = false := by
      cases T <;> simp only [rank] at hend
        <;> simp only [onLadder, decide_eq_false_iff_not] <;> omega
    simp only [hout, Bool.false_eq_true, if_false, List.map_nil, List.append_nil]
    rfl
  · have hlt := hrep.level_lt hs
    have hon : b.onLadder T (b.store.level s) = true := by
      cases T <;> simp only [onLadder, decide_eq_true_eq] <;> omega
    simp only [hon, Int.toNat_natCast, hrep.visitLevel hs, if_true]
    rfl
  · have hlane : (b.lane (L T) (b.store.level s)).map (fun t =>
        (b.priceOf (b.store.level s), b.store.id t, b.store.qty t)) =
        (b.lane (L T) (b.store.level s)).map (fun t =>
        (b.priceOf (b.store.level t), b.store.id t, b.store.qty t)) :=
      List.map_congr_left fun t ht => by rw [(mem_lane.mp ht).2]
    simp [hlane]

private theorem Rep.fillableMaker (h : Rep b L free) {s : Nat} (hs : s ∈ L T)
    (owner : OwnerId) {stp : Stp} (hstp : stp ≠ .none) (need : Qty) :
    Loop.run (b.fillableMaker owner stp) b.queueFuel ((b.levels (b.store.level s)).head, need) =
      some (PriorityBook.fillableQueue owner stp
        ((b.lane (L T) (b.store.level s)).map b.entry) need) := by
  refine run_queue _ (fun l need => PriorityBook.fillableQueue owner stp (l.map b.entry) need)
    (fun x => ?_) _
    (fun t _ r x hne => ?_) (h.queue_at hs).1.path (h.lane_length T _) need
  · simp [OrderBook.fillableMaker, PriorityBook.fillableQueue]
  · simp only [OrderBook.fillableMaker, if_neg hne, List.map_cons, PriorityBook.fillableQueue]
    by_cases ho : b.store.owner t = owner
    · rw [if_pos ho, if_pos (show stp ≠ .none ∧ (b.entry t).owner = owner from ⟨hstp, ho⟩)]
      by_cases hci : stp = .cancelIncoming
      · left
        simp only [if_pos hci]
      · simp only [if_neg hci]
        by_cases hdc : stp = .decrementCancel
        · simp only [if_pos hdc]
          by_cases hle : x ≤ b.store.qty t
          · left
            rw [if_pos hle, if_pos (show x ≤ (b.entry t).qty from hle)]
          · right
            rw [if_neg hle, if_neg (show ¬ x ≤ (b.entry t).qty from hle)]
            exact ⟨_, rfl, rfl⟩
        · right
          simp only [if_neg hdc]
          exact ⟨_, rfl, rfl⟩
    · rw [if_neg ho, if_neg (show ¬ (stp ≠ .none ∧ (b.entry t).owner = owner) from fun hc =>
        ho hc.2)]
      by_cases hle : x ≤ b.store.qty t
      · left
        rw [if_pos hle, if_pos (show x ≤ (b.entry t).qty from hle)]
      · right
        rw [if_neg hle, if_neg (show ¬ x ≤ (b.entry t).qty from hle)]
        exact ⟨_, rfl, rfl⟩

theorem Refines.fillable (h : Refines R b A) (S : Side) {limit : Int}
    (hn : limit < R.cfg.numLevels) (qty : Qty) (owner : OwnerId) (stp : Stp) :
    b.fillable S limit qty owner stp =
      some (PriorityBook.fillableAgg S limit owner stp (A (opposite S)) qty) := by
  obtain ⟨L, free, hrep, hfol, rfl⟩ := h
  have htop : b.best S = b.top (opposite S) := by rw [top, opposite_opposite]
  rw [OrderBook.fillable, htop]
  refine hrep.walk (opposite S) (fillableLevel S b limit owner stp)
    (fun l need => PriorityBook.fillableAgg S limit owner stp (l.map b.entry) need)
      (fun i x hend => ?_)
    (fun s rest x hs hrest => ?_) qty
  · have hout : withinLimit S limit i = false := by
      rw [← hfol.n] at hn
      cases S <;> simp only [rank, opposite] at hend <;>
        simp only [withinLimit, decide_eq_false_iff_not] <;> omega
    simp only [fillableLevel, hout, Bool.false_eq_true, if_false,
      PriorityBook.fillableAgg, List.map_nil,
      PriorityBook.totals, PriorityBook.fillableTotals, PriorityBook.fillableSeq, ite_self]
    rfl
  · intro ix
    have hwithin : withinLimit S limit ix = inRange S limit ix := by
      cases S <;> simp [withinLimit, inRange]
    have hlane : (b.lane (L (opposite S)) ix).map b.entry ≠ [] := by
      rw [ne_eq, List.map_eq_nil_iff]
      exact lane_ne_nil.mpr ⟨s, hs, rfl⟩
    have hl : ∀ e ∈ (b.lane (L (opposite S)) ix).map b.entry, e.level = ix := by
      intro e he
      obtain ⟨t, ht, rfl⟩ := List.mem_map.mp he
      exact (mem_lane.mp ht).2
    have hr : ∀ e ∈ rest.map b.entry, e.level ≠ ix := by
      intro e he
      obtain ⟨t, ht, rfl⟩ := List.mem_map.mp he
      exact (hrest t ht).2
    have hnext : b.nextLevel S ix = b.nextLevel (opposite (opposite S)) ix := by
      rw [opposite_opposite]
    simp only [fillableLevel, hwithin, Int.toNat_natCast, PriorityBook.fillableAgg, List.map_append]
    by_cases hin : inRange S limit ix = true
    · simp only [hin, if_true]
      by_cases hstp : stp = .none
      · simp only [if_pos hstp, PriorityBook.totals_level ix hlane hl hr,
          PriorityBook.fillableTotals, hin]
        have hsum : (((b.lane (L (opposite S)) ix).map b.entry).map Resting.qty).sum =
            (b.levels ix).qty := by
          rw [(hrep.queue_at hs).2, List.map_map]
          rfl
        rw [hsum]
        by_cases hle : x ≤ (b.levels ix).qty
        · left
          simp only [if_pos hle]
          rfl
        · right
          refine ⟨x - (b.levels ix).qty, ?_, ?_⟩
          · simp only [if_neg hle, hnext]
            rfl
          · simp [if_neg hle]
      · have hrun : Loop.run (b.fillableMaker owner stp) b.queueFuel ((b.levels ix).head, x) =
            some (PriorityBook.fillableQueue owner stp
              ((b.lane (L (opposite S)) ix).map b.entry) x) :=
          hrep.fillableMaker hs owner hstp x
        simp only [if_neg hstp, hrun]
        have hin' : ∀ e ∈ (b.lane (L (opposite S)) ix).map b.entry,
            inRange S limit e.level = true := by
          intro e he
          rw [hl e he]
          exact hin
        rw [PriorityBook.fillableSeq_append S limit owner stp hin']
        cases PriorityBook.fillableQueue owner stp ((b.lane (L (opposite S)) ix).map b.entry) x with
        | inl v =>
            left
            rfl
        | inr need =>
            right
            refine ⟨need, ?_, rfl⟩
            simp only [hnext]
            rfl
    · left
      have hfalse : inRange S limit ix = false := by simpa using hin
      obtain ⟨e, es, he⟩ := List.exists_cons_of_ne_nil hlane
      have hev := hl e (by rw [he]; simp)
      rw [PriorityBook.totals_level ix hlane hl hr, he, List.cons_append]
      simp only [hfalse, Bool.false_eq_true, if_false, PriorityBook.fillableTotals,
        PriorityBook.fillableSeq, hev, not_false_eq_true, if_true, ite_self]
      rfl

end OrderBook
end ExchangeSim.Book
