/- digest: What every state of the textbook book satisfies, whatever band it was built for. -/

import ExchangeSim.Book.ReferenceBook

set_option autoImplicit false
set_option relaxedAutoImplicit false

namespace ExchangeSim.Book.ReferenceBook

abbrev Index := AList fun _ : OrderId => Loc

/-- The places of a side in priority order: the price and the id of each order. -/
def places (l : RefSide) : List (Price × OrderId) :=
  l.flatMap fun (px, q) => q.map fun o => (px, o.id)

@[simp] theorem places_nil : places [] = [] := rfl

@[simp] theorem places_cons (px : Price) (q : RefQueue) (l : RefSide) :
    places ((px, q) :: l) = q.map (fun o => (px, o.id)) ++ places l := rfl

theorem mem_places {l : RefSide} {px : Price} {id : OrderId} :
    (px, id) ∈ places l ↔ ∃ q, (px, q) ∈ l ∧ ∃ o ∈ q, o.id = id := by
  simp only [places, List.mem_flatMap, Prod.exists, List.mem_map, Prod.mk.injEq]
  constructor
  · rintro ⟨p, q, hl, o, ho, rfl, rfl⟩
    exact ⟨q, hl, o, ho, rfl⟩
  · rintro ⟨q, hl, o, ho, rfl⟩
    exact ⟨px, q, hl, o, ho, rfl, rfl⟩

structure SideSound (Q : Nat) (S : Side) (l : RefSide) : Prop where
  sorted : l.Pairwise fun x y => before S x.1 y.1
  full : ∀ x ∈ l, x.2 ≠ []
  each : ∀ x ∈ l, ∀ o ∈ x.2, o.qty ≠ 0 ∧ o.qty.toNat ≤ Q

theorem SideSound.tail {Q : Nat} {S : Side} {x : Price × RefQueue} {l : RefSide}
    (h : SideSound Q S (x :: l)) : SideSound Q S l where
  sorted := (List.pairwise_cons.mp h.sorted).2
  full y hy := h.full y (List.mem_cons_of_mem x hy)
  each y hy := h.each y (List.mem_cons_of_mem x hy)

theorem SideSound.replaceHead {Q : Nat} {S : Side} {px : Price} {q q' : RefQueue} {l : RefSide}
    (h : SideSound Q S ((px, q) :: l)) (full : q' ≠ [])
    (each : ∀ o ∈ q', o.qty ≠ 0 ∧ o.qty.toNat ≤ Q) :
    SideSound Q S ((px, q') :: l) where
  sorted := List.pairwise_cons.mpr (List.pairwise_cons.mp h.sorted)
  full y hy := by
    rcases List.mem_cons.mp hy with rfl | hy
    · exact full
    · exact h.tail.full y hy
  each y hy := by
    rcases List.mem_cons.mp hy with rfl | hy
    · exact each
    · exact h.tail.each y hy

theorem before_irrefl (S : Side) (p : Price) : ¬ before S p p = true := by
  cases S <;> simp [before, Std.lt_irrefl]

theorem before_trans {S : Side} {p p' p'' : Price} (h : before S p p' = true)
    (h' : before S p' p'' = true) :
    before S p p'' = true := by
  cases S <;> simp only [before, decide_eq_true_eq] at * <;> grind

theorem SideSound.unique {Q : Nat} {S : Side} {l : RefSide} (h : SideSound Q S l) {px : Price}
    {q q' : RefQueue} (hq : (px, q) ∈ l) (hq' : (px, q') ∈ l) : q = q' := by
  induction l with
  | nil => cases hq
  | cons x l ih =>
      have first {q : RefQueue} (hq : (px, q) ∈ l) : before S x.1 px = true :=
        (List.pairwise_cons.mp h.sorted).1 (px, q) hq
      rcases List.mem_cons.mp hq with rfl | hl
      · rcases List.mem_cons.mp hq' with he | hl'
        · exact (Prod.mk.inj he).2.symm
        · exact absurd (first hl') (before_irrefl S px)
      · rcases List.mem_cons.mp hq' with rfl | hl'
        · exact absurd (first hl) (before_irrefl S px)
        · exact ih h.tail hl hl'

/-- The orders that `l` has in front of `l'` have left the id map. -/
def Left (l : List (Price × OrderId)) (index : Index) (l' : List (Price × OrderId))
    (index' : Index) : Prop :=
  ∃ gone, l = gone ++ l' ∧ ∀ id, index'.lookup id = if id ∈ gone.map Prod.snd then none
    else index.lookup id

theorem Left.refl (l : List (Price × OrderId)) (index : Index) : Left l index l index :=
  ⟨[], rfl, fun _ => rfl⟩

theorem Left.frame {l l' : List (Price × OrderId)} {index index' : Index}
    (h : Left l index l' index') (r : List (Price × OrderId)) :
    Left (l ++ r) index (l' ++ r) index' := by
  obtain ⟨gone, hl, hindex⟩ := h
  exact ⟨gone, by rw [hl, List.append_assoc], hindex⟩

theorem Left.trans {l l' l'' : List (Price × OrderId)} {index index' index'' : Index}
    (h : Left l index l' index') (h' : Left l' index' l'' index'') : Left l index l'' index'' := by
  obtain ⟨gone, hl, hindex⟩ := h
  obtain ⟨gone', hl', hindex'⟩ := h'
  refine ⟨gone ++ gone', by rw [hl, hl', List.append_assoc], fun id => ?_⟩
  rw [hindex', hindex, List.map_append]
  by_cases h1 : id ∈ gone.map Prod.snd <;> by_cases h2 : id ∈ gone'.map Prod.snd <;> simp [h1, h2]

theorem Left.erase (px : Price) (id : OrderId) (l : List (Price × OrderId)) (index : Index) :
    Left ((px, id) :: l) index l (index.erase id) := by
  refine ⟨[(px, id)], rfl, fun id' => ?_⟩
  by_cases he : id' = id
  · subst he
    simp
  · rw [AList.lookup_erase_ne he]
    simp [he]

section Match

variable (symbol : SymbolId) (taker : OrderId) (owner : OwnerId) (S : Side)
    (limit : Price) (stp : Stp)

structure QueueLeft (Q : Nat) (px : Price) (q : RefQueue) (qty : Qty) (index : Index)
    (m : QueueMatch) : Prop where
  left : Left (q.map fun o => (px, o.id)) index (m.queue.map fun o => (px, o.id)) m.index
  each : ∀ o ∈ m.queue, o.qty ≠ 0 ∧ o.qty.toNat ≤ Q
  qty_le : m.qty ≤ qty
  passed : m.stop = false → m.queue = [] ∨ m.qty = 0

private theorem QueueLeft.drop {Q : Nat} {px : Price} {o : RefOrder} {q : RefQueue}
    {qty qty' : Qty} {index : Index} {m : QueueMatch}
    (h : QueueLeft Q px q qty' (index.erase o.id) m) (le : qty' ≤ qty) (evs : List Event) :
    QueueLeft Q px (o :: q) qty index { m with events := evs } where
  left := (Left.erase px o.id _ index).trans h.left
  each := h.each
  qty_le := Std.le_trans h.qty_le le
  passed := h.passed

private theorem sub_le_self {a b : Qty} (h : b ≤ a) : a - b ≤ a := by
  rw [UInt64.le_iff_toNat_le] at h ⊢
  rw [UInt64.toNat_sub_of_le _ _ (UInt64.le_iff_toNat_le.mpr h)]
  omega

private theorem sub_bound {a b : Qty} {Q : Nat} (h : b < a) (le : a.toNat ≤ Q) :
    a - b ≠ 0 ∧ (a - b).toNat ≤ Q := by
  refine ⟨by grind, ?_⟩
  exact Nat.le_trans (UInt64.le_iff_toNat_le.mp (sub_le_self (Std.le_of_lt h))) le

theorem matchQueue_left {Q : Nat} (px : Price) (q : RefQueue)
    (hq : ∀ o ∈ q, o.qty ≠ 0 ∧ o.qty.toNat ≤ Q) (qty : Qty) (index : Index) :
    QueueLeft Q px q qty index (matchQueue symbol taker owner S limit px stp q qty index) := by
  induction q generalizing qty index with
  | nil => exact ⟨.refl _ _, hq, Std.le_refl _, fun _ => .inl rfl⟩
  | cons o q ih =>
      have hrest := fun x hx => hq x (List.mem_cons_of_mem o hx)
      obtain ⟨_, hbound⟩ := hq o List.mem_cons_self
      have changed {n : Qty} (hn : n ≠ 0 ∧ n.toNat ≤ Q) :
          ∀ x ∈ ({ o with qty := n } : RefOrder) :: q, x.qty ≠ 0 ∧ x.qty.toNat ≤ Q := by
        intro x hx
        rcases List.mem_cons.mp hx with rfl | hx
        · exact hn
        · exact hrest x hx
      rw [matchQueue]
      split
      · rename_i hz
        exact ⟨.refl _ _, hq, Std.le_refl _, fun _ => .inr hz⟩
      split
      · split
        · exact ⟨.refl _ _, hq, Std.le_refl _, by simp⟩
        split
        · rename_i hlt
          exact ⟨.refl _ _, changed (sub_bound hlt.2 hbound), Std.le_refl _, by simp⟩
        rename_i hnlt
        by_cases hdec : stp = .decrementCancel
        · simp only [if_pos hdec]
          by_cases heq : o.qty = qty
          · simp only [if_pos heq]
            exact ⟨.erase px o.id _ index, hrest, Std.le_refl _, by simp⟩
          · simp only [if_neg heq]
            refine (ih hrest (qty - o.qty) (index.erase o.id)).drop (sub_le_self ?_) _
            exact Std.not_lt.mp fun hlt => hnlt ⟨hdec, hlt⟩
        · simp only [if_neg hdec]
          exact (ih hrest qty (index.erase o.id)).drop (Std.le_refl _) _
      · have hfill : min o.qty qty ≤ qty := by
          rw [UInt64.min_def]
          grind
        by_cases hleft : o.qty - min o.qty qty = 0
        · simp only [if_pos hleft]
          exact (ih hrest (qty - min o.qty qty) (index.erase o.id)).drop (sub_le_self hfill) _
        · simp only [if_neg hleft]
          have hlt : qty < o.qty := by
            rw [UInt64.min_def] at hleft
            grind
          have hmin : min o.qty qty = qty := by
            rw [UInt64.min_def]
            grind
          rw [hmin]
          exact ⟨.refl _ _, changed (sub_bound hlt hbound), sub_le_self (Std.le_refl _),
            fun _ => .inr (by grind)⟩

structure SideLeft (Q : Nat) (T : Side) (l : RefSide) (qty : Qty) (index : Index)
    (m : SideMatch) : Prop where
  sound : SideSound Q T m.levels
  subset : ∀ x ∈ m.levels, ∃ y ∈ l, y.1 = x.1
  left : Left (places l) index (places m.levels) m.index
  qty_le : m.qty ≤ qty
  cleared : m.stop = false → m.qty ≠ 0 → ∀ x ∈ m.levels, ¬ inRange S limit x.1 = true

theorem inRange_of_before {S : Side} {limit p p' : Price} (h : before (opposite S) p p' = true)
    (hp : ¬ inRange S limit p = true) : ¬ inRange S limit p' = true := by
  cases S <;> simp only [opposite, before, inRange, decide_eq_true_eq] at * <;> grind

theorem matchSide_left {Q : Nat} (l : RefSide) (hl : SideSound Q (opposite S) l) (qty : Qty)
    (index : Index) :
    SideLeft S limit Q (opposite S) l qty index
      (matchSide symbol taker owner S limit stp l qty index) := by
  induction l generalizing qty index with
  | nil => exact ⟨hl, fun _ h => (nomatch h), .refl _ _, Std.le_refl _, fun _ _ _ h => nomatch h⟩
  | cons x rest ih =>
      obtain ⟨px, q⟩ := x
      obtain ⟨first, -⟩ := List.pairwise_cons.mp hl.sorted
      have older : ∀ x ∈ rest, ∃ y ∈ (px, q) :: rest, y.1 = x.1 :=
        fun x hx => ⟨x, List.mem_cons_of_mem _ hx, rfl⟩
      have replaced (q' : RefQueue) : ∀ x ∈ (px, q') :: rest, ∃ y ∈ (px, q) :: rest, y.1 = x.1 := by
        intro x hx
        rcases List.mem_cons.mp hx with rfl | hx
        · exact ⟨(px, q), List.mem_cons_self, rfl⟩
        · exact older x hx
      rw [matchSide]
      by_cases hgo : qty = 0 ∨ ¬ inRange S limit px = true
      · rw [if_pos hgo]
        refine ⟨hl, fun x hx => ⟨x, hx, rfl⟩, .refl _ _, Std.le_refl _, fun _ hz x hx => ?_⟩
        have hpx : ¬ inRange S limit px = true := hgo.resolve_left hz
        rcases List.mem_cons.mp hx with rfl | hx
        · exact hpx
        · exact inRange_of_before (first x hx) hpx
      rw [if_neg hgo]
      have hspec := matchQueue_left symbol taker owner S limit stp px q
        (hl.each (px, q) List.mem_cons_self) qty index
      generalize matchQueue symbol taker owner S limit px stp q qty index = r at hspec
      have hgone := hspec.left.frame (places rest)
      by_cases hstop : r.stop = true
      · simp only [if_pos hstop]
        by_cases hempty : r.queue = []
        · rw [if_pos hempty]
          rw [hempty] at hgone
          exact ⟨hl.tail, older, hgone, hspec.qty_le, by simp⟩
        · rw [if_neg hempty]
          exact ⟨hl.replaceHead hempty hspec.each, replaced r.queue, hgone, hspec.qty_le, by simp⟩
      · simp only [if_neg hstop]
        by_cases hempty : r.queue = []
        · simp only [if_pos hempty]
          have hnext := ih hl.tail r.qty r.index
          rw [hempty] at hgone
          refine ⟨hnext.sound, ?_, hgone.trans hnext.left,
            Std.le_trans hnext.qty_le hspec.qty_le, hnext.cleared⟩
          intro x hx
          obtain ⟨y, hy, he⟩ := hnext.subset x hx
          exact ⟨y, List.mem_cons_of_mem _ hy, he⟩
        · rw [if_neg hempty]
          have hz : r.qty = 0 := (hspec.passed (by simpa using hstop)).resolve_left hempty
          exact ⟨hl.replaceHead hempty hspec.each, replaced r.queue, hgone, hspec.qty_le,
            fun _ hne => absurd hz hne⟩

end Match

section Edit

variable {Q : Nat} {S : Side} {l : RefSide}

theorem queueAt_of_mem (h : SideSound Q S l) {px : Price} {q : RefQueue} (hq : (px, q) ∈ l) :
    queueAt px l = q := by
  induction l with
  | nil => cases hq
  | cons x l ih =>
      obtain ⟨p, q'⟩ := x
      rw [queueAt]
      by_cases hp : p = px
      · subst hp
        rw [if_pos rfl]
        exact h.unique List.mem_cons_self hq
      · rw [if_neg hp]
        rcases List.mem_cons.mp hq with he | hl
        · exact absurd (Prod.mk.inj he).1.symm hp
        · exact ih h.tail hl

theorem queueAt_of_not_mem {px : Price} (hpx : ∀ q, (px, q) ∉ l) : queueAt px l = [] := by
  induction l with
  | nil => rfl
  | cons x l ih =>
      obtain ⟨p, q⟩ := x
      rw [queueAt, if_neg]
      · exact ih fun q' hq' => hpx q' (List.mem_cons_of_mem _ hq')
      · rintro rfl
        exact hpx q List.mem_cons_self

theorem places_pushBack (S : Side) (px : Price) (o : RefOrder) (l : RefSide) :
    (places (pushBack S px o l)).Perm ((px, o.id) :: places l) := by
  induction l with
  | nil => exact List.Perm.refl _
  | cons x l ih =>
      obtain ⟨p, q⟩ := x
      rw [pushBack]
      split
      · rename_i hp
        subst hp
        rw [places_cons, List.map_append, List.map_singleton, List.append_assoc, places_cons]
        exact List.perm_middle
      · split
        · rw [places_cons, places_cons]
          exact (ih.append_left _).trans List.perm_middle
        · exact List.Perm.refl _

theorem mem_pushBack (h : SideSound Q S l) (px : Price) (o : RefOrder) (p : Price) (q : RefQueue) :
    (p, q) ∈ pushBack S px o l ↔ (p = px ∧ q = queueAt px l ++ [o]) ∨ (p ≠ px ∧ (p, q) ∈ l) := by
  induction l with
  | nil => simp [pushBack, queueAt]
  | cons x l ih =>
      obtain ⟨a, w⟩ := x
      have first := (List.pairwise_cons.mp h.sorted).1
      have only {y : RefQueue} (hy : (a, y) ∈ (a, w) :: l) : y = w :=
        (h.unique hy List.mem_cons_self)
      rw [pushBack, queueAt]
      by_cases hpx : a = px
      · subst hpx
        rw [if_pos rfl, if_pos rfl, List.mem_cons, Prod.mk.injEq]
        constructor
        · rintro (he | hm)
          · exact .inl he
          · refine .inr ⟨?_, List.mem_cons_of_mem _ hm⟩
            rintro rfl
            exact before_irrefl S p (first (p, q) hm)
        · rintro (he | ⟨hne, hm⟩)
          · exact .inl he
          · rcases List.mem_cons.mp hm with he | hl
            · exact absurd (Prod.mk.inj he).1 hne
            · exact .inr hl
      rw [if_neg hpx, if_neg hpx]
      by_cases hbefore : before S a px = true
      · rw [if_pos hbefore, List.mem_cons, ih h.tail, List.mem_cons, Prod.mk.injEq]
        constructor
        · rintro (⟨rfl, rfl⟩ | he | ⟨hne, hm⟩)
          · exact .inr ⟨hpx, .inl ⟨rfl, rfl⟩⟩
          · exact .inl he
          · exact .inr ⟨hne, .inr hm⟩
        · rintro (he | ⟨hne, he | hm⟩)
          · exact .inr (.inl he)
          · exact .inl he
          · exact .inr (.inr ⟨hne, hm⟩)
      · rw [if_neg hbefore]
        have absent : ∀ y, (px, y) ∉ l := fun y hy => hbefore (first (px, y) hy)
        rw [queueAt_of_not_mem absent, List.mem_cons, Prod.mk.injEq, List.nil_append]
        constructor
        · rintro (he | hm)
          · exact .inl he
          · refine .inr ⟨?_, hm⟩
            rintro rfl
            rcases List.mem_cons.mp hm with he | hl
            · exact hpx (Prod.mk.inj he).1.symm
            · exact absent q hl
        · rintro (he | ⟨_, hm⟩)
          · exact .inl he
          · exact .inr hm

theorem before_total {S : Side} {p p' : Price} (hne : p ≠ p') (h : ¬ before S p p' = true) :
    before S p' p = true := by
  cases S <;> simp only [before, decide_eq_true_eq] at * <;> grind

theorem pushBack_sorted (h : SideSound Q S l) (px : Price) (o : RefOrder) :
    (pushBack S px o l).Pairwise fun x y => before S x.1 y.1 := by
  induction l with
  | nil => exact List.pairwise_singleton _ _
  | cons x l ih =>
      obtain ⟨a, w⟩ := x
      have first := (List.pairwise_cons.mp h.sorted).1
      rw [pushBack]
      by_cases hpx : a = px
      · rw [if_pos hpx]
        exact List.pairwise_cons.mpr (List.pairwise_cons.mp h.sorted)
      rw [if_neg hpx]
      by_cases hbefore : before S a px = true
      · rw [if_pos hbefore]
        refine List.pairwise_cons.mpr ⟨?_, ih h.tail⟩
        rintro ⟨p, q⟩ hm
        rcases (mem_pushBack h.tail px o p q).mp hm with ⟨rfl, _⟩ | ⟨_, hl⟩
        · exact hbefore
        · exact first (p, q) hl
      · rw [if_neg hbefore]
        have hfirst := before_total hpx hbefore
        refine List.pairwise_cons.mpr ⟨?_, h.sorted⟩
        rintro ⟨p, q⟩ hm
        rcases List.mem_cons.mp hm with he | hl
        · rw [(Prod.mk.inj he).1]
          exact hfirst
        · exact before_trans hfirst (first (p, q) hl)

theorem SideSound.pushBack (h : SideSound Q S l) (px : Price) {o : RefOrder}
    (ho : o.qty ≠ 0 ∧ o.qty.toNat ≤ Q) :
    SideSound Q S (pushBack S px o l) where
  sorted := pushBack_sorted h px o
  full := by
    rintro ⟨p, q⟩ hm
    rcases (mem_pushBack h px o p q).mp hm with ⟨-, rfl⟩ | ⟨_, hl⟩
    · simp
    · exact h.full _ hl
  each := by
    rintro ⟨p, q⟩ hm
    rcases (mem_pushBack h px o p q).mp hm with ⟨-, rfl⟩ | ⟨_, hl⟩
    · intro x hx
      rcases List.mem_append.mp hx with hx | hx
      · by_cases hat : ∃ q, (px, q) ∈ l
        · obtain ⟨q, hq⟩ := hat
          rw [queueAt_of_mem h hq] at hx
          exact h.each _ hq x hx
        · rw [queueAt_of_not_mem fun q hq => hat ⟨q, hq⟩] at hx
          cases hx
      · rw [List.mem_singleton.mp hx]
        exact ho
    · exact h.each _ hl

theorem mem_setQueue (h : SideSound Q S l) {px : Price} {q : RefQueue} (hq : (px, q) ∈ l)
    (f : RefQueue → RefQueue) (p : Price) (r : RefQueue) :
    (p, r) ∈ setQueue px f l ↔ (p = px ∧ r = f q ∧ f q ≠ []) ∨ (p ≠ px ∧ (p, r) ∈ l) := by
  induction l with
  | nil => cases hq
  | cons x l ih =>
      obtain ⟨a, w⟩ := x
      have first := (List.pairwise_cons.mp h.sorted).1
      rw [setQueue]
      by_cases hpx : a = px
      · subst hpx
        have hw : q = w := h.unique hq List.mem_cons_self
        subst hw
        rw [if_pos rfl]
        have later {y : RefQueue} (hm : (p, y) ∈ l) : p ≠ a := by
          rintro rfl
          exact before_irrefl S p (first (p, y) hm)
        by_cases hf : f q = []
        · rw [if_pos hf, List.mem_cons, Prod.mk.injEq]
          constructor
          · exact fun hm => .inr ⟨later hm, .inr hm⟩
          · rintro (⟨_, _, hne⟩ | ⟨hne, he | hm⟩)
            · exact absurd hf hne
            · exact absurd he.1 hne
            · exact hm
        · rw [if_neg hf, List.mem_cons, List.mem_cons, Prod.mk.injEq, Prod.mk.injEq]
          constructor
          · rintro (he | hm)
            · exact .inl ⟨he.1, he.2, hf⟩
            · exact .inr ⟨later hm, .inr hm⟩
          · rintro (⟨he, hr, _⟩ | ⟨hne, he | hm⟩)
            · exact .inl ⟨he, hr⟩
            · exact absurd he.1 hne
            · exact .inr hm
      · have hl : (px, q) ∈ l := by
          rcases List.mem_cons.mp hq with he | hl
          · exact absurd (Prod.mk.inj he).1.symm hpx
          · exact hl
        rw [if_neg hpx, List.mem_cons, ih h.tail hl, List.mem_cons, Prod.mk.injEq]
        constructor
        · rintro (⟨rfl, rfl⟩ | he | ⟨hne, hm⟩)
          · exact .inr ⟨hpx, .inl ⟨rfl, rfl⟩⟩
          · exact .inl he
          · exact .inr ⟨hne, .inr hm⟩
        · rintro (he | ⟨hne, he | hm⟩)
          · exact .inr (.inl he)
          · exact .inl he
          · exact .inr (.inr ⟨hne, hm⟩)

theorem setQueue_prices (px : Price) (f : RefQueue → RefQueue) (l : RefSide) :
    ((setQueue px f l).map Prod.fst).Sublist (l.map Prod.fst) := by
  induction l with
  | nil => exact List.Sublist.slnil
  | cons x l ih =>
      obtain ⟨a, w⟩ := x
      rw [setQueue]
      split
      · split
        · exact List.sublist_cons_self _ _
        · exact List.Sublist.refl _
      · exact ih.cons_cons a

theorem SideSound.setQueue (h : SideSound Q S l) {px : Price} {q : RefQueue} (hq : (px, q) ∈ l)
    {f : RefQueue → RefQueue} (each : ∀ o ∈ f q, o.qty ≠ 0 ∧ o.qty.toNat ≤ Q) :
    SideSound Q S (setQueue px f l) where
  sorted := by
    have hs : (l.map Prod.fst).Pairwise fun p p' => before S p p' = true :=
      List.pairwise_map.mpr h.sorted
    exact List.pairwise_map.mp (hs.sublist (setQueue_prices px f l))
  full := by
    rintro ⟨p, r⟩ hm
    rcases (mem_setQueue h hq f p r).mp hm with ⟨_, rfl, hne⟩ | ⟨_, hl⟩
    · exact hne
    · exact h.full _ hl
  each := by
    rintro ⟨p, r⟩ hm
    rcases (mem_setQueue h hq f p r).mp hm with ⟨_, rfl, _⟩ | ⟨_, hl⟩
    · exact each
    · exact h.each _ hl

theorem places_setQueue_filter (h : SideSound Q S l) (px : Price) (id : OrderId) :
    places (setQueue px (fun q => q.filter (·.id ≠ id)) l) = (places l).filter (· ≠ (px, id)) := by
  induction l with
  | nil => rfl
  | cons x l ih =>
      obtain ⟨a, w⟩ := x
      have first := (List.pairwise_cons.mp h.sorted).1
      rw [setQueue, places_cons, List.filter_append]
      by_cases hpx : a = px
      · subst hpx
        have rest : (places l).filter (· ≠ (a, id)) = places l := by
          refine List.filter_eq_self.mpr fun k hk => ?_
          simp only [ne_eq, decide_eq_true_eq]
          rintro rfl
          obtain ⟨q, hq, _⟩ := mem_places.mp hk
          exact before_irrefl S a (first (a, q) hq)
        have front :
            (w.map fun o => (a, o.id)).filter (· ≠ (a, id)) = (w.filter (·.id ≠ id)).map fun o =>
              (a, o.id) := by
          rw [List.filter_map]
          congr 1
          refine List.filter_congr fun o _ => ?_
          simp
        rw [if_pos rfl, rest, front]
        split
        · rename_i he
          rw [he]
          rfl
        · rfl
      · have front :
            (w.map fun o => (a, o.id)).filter (· ≠ (px, id)) = w.map fun o => (a, o.id) := by
          refine List.filter_eq_self.mpr fun k hk => ?_
          obtain ⟨o, _, rfl⟩ := List.mem_map.mp hk
          simp [hpx]
        rw [if_neg hpx, places_cons, ih h.tail, front]

theorem places_setQueue_map (px : Price) {f : RefQueue → RefQueue}
    (hf : ∀ q, (f q).map (·.id) = q.map (·.id)) (h : ∀ x ∈ l, x.2 ≠ []) :
    places (setQueue px f l) = places l := by
  induction l with
  | nil => rfl
  | cons x l ih =>
      obtain ⟨a, w⟩ := x
      rw [setQueue]
      split
      · have hne : f w ≠ [] := by
          intro he
          have := hf w
          rw [he] at this
          exact h (a, w) List.mem_cons_self (List.map_eq_nil_iff.mp this.symm)
        rw [if_neg hne, places_cons, places_cons]
        congr 1
        have := congrArg (List.map fun i => (a, i)) (hf w)
        simpa [List.map_map, Function.comp_def] using this
      · rw [places_cons, places_cons, ih fun y hy => h y (List.mem_cons_of_mem _ hy)]

end Edit

structure Sound (Q : Nat) (b : ReferenceBook) : Prop where
  side : ∀ S, SideSound Q S (b.sideOf S)
  uncrossed : ∀ S, ∀ x ∈ b.sideOf S, ∀ y ∈ b.sideOf (opposite S), ¬ inRange S x.1 y.1 = true
  located : ∀ id loc, b.index.lookup id = some loc ↔ loc.it = id ∧ (loc.price, id) ∈ places
    (b.sideOf loc.side)
  distinct : ∀ S, ((places (b.sideOf S)).map Prod.snd).Nodup
  held : (places b.bids).length + (places b.asks).length ≤ b.capacity

theorem sound_make (Q : Nat) (symbol : SymbolId) (cfg : BookConfig) :
    Sound Q (make symbol cfg) := by
  have hnil : ∀ S, (make symbol cfg).sideOf S = [] := by
    intro S
    cases S <;> rfl
  refine ⟨fun S => ?_, fun S x hx => ?_, fun id loc => ?_, fun S => ?_, Nat.zero_le _⟩
  · rw [hnil]
    exact ⟨.nil, by simp, by simp⟩
  · rw [hnil] at hx
    cases hx
  · rw [hnil]
    simp [make]
  · rw [hnil]
    exact List.nodup_nil

section Invariant

variable {Q : Nat} {b : ReferenceBook} {S : Side}

theorem inRange_comm (S : Side) (p p' : Price) : inRange S p p' = inRange (opposite S) p' p := by
  cases S <;> rfl

theorem Sound.other_side (h : Sound Q b) {T U : Side} {p p' : Price} {id : OrderId}
    (hp : (p, id) ∈ places (b.sideOf T)) (hp' : (p', id) ∈ places (b.sideOf U)) : T = U := by
  have h1 := (h.located id ⟨T, p, id⟩).mpr ⟨rfl, hp⟩
  have h2 := (h.located id ⟨U, p', id⟩).mpr ⟨rfl, hp'⟩
  rw [h1] at h2
  exact congrArg Loc.side (Option.some.inj h2)

theorem places_length (b : ReferenceBook) (S : Side) :
    (places b.bids).length + (places b.asks).length =
      (places (b.sideOf S)).length + (places (b.sideOf (opposite S))).length := by
  cases S
  · rfl
  · exact Nat.add_comm _ _

theorem Sound.update (h : Sound Q b) {l : RefSide} {index : Index} (side : SideSound Q S l)
    (uncrossed : ∀ x ∈ l, ∀ y ∈ b.sideOf (opposite S), ¬ inRange S x.1 y.1 = true)
    (here : ∀ id loc, loc.side = S →
      (index.lookup id = some loc ↔ loc.it = id ∧ (loc.price, id) ∈ places l))
    (there : ∀ id loc, loc.side = opposite S →
      (index.lookup id = some loc ↔ b.index.lookup id = some loc))
    (distinct : ((places l).map Prod.snd).Nodup)
    (held : (places l).length + (places (b.sideOf (opposite S))).length ≤ b.capacity) :
    Sound Q { b.setSide S l with index := index } := by
  have hsides : ∀ T, ReferenceBook.sideOf { b.setSide S l with index := index } T =
      if T = S then l else b.sideOf T := fun T => sideOf_setSide S l T
  have hopp : ¬ opposite S = S := fun he => ne_opposite S he.symm
  refine ⟨fun T => ?_, fun T x hx y hy => ?_, fun id loc => ?_, fun T => ?_, ?_⟩
  · rw [hsides]
    split
    · rename_i hT
      rw [hT]
      exact side
    · exact h.side T
  · rw [hsides] at hx hy
    by_cases hT : T = S
    · subst hT
      rw [if_pos rfl] at hx
      rw [if_neg hopp] at hy
      exact uncrossed x hx y hy
    · have hT' := eq_opposite_of_ne hT
      subst hT'
      rw [if_neg hopp] at hx
      rw [opposite_opposite, if_pos rfl] at hy
      rw [inRange_comm, opposite_opposite]
      exact uncrossed y hy x hx
  · rw [hsides]
    by_cases hT : loc.side = S
    · rw [if_pos hT]
      exact here id loc hT
    · rw [if_neg hT]
      exact (there id loc (eq_opposite_of_ne hT)).trans (h.located id loc)
  · rw [hsides]
    split
    · exact distinct
    · exact h.distinct T
  · rw [places_length _ S, hsides, hsides, if_pos rfl, if_neg hopp]
    have hcap : ({ b.setSide S l with index := index } : ReferenceBook).capacity = b.capacity := by
      cases S <;> rfl
    rw [hcap]
    exact held

/-- The book after a match. -/
def afterMatch (b : ReferenceBook) (S : Side) (m : SideMatch) : ReferenceBook :=
  { b.setSide (opposite S) m.levels with index := m.index }

theorem Sound.matched (h : Sound Q b) (taker : OrderId) (owner : OwnerId) (S : Side)
    (limit : Price) (qty : Qty) (stp : Stp) :
    Sound Q (b.afterMatch S (b.matchOrder taker owner S limit qty stp)) := by
  have hm := matchSide_left b.symbol taker owner S limit stp _ (h.side (opposite S)) qty b.index
  change SideLeft S limit Q (opposite S) _ qty b.index
    (b.matchOrder taker owner S limit qty stp) at hm
  generalize b.matchOrder taker owner S limit qty stp = m at hm ⊢
  obtain ⟨gone, hgone, hindex⟩ := hm.left
  have hnodup := h.distinct (opposite S)
  rw [hgone, List.map_append, List.nodup_append] at hnodup
  refine h.update hm.sound ?_ ?_ ?_ hnodup.2.1 ?_
  · intro x hx y hy
    obtain ⟨x', hx', he⟩ := hm.subset x hx
    rw [← he]
    exact h.uncrossed _ x' hx' y hy
  · rintro id loc hside
    rw [hindex]
    by_cases hg : id ∈ gone.map Prod.snd
    · rw [if_pos hg]
      constructor
      · intro hc
        cases hc
      · rintro ⟨_, hp⟩
        exact absurd rfl (hnodup.2.2 id hg id (List.mem_map.mpr ⟨_, hp, rfl⟩))
    · rw [if_neg hg, h.located, hside, hgone, List.mem_append]
      constructor
      · rintro ⟨hit, hp | hp⟩
        · exact absurd (List.mem_map.mpr ⟨_, hp, rfl⟩) hg
        · exact ⟨hit, hp⟩
      · rintro ⟨hit, hp⟩
        exact ⟨hit, .inr hp⟩
  · rintro id loc hside
    rw [hindex]
    by_cases hg : id ∈ gone.map Prod.snd
    · rw [if_pos hg]
      obtain ⟨⟨p, id'⟩, hp, hid⟩ := List.mem_map.mp hg
      obtain rfl : id' = id := hid
      constructor
      · intro hc
        cases hc
      · intro hloc
        have hthere := ((h.located _ loc).mp hloc).2
        have hhere : (p, id') ∈ places (b.sideOf (opposite S)) := by
          rw [hgone]
          exact List.mem_append_left _ hp
        have := h.other_side hhere hthere
        rw [hside] at this
        exact absurd this (ne_opposite (opposite S))
    · rw [if_neg hg]
  · have hheld := h.held
    rw [places_length b (opposite S), hgone, List.length_append] at hheld
    omega

theorem Sound.absent (h : Sound Q b) {id : OrderId} (hid : b.index.lookup id = none) (T : Side) :
    id ∉ (places (b.sideOf T)).map Prod.snd := by
  intro hm
  obtain ⟨⟨p, id'⟩, hp, he⟩ := List.mem_map.mp hm
  obtain rfl : id' = id := he
  have := (h.located id' ⟨T, p, id'⟩).mpr ⟨rfl, hp⟩
  rw [hid] at this
  cases this

/-- The book with a new order at the end of its queue. -/
def queued (b : ReferenceBook) (S : Side) (px : Price) (o : RefOrder) : ReferenceBook :=
  { b.setSide S (pushBack S px o (b.sideOf S)) with index := b.index.insert o.id ⟨S, px, o.id⟩ }

theorem Sound.queued (h : Sound Q b) {px : Price} {o : RefOrder} (hid : b.index.lookup o.id = none)
    (ho : o.qty ≠ 0 ∧ o.qty.toNat ≤ Q)
    (clear : ∀ y ∈ b.sideOf (opposite S), ¬ inRange S px y.1 = true)
    (room : (places b.bids).length + (places b.asks).length < b.capacity) :
    Sound Q (b.queued S px o) := by
  have hperm := places_pushBack S px o (b.sideOf S)
  refine h.update ((h.side S).pushBack px ho) ?_ ?_ ?_ ?_ ?_
  · rintro ⟨p, q⟩ hx y hy
    rcases (mem_pushBack (h.side S) px o p q).mp hx with ⟨rfl, _⟩ | ⟨_, hl⟩
    · exact clear y hy
    · exact h.uncrossed S _ hl y hy
  · intro id loc hside
    rw [hperm.mem_iff, List.mem_cons, Prod.mk.injEq]
    by_cases he : id = o.id
    · subst he
      rw [AList.lookup_insert]
      constructor
      · intro heq
        cases heq
        exact ⟨rfl, .inl ⟨rfl, rfl⟩⟩
      · rintro ⟨hit, ⟨hp, _⟩ | hp⟩
        · obtain ⟨_, _, _⟩ := loc
          cases hside
          cases hp
          cases hit
          rfl
        · exact absurd (List.mem_map.mpr ⟨_, hp, rfl⟩) (h.absent hid S)
    · rw [AList.lookup_insert_ne he, h.located, hside]
      constructor
      · rintro ⟨hit, hp⟩
        exact ⟨hit, .inr hp⟩
      · rintro ⟨hit, ⟨_, hc⟩ | hp⟩
        · exact absurd hc he
        · exact ⟨hit, hp⟩
  · intro id loc hside
    by_cases he : id = o.id
    · subst he
      rw [AList.lookup_insert, hid]
      constructor
      · intro heq
        cases heq
        exact absurd hside (ne_opposite S)
      · intro hc
        cases hc
    · rw [AList.lookup_insert_ne he]
  · have hmap := hperm.map Prod.snd
    rw [hmap.nodup_iff, List.map_cons, List.nodup_cons]
    exact ⟨h.absent hid S, h.distinct S⟩
  · rw [hperm.length_eq, List.length_cons]
    rw [places_length b S] at room
    omega

theorem Sound.deref (h : Sound Q b) {id : OrderId} {loc : Loc}
    (hloc : b.index.lookup id = some loc) :
    ∃ q o, (loc.price, q) ∈ b.sideOf loc.side ∧ o ∈ q ∧ o.id = id ∧ loc.it = id ∧
      q.find? (·.id = id) = some o ∧ b.deref loc = some o := by
  obtain ⟨hit, hp⟩ := (h.located id loc).mp hloc
  obtain ⟨q, hq, o, ho, hid⟩ := mem_places.mp hp
  have hfound : (q.find? (·.id = id)).isSome := by
    rw [List.find?_isSome]
    exact ⟨o, ho, by simpa using hid⟩
  obtain ⟨o', ho'⟩ := Option.isSome_iff_exists.mp hfound
  refine ⟨q, o', hq, List.mem_of_find?_eq_some ho', by simpa using List.find?_some ho', hit, ho',
    ?_⟩
  rw [ReferenceBook.deref, queueAt_of_mem (h.side _) hq, hit]
  exact ho'

theorem Sound.removed (h : Sound Q b) {id : OrderId} {loc : Loc}
    (hloc : b.index.lookup id = some loc) :
    Sound Q (b.remove id loc) := by
  obtain ⟨q, o, hq, _, _, hit, _⟩ := h.deref hloc
  have hside := h.side loc.side
  have hplaces := places_setQueue_filter hside loc.price id
  have hat := ((h.located id loc).mp hloc).2
  have hremove : b.remove id loc =
      { b.setSide loc.side
          (setQueue loc.price (fun q => q.filter (·.id ≠ id)) (b.sideOf loc.side)) with
        index := b.index.erase id } := by
    rw [ReferenceBook.remove, hit]
    cases loc.side <;> rfl
  rw [hremove]
  refine h.update (hside.setQueue hq ?_) ?_ ?_ ?_ ?_ ?_
  · intro x hx
    exact hside.each _ hq x (List.mem_of_mem_filter hx)
  · rintro ⟨p, r⟩ hx y hy
    rcases (mem_setQueue hside hq _ p r).mp hx with ⟨rfl, _, _⟩ | ⟨_, hl⟩
    · exact h.uncrossed _ _ hq y hy
    · exact h.uncrossed _ _ hl y hy
  · intro id' loc' hs
    rw [hplaces]
    by_cases he : id' = id
    · subst he
      rw [AList.lookup_erase]
      constructor
      · intro hc
        cases hc
      · rintro ⟨hit', hp⟩
        obtain ⟨hp, hne⟩ := List.mem_filter.mp hp
        have := (h.located id' loc').mpr ⟨hit', by rwa [hs]⟩
        rw [hloc] at this
        cases this
        simp at hne
    · rw [AList.lookup_erase_ne he, h.located, hs, List.mem_filter]
      simp [he]
  · intro id' loc' hs
    by_cases he : id' = id
    · subst he
      rw [AList.lookup_erase, hloc]
      constructor
      · intro hc
        cases hc
      · intro hc
        cases hc
        exact absurd hs (ne_opposite _)
    · rw [AList.lookup_erase_ne he]
  · rw [hplaces]
    exact (h.distinct loc.side).sublist (List.filter_sublist.map _)
  · rw [hplaces]
    have hheld := h.held
    rw [places_length b loc.side] at hheld
    have := List.length_filter_le (· ≠ (loc.price, id)) (places (b.sideOf loc.side))
    omega

theorem Sound.amended (h : Sound Q b) {id : OrderId} {loc : Loc}
    (hloc : b.index.lookup id = some loc) {qty : Qty} (hqty : qty ≠ 0 ∧ qty.toNat ≤ Q) :
    Sound Q (b.setSide loc.side (setQueue loc.price
      (fun q => q.map fun x => if x.id = id then { x with qty := qty } else x)
        (b.sideOf loc.side))) := by
  obtain ⟨q, o, hq, _, _, hit, _⟩ := h.deref hloc
  have hside := h.side loc.side
  have hids : ∀ q : RefQueue,
      (q.map fun x => if x.id = id then { x with qty := qty } else x).map
        (·.id) = q.map (·.id) := by
    intro q
    rw [List.map_map]
    refine List.map_congr_left fun x _ => ?_
    simp only [Function.comp_apply]
    split <;> rfl
  have hplaces := places_setQueue_map loc.price hids hside.full
  have heta : ∀ l, b.setSide loc.side l = { b.setSide loc.side l with index := b.index } := by
    intro l
    cases loc.side <;> rfl
  rw [heta]
  refine h.update (hside.setQueue hq ?_) ?_ ?_ ?_ ?_ ?_
  · intro x hx
    obtain ⟨y, hy, rfl⟩ := List.mem_map.mp hx
    split
    · exact hqty
    · exact hside.each _ hq y hy
  · rintro ⟨p, r⟩ hx y hy
    rcases (mem_setQueue hside hq _ p r).mp hx with ⟨rfl, _, _⟩ | ⟨_, hl⟩
    · exact h.uncrossed _ _ hq y hy
    · exact h.uncrossed _ _ hl y hy
  · intro id' loc' hs
    rw [hplaces, h.located, hs]
  · intro id' loc' _
    exact Iff.rfl
  · rw [hplaces]
    exact h.distinct loc.side
  · rw [hplaces, ← places_length]
    exact h.held

theorem Sound.size_eq (h : Sound Q b) :
    b.size = (places b.bids).length + (places b.asks).length := by
  have hnodup : ((places b.bids ++ places b.asks).map Prod.snd).Nodup := by
    rw [List.map_append, List.nodup_append]
    refine ⟨h.distinct .buy, h.distinct .sell, ?_⟩
    rintro i hi j hj rfl
    obtain ⟨⟨p, id⟩, hp, rfl⟩ := List.mem_map.mp hi
    obtain ⟨⟨p', id'⟩, hp', he⟩ := List.mem_map.mp hj
    obtain rfl : id' = id := he
    exact Side.noConfusion (@Sound.other_side Q b h .buy .sell p p' id' hp hp')
  have hperm : b.index.keys.Perm ((places b.bids ++ places b.asks).map Prod.snd) := by
    refine (List.perm_ext_iff_of_nodup b.index.nodupKeys hnodup).mpr fun id => ?_
    change id ∈ b.index.keys ↔ _
    rw [← AList.mem_keys, ← AList.lookup_isSome, Option.isSome_iff_exists, List.mem_map]
    constructor
    · rintro ⟨loc, hloc⟩
      have hp := ((h.located id loc).mp hloc).2
      refine ⟨(loc.price, id), ?_, rfl⟩
      cases hs : loc.side <;> rw [hs] at hp
      · exact List.mem_append_left _ hp
      · exact List.mem_append_right _ hp
    · rintro ⟨⟨p, i⟩, hp, rfl⟩
      rcases List.mem_append.mp hp with hp | hp
      · exact ⟨⟨.buy, p, i⟩, (h.located i ⟨.buy, p, i⟩).mpr ⟨rfl, hp⟩⟩
      · exact ⟨⟨.sell, p, i⟩, (h.located i ⟨.sell, p, i⟩).mpr ⟨rfl, hp⟩⟩
  have := hperm.length_eq
  rw [List.length_map, List.length_append] at this
  rw [← this, size, AList.keys, List.keys, List.length_map]

end Invariant

end ExchangeSim.Book.ReferenceBook
