/- digest: Parent pointers that lead downwards: path compression, joining two trees, and the classes
   they stand for. -/

import Mathlib.Logic.Function.Basic
import Mathlib.Logic.Relation

set_option autoImplicit false
set_option relaxedAutoImplicit false

namespace ExchangeSim.Lib

open Relation (EqvGen)

universe u

variable {α : Type u}

structure Forest (key : α → Nat) (parent : α → Option α) (root : α → α) : Prop where
  below : ∀ x p, parent x = some p → key p < key x ∧ root p = root x
  fixed : ∀ x, parent x = none → root x = x
  bare : ∀ x, parent (root x) = none

/-- Two elements have one root exactly when the pairs connect them. -/
def Represents (root : α → α) (pairs : α → α → Prop) : Prop :=
  ∀ x y, root x = root y ↔ EqvGen pairs x y

namespace Forest

variable {key : α → Nat} {parent : α → Option α} {root : α → α}

theorem empty (key : α → Nat) : Forest key (fun _ : α => none) id where
  below := by
    intro x p h
    cases h
  fixed := fun _ _ => rfl
  bare := fun _ => rfl

theorem root_root (h : Forest key parent root) (x : α) : root (root x) = root x :=
  h.fixed _ (h.bare x)

theorem root_le (h : Forest key parent root) (x : α) : key (root x) ≤ key x := by
  induction hk : key x using Nat.strongRecOn generalizing x with
  | _ k ih =>
      cases hp : parent x with
      | none =>
          rw [h.fixed x hp]
          omega
      | some p =>
          obtain ⟨hlt, hroot⟩ := h.below x p hp
          have := ih (key p) (hk ▸ hlt) p rfl
          rw [hroot] at this
          omega

theorem root_lt (h : Forest key parent root) (inj : Function.Injective key) {x : α}
    (hx : parent x ≠ none) :
    key (root x) < key x := by
  refine Nat.lt_of_le_of_ne (h.root_le x) fun he => hx ?_
  have hbare := h.bare x
  rwa [inj he] at hbare

section Update

variable [DecidableEq α]

theorem compress (h : Forest key parent root) (inj : Function.Injective key) {x : α}
    (hx : parent x ≠ none) :
    Forest key (Function.update parent x (some (root x))) root where
  below := by
    intro y p hp
    by_cases hy : y = x
    · subst hy
      rw [Function.update_self] at hp
      obtain rfl := Option.some.inj hp
      exact ⟨h.root_lt inj hx, h.root_root y⟩
    · rw [Function.update_of_ne hy] at hp
      exact h.below y p hp
  fixed := by
    intro y hp
    by_cases hy : y = x
    · subst hy
      rw [Function.update_self] at hp
      cases hp
    · rw [Function.update_of_ne hy] at hp
      exact h.fixed y hp
  bare := by
    intro y
    rw [Function.update_of_ne]
    · exact h.bare y
    · intro hy
      exact hx (hy ▸ h.bare y)

theorem join (h : Forest key parent root) {a b : α} (ha : parent a = none) (hb : parent b = none)
    (hlt : key a < key b) :
    Forest key (Function.update parent b (some a)) fun x => if root x = b then a else root x where
  below := by
    have hne : a ≠ b := fun he => absurd hlt (by rw [he]; exact Nat.lt_irrefl _)
    intro y p hp
    by_cases hy : y = b
    · subst hy
      rw [Function.update_self] at hp
      obtain rfl := Option.some.inj hp
      rw [h.fixed a ha, h.fixed y hb, if_neg hne, if_pos rfl]
      exact ⟨hlt, rfl⟩
    · rw [Function.update_of_ne hy] at hp
      obtain ⟨hless, hroot⟩ := h.below y p hp
      rw [hroot]
      exact ⟨hless, rfl⟩
  fixed := by
    intro y hp
    by_cases hy : y = b
    · subst hy
      rw [Function.update_self] at hp
      cases hp
    · rw [Function.update_of_ne hy] at hp
      rw [h.fixed y hp, if_neg hy]
  bare := by
    have hne : a ≠ b := fun he => absurd hlt (by rw [he]; exact Nat.lt_irrefl _)
    intro y
    split
    · rw [Function.update_of_ne hne, ha]
    · rename_i hroot
      rw [Function.update_of_ne hroot, h.bare]

end Update

theorem least (h : Forest key parent root) {pairs : α → α → Prop}
    (hrep : Represents root pairs) (x : α) :
    EqvGen pairs x (root x) ∧ ∀ y, EqvGen pairs x y → key (root x) ≤ key y := by
  refine ⟨(hrep x _).mp (h.root_root x).symm, fun y hy => ?_⟩
  rw [(hrep x y).mpr hy]
  exact h.root_le y

end Forest

theorem represents_id : Represents (id : α → α) fun _ _ => False := by
  intro x y
  constructor
  · rintro rfl
    exact .refl _
  · intro h
    induction h with
    | rel _ _ h => exact h.elim
    | refl _ => rfl
    | symm _ _ _ ih => exact ih.symm
    | trans _ _ _ _ _ ih₁ ih₂ => exact ih₁.trans ih₂

variable [DecidableEq α] {root : α → α} {pairs : α → α → Prop} {a b u v : α}

theorem Represents.join (h : Represents root pairs)
    (roots : (root u = a ∧ root v = b) ∨ (root u = b ∧ root v = a)) :
    Represents (fun x => if root x = b then a else root x) fun x y =>
      pairs x y ∨ (x = u ∧ y = v) := by
  have old : ∀ {x y}, root x = root y → EqvGen (fun x y => pairs x y ∨ (x = u ∧ y = v)) x y :=
    fun hxy => Relation.EqvGen.mono (fun _ _ => Or.inl) _ _ ((h _ _).mp hxy)
  have link : EqvGen (fun x y => pairs x y ∨ (x = u ∧ y = v)) u v := .rel _ _ (.inr ⟨rfl, rfl⟩)
  -- elements under the two roots are connected through the new pair
  have across : ∀ {x y}, root x = b → root y = a →
      EqvGen (fun x y => pairs x y ∨ (x = u ∧ y = v)) x y := by
    intro x y hx hy
    rcases roots with ⟨hu, hv⟩ | ⟨hu, hv⟩
    · exact (old (hx.trans hv.symm)).trans _ _ _
        ((link.symm _ _).trans _ _ _ (old (hu.trans hy.symm)))
    · exact (old (hx.trans hu.symm)).trans _ _ _ (link.trans _ _ _ (old (hv.trans hy.symm)))
  intro x y
  constructor
  · intro hxy
    dsimp only at hxy
    split at hxy
    · rename_i hx
      split at hxy
      · rename_i hy
        exact old (hx.trans hy.symm)
      · exact across hx hxy.symm
    · split at hxy
      · rename_i hy
        exact (across hy hxy).symm _ _
      · exact old hxy
  · intro hxy
    induction hxy with
    | rel x y hr =>
        rcases hr with hr | ⟨rfl, rfl⟩
        · dsimp only
          rw [(h x y).mpr (.rel _ _ hr)]
        · rcases roots with ⟨hu, hv⟩ | ⟨hu, hv⟩
          · simp [hu, hv]
          · simp [hu, hv]
    | refl _ => rfl
    | symm _ _ _ ih => exact ih.symm
    | trans _ _ _ _ _ ih₁ ih₂ => exact ih₁.trans ih₂

theorem Represents.inside (h : Represents root pairs) (same : root u = root v) :
    Represents root fun x y => pairs x y ∨ (x = u ∧ y = v) := by
  have hjoin := h.join (u := u) (v := v) (a := root u) (.inl ⟨rfl, same.symm⟩)
  have hroot : (fun x => if root x = root u then root u else root x) = root := by
    funext x
    split
    · rename_i hx
      exact hx.symm
    · rfl
  rwa [hroot] at hjoin

end ExchangeSim.Lib
