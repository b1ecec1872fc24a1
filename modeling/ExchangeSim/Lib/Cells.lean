/- digest: Folds that rewrite one cell of a map for each element of a list. -/

import Mathlib.Data.List.Basic
import Mathlib.Logic.Function.Basic

set_option autoImplicit false
set_option relaxedAutoImplicit false

namespace ExchangeSim.Lib.Cells

variable {α κ ν : Type} [DecidableEq κ] (key : α → Option κ) (g : α → ν → ν)

/-- The cell of an element, if it has one, is rewritten from its current value. -/
def step (E : κ → ν) (x : α) : κ → ν :=
  match key x with
  | none => E
  | some k => Function.update E k (g x (E k))

/-- No two elements have the same cell. -/
def Apart (xs : List α) : Prop := xs.Pairwise fun x y => ∀ k, key x = some k → key y ≠ some k

variable {key g}

theorem step_none {E : κ → ν} {x : α} (h : key x = none) : step key g E x = E := by
  rw [step, h]

theorem step_some {E : κ → ν} {x : α} {k : κ} (h : key x = some k) :
    step key g E x = Function.update E k (g x (E k)) := by
  rw [step, h]

theorem step_other {E : κ → ν} {x : α} {k : κ} (h : key x ≠ some k) : step key g E x k = E k := by
  cases hx : key x with
  | none => rw [step_none hx]
  | some k' =>
      rw [step_some hx]
      refine Function.update_of_ne (fun heq => h ?_) _ _
      rw [hx, heq]

theorem foldl_other {xs : List α} {k : κ} (h : ∀ x ∈ xs, key x ≠ some k) (E : κ → ν) :
    xs.foldl (step key g) E k = E k := by
  induction xs generalizing E with
  | nil => rfl
  | cons x xs ih =>
      rw [List.foldl_cons, ih fun y hy => h y (by simp [hy])]
      exact step_other (h x (by simp))

theorem foldl_eq {xs : List α} (h : Apart key xs) (E : κ → ν) (k : κ) :
    xs.foldl (step key g) E k = match xs.find? fun x => key x = some k with
      | some x => g x (E k)
      | none => E k := by
  induction xs generalizing E with
  | nil => rfl
  | cons x xs ih =>
      obtain ⟨hx, hxs⟩ := List.pairwise_cons.mp h
      rw [List.foldl_cons, List.find?_cons]
      by_cases hk : key x = some k
      · rw [foldl_other (fun y hy => hx y hy k hk), step_some hk, Function.update_self]
        simp [hk]
      · rw [ih hxs, step_other hk]
        simp [hk]

theorem Apart.find {xs : List α} (h : Apart key xs) {x : α} (hx : x ∈ xs) {k : κ}
    (hk : key x = some k) :
    xs.find? (fun y => key y = some k) = some x := by
  induction xs with
  | nil => cases hx
  | cons y ys ih =>
      obtain ⟨hy, hys⟩ := List.pairwise_cons.mp h
      rw [List.find?_cons]
      rcases List.mem_cons.mp hx with rfl | hx
      · simp [hk]
      · have hne : key y ≠ some k := fun heq => hy x hx k heq hk
        simp only [hne, decide_false]
        exact ih hys hx

end ExchangeSim.Lib.Cells
