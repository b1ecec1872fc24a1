/- digest: Properties of every entry of a log, given the entries before it. -/

import Mathlib.Data.List.Basic

set_option autoImplicit false
set_option relaxedAutoImplicit false

namespace ExchangeSim.Lib

universe u

variable {α : Type u}

/-- Every entry of the log satisfies `P` with the log before it. -/
def Always (P : List α → α → Prop) (log : List α) : Prop :=
  ∀ pre a post, log = pre ++ a :: post → P pre a

variable {P Q : List α → α → Prop} {log : List α}

theorem always_nil : Always P ([] : List α) := by
  intro pre a post h
  simp at h

theorem Always.snoc (h : Always P log) {a : α} (ha : P log a) : Always P (log ++ [a]) := by
  intro pre b post he
  rcases List.append_eq_append_iff.mp he.symm with ⟨mid, hlog, hpost⟩ | ⟨mid, hpre, hmid⟩
  · cases mid with
    | nil =>
        obtain ⟨rfl, -⟩ := List.cons.inj hpost
        rw [List.append_nil] at hlog
        rwa [← hlog]
    | cons c mid =>
        obtain ⟨rfl, -⟩ := List.cons.inj hpost
        exact h pre b mid hlog
  · cases mid with
    | nil =>
        obtain ⟨rfl, -⟩ := List.cons.inj hmid
        rw [List.append_nil] at hpre
        rwa [hpre]
    | cons c mid =>
        have := congrArg List.length hmid
        simp at this

theorem Always.append (h : Always P log) {more : List α} (hmore : ∀ pre, ∀ a ∈ more, P pre a) :
    Always P (log ++ more) := by
  induction more generalizing log with
  | nil => rwa [List.append_nil]
  | cons a more ih =>
      rw [List.append_cons]
      exact ih (h.snoc (hmore log a List.mem_cons_self)) fun pre b hb =>
        hmore pre b (List.mem_cons_of_mem a hb)

theorem Always.front {more : List α} (h : Always P (log ++ more)) : Always P log := by
  intro pre a post he
  exact h pre a (post ++ more) (by rw [he, List.append_assoc, List.cons_append])

end ExchangeSim.Lib
