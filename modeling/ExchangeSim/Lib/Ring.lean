/- digest: A ring that keeps the newest entries of a numbered log. -/

import Mathlib.Data.List.Basic

set_option autoImplicit false
set_option relaxedAutoImplicit false

namespace ExchangeSim.Lib.Ring

variable {α : Type}

/-- The slots hold the entries `[lo, next)` of the log, as far as they are among the newest
`size`. -/
def Holds (size : Nat) (slots log : Nat → α) (lo next : Nat) : Prop :=
  ∀ s, lo ≤ s → s < next → next ≤ s + size → slots (s % size) = log s

theorem holds_empty (size : Nat) (slots log : Nat → α) (lo : Nat) : Holds size slots log lo lo :=
  fun _ hlo hlt => absurd hlt (Nat.not_lt.mpr hlo)

theorem slot_ne {size s t : Nat} (hst : s < t) (hts : t < s + size) : s % size ≠ t % size := by
  intro heq
  have hzero := Nat.sub_mod_eq_zero_of_mod_eq heq.symm
  rw [Nat.mod_eq_of_lt (by omega)] at hzero
  omega

theorem Holds.push {size : Nat} {slots log : Nat → α} {lo next : Nat}
    (h : Holds size slots log lo next) (a : α) (ha : log next = a) :
    Holds size (Function.update slots (next % size) a) log lo (next + 1) := by
  intro s hlo hlt hnew
  by_cases hs : s = next
  · rw [hs, Function.update_self, ha]
  · rw [Function.update_of_ne (slot_ne (by omega) (by omega))]
    exact h s hlo (by omega) (by omega)

theorem Holds.newest {size : Nat} {slots log : Nat → α} {lo next : Nat}
    (h : Holds size slots log lo next) (hsize : 0 < size)
    (hinj : ∀ s t, lo ≤ s → s < next → lo ≤ t → t < next → log s = log t → s = t) {s : Nat}
    (hlo : lo ≤ s) (hlt : s < next) (hs : slots (s % size) = log s) : next ≤ s + size := by
  by_contra hold
  -- the newest entry of the same slot has replaced it
  have hk : ∃ t, t % size = s % size ∧ s < t ∧ t < next ∧ next ≤ t + size := by
    refine ⟨s + size * ((next - 1 - s) / size), Nat.add_mul_mod_self_left .., ?_, ?_, ?_⟩
    · have : 1 ≤ (next - 1 - s) / size := (Nat.le_div_iff_mul_le hsize).mpr (by omega)
      have : size * 1 ≤ size * ((next - 1 - s) / size) := Nat.mul_le_mul_left size this
      omega
    · have := Nat.mul_div_le (next - 1 - s) size
      omega
    · have := Nat.lt_mul_div_succ (next - 1 - s) hsize
      rw [Nat.mul_add, Nat.mul_one] at this
      omega
  obtain ⟨t, hslot, hst, htn, hnew⟩ := hk
  have ht := h t (by omega) htn hnew
  rw [hslot, hs] at ht
  have := hinj s t hlo hlt (by omega) htn ht
  omega

end ExchangeSim.Lib.Ring
