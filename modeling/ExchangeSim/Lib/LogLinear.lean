/- digest: Log-linear buckets of numbers, and order statistics read off monotone buckets. -/

import Mathlib.Data.Nat.Log
import Mathlib.Tactic.Linarith
import Mathlib.Tactic.Ring

set_option autoImplicit false
set_option relaxedAutoImplicit false

namespace ExchangeSim.Lib.LogLinear

section Buckets

variable (k : Nat)

/-- Numbers below `2 ^ k` have buckets of their own; above, each power of two is cut into `2 ^ k`
equal parts. -/
def bucket (n : Nat) : Nat :=
  if n < 2 ^ k then n else (Nat.log2 n - k) * 2 ^ k + n / 2 ^ (Nat.log2 n - k)

/-- The greatest number of a bucket. -/
def upper (i : Nat) : Nat :=
  if i < 2 ^ k then i else (i % 2 ^ k + 2 ^ k + 1) * 2 ^ (i / 2 ^ k - 1) - 1

theorem upper_cell {s m : Nat} (hm : 2 ^ k ≤ m) (hm' : m < 2 * 2 ^ k) :
    upper k (s * 2 ^ k + m) = (m + 1) * 2 ^ s - 1 := by
  have hpos : 0 < 2 ^ k := Nat.two_pow_pos k
  obtain ⟨r, rfl⟩ := Nat.exists_eq_add_of_le hm
  have hr : r < 2 ^ k := by omega
  have heq : s * 2 ^ k + (2 ^ k + r) = r + 2 ^ k * (s + 1) := by ring
  have hmod : (s * 2 ^ k + (2 ^ k + r)) % 2 ^ k = r := by
    rw [heq, Nat.add_mul_mod_self_left, Nat.mod_eq_of_lt hr]
  have hdiv : (s * 2 ^ k + (2 ^ k + r)) / 2 ^ k = s + 1 := by
    rw [heq, Nat.add_mul_div_left _ _ hpos, Nat.div_eq_of_lt hr, Nat.zero_add]
  rw [upper, if_neg (by omega), hmod, hdiv, Nat.add_sub_cancel, Nat.add_comm r]

structure Cell (n s m : Nat) : Prop where
  bucket : bucket k n = s * 2 ^ k + m
  low : 2 ^ k ≤ m
  high : m < 2 * 2 ^ k
  below : m * 2 ^ s ≤ n
  above : n < (m + 1) * 2 ^ s

theorem cell {n : Nat} (h : 2 ^ k ≤ n) : Cell k n (Nat.log2 n - k) (n / 2 ^ (Nat.log2 n - k)) := by
  have hne : n ≠ 0 := fun h0 => absurd (h0 ▸ h) (by simp)
  have hlog : k ≤ Nat.log2 n := (Nat.le_log2 hne).mpr h
  obtain ⟨s, hs⟩ := Nat.exists_eq_add_of_le hlog
  have hsub : Nat.log2 n - k = s := by omega
  have hpos : 0 < 2 ^ s := Nat.two_pow_pos s
  have hle : 2 ^ k * 2 ^ s ≤ n := by
    rw [← Nat.pow_add, ← hs]
    exact Nat.log2_self_le hne
  have hlt : n < 2 * 2 ^ k * 2 ^ s := by
    have := Nat.lt_log2_self (n := n)
    rw [hs, Nat.pow_succ, Nat.pow_add] at this
    linarith
  rw [hsub]
  refine ⟨?_, ?_, ?_, Nat.div_mul_le_self n _, ?_⟩
  · rw [LogLinear.bucket, if_neg (by omega), hsub]
  · exact (Nat.le_div_iff_mul_le hpos).mpr hle
  · exact (Nat.div_lt_iff_lt_mul hpos).mpr hlt
  · exact Nat.lt_mul_of_div_lt (Nat.lt_succ_self _) hpos

theorem le_upper (n : Nat) : n ≤ upper k (bucket k n) := by
  by_cases h : n < 2 ^ k
  · rw [bucket, if_pos h, upper, if_pos h]
  · have c := cell k (not_lt.mp h)
    rw [c.bucket, upper_cell k c.low c.high]
    have := c.above
    omega

theorem upper_le (n : Nat) : upper k (bucket k n) ≤ n + n / 2 ^ k := by
  by_cases h : n < 2 ^ k
  · rw [bucket, if_pos h, upper, if_pos h]
    exact Nat.le_add_right _ _
  · have c := cell k (not_lt.mp h)
    rw [c.bucket, upper_cell k c.low c.high]
    generalize Nat.log2 n - k = s at c
    generalize n / 2 ^ s = m at c
    have hpart : 2 ^ s ≤ n / 2 ^ k := by
      rw [Nat.le_div_iff_mul_le (Nat.two_pow_pos k)]
      calc 2 ^ s * 2 ^ k = 2 ^ k * 2 ^ s := Nat.mul_comm _ _
        _ ≤ m * 2 ^ s := Nat.mul_le_mul_right _ c.low
        _ ≤ n := c.below
    have hbelow := c.below
    rw [Nat.succ_mul]
    generalize n / 2 ^ k = d at hpart ⊢
    omega

theorem upper_pred {s m : Nat} (hm : 2 ^ k ≤ m) (hm' : m < 2 * 2 ^ k) :
    upper k (s * 2 ^ k + m - 1) + 1 = m * 2 ^ s := by
  have hpos : 0 < 2 ^ k := Nat.two_pow_pos k
  have hs : 0 < m * 2 ^ s := Nat.mul_pos (by omega) (Nat.two_pow_pos s)
  by_cases hlow : m = 2 ^ k
  · subst hlow
    cases s with
    | zero =>
        rw [upper, if_pos (by omega), Nat.pow_zero]
        omega
    | succ s =>
        -- the last part of the octave below
        have hprev : (s + 1) * 2 ^ k + 2 ^ k - 1 = s * 2 ^ k + (2 * 2 ^ k - 1) := by
          rw [Nat.succ_mul]
          omega
        have hsub : 2 * 2 ^ k - 1 + 1 = 2 * 2 ^ k := by omega
        have hdouble : 2 * 2 ^ k * 2 ^ s = 2 ^ k * 2 ^ (s + 1) := by ring
        rw [hprev, upper_cell k (by omega) (by omega), hsub, hdouble]
        omega
  · have hprev : s * 2 ^ k + m - 1 = s * 2 ^ k + (m - 1) := by omega
    rw [hprev, upper_cell k (by omega) (by omega), Nat.sub_add_cancel (show 1 ≤ m by omega)]
    omega

theorem upper_lt_succ (i : Nat) : upper k i < upper k (i + 1) := by
  have hpos : 0 < 2 ^ k := Nat.two_pow_pos k
  by_cases h : i + 1 < 2 ^ k
  · rw [upper, if_pos (by omega), upper, if_pos h]
    omega
  have hnext : ∃ s m, 2 ^ k ≤ m ∧ m < 2 * 2 ^ k ∧ i + 1 = s * 2 ^ k + m := by
    refine ⟨(i + 1) / 2 ^ k - 1, (i + 1) % 2 ^ k + 2 ^ k, by omega, ?_, ?_⟩
    · have := Nat.mod_lt (i + 1) hpos
      omega
    · have hdiv : 1 ≤ (i + 1) / 2 ^ k := (Nat.le_div_iff_mul_le hpos).mpr (by omega)
      obtain ⟨d, hd⟩ := Nat.exists_eq_add_of_le hdiv
      have heq := Nat.div_add_mod (i + 1) (2 ^ k)
      rw [hd] at heq ⊢
      rw [Nat.add_sub_cancel_left]
      linarith
  obtain ⟨s, m, hm, hm', heq⟩ := hnext
  have hpred := upper_pred k (s := s) hm hm'
  rw [← heq, Nat.add_sub_cancel] at hpred
  rw [heq, upper_cell k hm hm', Nat.succ_mul]
  have := Nat.two_pow_pos s
  omega

theorem upper_strictMono : StrictMono (upper k) := strictMono_nat_of_lt_succ (upper_lt_succ k)

theorem upper_pred_lt {n : Nat} (h : 0 < bucket k n) : upper k (bucket k n - 1) < n := by
  by_cases hsmall : n < 2 ^ k
  · rw [bucket, if_pos hsmall] at h ⊢
    rw [upper, if_pos (by omega)]
    omega
  · have c := cell k (not_lt.mp hsmall)
    have hpred := upper_pred k (s := Nat.log2 n - k) c.low c.high
    have := c.below
    rw [c.bucket]
    omega

theorem bucket_mono : Monotone (bucket k) := by
  intro a b hab
  by_contra hlt
  have hle : bucket k b ≤ bucket k a - 1 := by omega
  have h1 := (upper_strictMono k).monotone hle
  have h2 := upper_pred_lt k (n := a) (by omega)
  have h3 := le_upper k b
  omega

theorem bucket_lt {n w : Nat} (hw : k < w) (h : n < 2 ^ w) : bucket k n < (w - k + 1) * 2 ^ k := by
  by_cases hsmall : n < 2 ^ k
  · rw [bucket, if_pos hsmall, Nat.succ_mul]
    exact Nat.lt_add_left _ hsmall
  · have c := cell k (not_lt.mp hsmall)
    have hne : n ≠ 0 := fun h0 => hsmall (h0 ▸ Nat.two_pow_pos k)
    have hlog : Nat.log2 n < w := (Nat.log2_lt hne).mpr h
    have hs : Nat.log2 n - k + 1 ≤ w - k := by omega
    have hmul := Nat.mul_le_mul_right (2 ^ k) hs
    have := c.high
    rw [c.bucket]
    rw [Nat.succ_mul] at hmul ⊢
    omega

end Buckets

section Ranks

universe u

variable {α : Type u} {le : α → α → Bool} {f : α → Nat}

theorem countP_lt_of_sorted (mono : ∀ a b, le a b = true → f a ≤ f b) {l : List α}
    (sorted : l.Pairwise fun a b => le a b = true) {i : Nat} {x : α} (hx : l[i]? = some x) :
    l.countP (fun v => f v < f x) ≤ i := by
  obtain ⟨hi, hget⟩ := List.getElem?_eq_some_iff.mp hx
  have htail : (l.drop i).countP (fun v => f v < f x) = 0 := by
    rw [List.countP_eq_zero]
    intro v hv
    rw [List.drop_eq_getElem_cons hi, hget] at hv
    have hs := sorted.sublist (List.drop_sublist i l)
    rw [List.drop_eq_getElem_cons hi, hget, List.pairwise_cons] at hs
    rcases List.mem_cons.mp hv with rfl | hv
    · simp
    · simpa using mono _ _ (hs.1 v hv)
  calc l.countP (fun v => f v < f x)
      = (l.take i ++ l.drop i).countP (fun v => f v < f x) := by rw [List.take_append_drop]
    _ = (l.take i).countP (fun v => f v < f x) := by rw [List.countP_append, htail, Nat.add_zero]
    _ ≤ (l.take i).length := List.countP_le_length
    _ ≤ i := by
        rw [List.length_take]
        omega

theorem lt_countP_of_sorted (mono : ∀ a b, le a b = true → f a ≤ f b) {l : List α}
    (sorted : l.Pairwise fun a b => le a b = true) {i : Nat} {x : α} (hx : l[i]? = some x) :
    i < l.countP fun v => f v ≤ f x := by
  obtain ⟨hi, hget⟩ := List.getElem?_eq_some_iff.mp hx
  have hfront : l.take (i + 1) = l.take i ++ [x] := by
    rw [List.take_succ_eq_append_getElem hi, hget]
  have hhead : (l.take (i + 1)).countP (fun v => f v ≤ f x) = (l.take (i + 1)).length := by
    rw [List.countP_eq_length]
    intro v hv
    have hs := sorted.sublist (List.take_sublist (i + 1) l)
    rw [hfront, List.pairwise_append] at hs
    rw [hfront] at hv
    rcases List.mem_append.mp hv with hv | hv
    · simpa using mono _ _ (hs.2.2 v hv x List.mem_cons_self)
    · rw [List.mem_singleton.mp hv]
      simp
  have hlen : (l.take (i + 1)).length = i + 1 := by
    rw [List.length_take]
    omega
  have hle := (List.take_sublist (i + 1) l).countP_le (p := fun v => f v ≤ f x)
  omega

end Ranks

end ExchangeSim.Lib.LogLinear
