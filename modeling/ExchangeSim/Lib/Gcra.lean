/- digest: The generic cell rate algorithm over unbounded times: what passes in a window, and who is
   never refused. -/

import Mathlib.Data.List.Basic
import Mathlib.Algebra.Order.Ring.Nat

set_option autoImplicit false
set_option relaxedAutoImplicit false

namespace ExchangeSim.Lib.Gcra

/-- The theoretical arrival time after a message. -/
def next (interval slack tat ts : Nat) : Nat :=
  if tat ≤ ts + slack then max ts tat + interval else tat

/-- The messages with the verdict on each. -/
def run (interval slack : Nat) : Nat → List Nat → List (Nat × Bool)
  | _, [] => []
  | tat, ts :: rest =>
      (ts, decide (tat ≤ ts + slack)) :: run interval slack (next interval slack tat ts) rest

/-- The messages of a window that pass. -/
def passed (a b : Nat) (l : List (Nat × Bool)) : Nat :=
  l.countP fun x => x.2 && (a ≤ x.1 && x.1 ≤ b)

theorem le_next (interval slack tat ts : Nat) : tat ≤ next interval slack tat ts := by
  rw [next]
  split
  · omega
  · exact le_rfl

theorem passed_run_cons (interval slack a b tat ts : Nat) (rest : List Nat) :
    passed a b (run interval slack tat (ts :: rest)) =
      passed a b (run interval slack (next interval slack tat ts) rest) +
        if tat ≤ ts + slack ∧ a ≤ ts ∧ ts ≤ b then 1 else 0 := by
  rw [run, passed, List.countP_cons]
  simp only [Bool.and_eq_true, decide_eq_true_eq, passed]

/-- Every message that passes moves the arrival time by an interval, and the last one still saw it
within reach. -/
theorem passed_reach (interval slack a b tat : Nat) (l : List Nat)
    (hsome : passed a b (run interval slack tat l) ≠ 0) :
    tat + (passed a b (run interval slack tat l) - 1) * interval ≤ b + slack := by
  induction l generalizing tat with
  | nil => exact absurd rfl hsome
  | cons ts rest ih =>
      rw [passed_run_cons] at hsome ⊢
      by_cases hpass : tat ≤ ts + slack ∧ a ≤ ts ∧ ts ≤ b
      · rw [if_pos hpass]
        by_cases hnone : passed a b (run interval slack (next interval slack tat ts) rest) = 0
        · rw [hnone]
          omega
        · have hrest := ih _ hnone
          obtain ⟨m, hm⟩ := Nat.exists_eq_succ_of_ne_zero hnone
          rw [hm] at hrest ⊢
          rw [next, if_pos hpass.1] at hrest
          rw [Nat.succ_sub_one] at hrest
          have hmul : (m.succ + 1 - 1) * interval = m * interval + interval :=
            Nat.succ_mul m interval
          rw [hmul]
          omega
      · rw [if_neg hpass, Nat.add_zero] at hsome ⊢
        exact (Nat.add_le_add_right (le_next interval slack tat ts) _).trans (ih _ hsome)

theorem passed_le (interval burst a b tat : Nat) (hi : 0 < interval) (hb : 0 < burst)
    (l : List Nat) :
    passed a b (run interval (interval * (burst - 1)) tat l) ≤ burst + (b - a) / interval := by
  induction l generalizing tat with
  | nil => exact Nat.zero_le _
  | cons ts rest ih =>
      rw [passed_run_cons]
      by_cases hpass : tat ≤ ts + interval * (burst - 1) ∧ a ≤ ts ∧ ts ≤ b
      · rw [if_pos hpass]
        by_cases hnone :
          passed a b (run interval (interval * (burst - 1))
            (next interval (interval * (burst - 1)) tat ts) rest) = 0
        · rw [hnone]
          exact le_add_right hb
        · have hreach := passed_reach _ _ a b _ rest hnone
          obtain ⟨m, hm⟩ := Nat.exists_eq_succ_of_ne_zero hnone
          rw [hm] at hreach ⊢
          rw [next, if_pos hpass.1, Nat.succ_sub_one] at hreach
          -- after the first message of the window the arrival time is at least `a + interval`
          have hspan : (m + 1) * interval ≤ (b - a) + interval * (burst - 1) := by
            rw [Nat.succ_mul]
            omega
          have hdiv : m + 1 ≤ ((b - a) + interval * (burst - 1)) / interval :=
            (Nat.le_div_iff_mul_le hi).mpr hspan
          rw [Nat.add_mul_div_left _ _ hi] at hdiv
          omega
      · rw [if_neg hpass, Nat.add_zero]
        exact ih _

theorem run_spaced (interval slack tat : Nat) (l : List Nat) (hfirst : ∀ ts ∈ l.head?, tat ≤ ts)
    (hspaced : l.IsChain fun x y => x + interval ≤ y) :
    ∀ x ∈ run interval slack tat l, x.2 = true := by
  induction l generalizing tat with
  | nil => exact fun x hx => nomatch hx
  | cons ts rest ih =>
      have hts : tat ≤ ts := hfirst ts rfl
      have hnext : next interval slack tat ts = ts + interval := by
        rw [next, if_pos (by omega), max_eq_left hts]
      intro x hx
      rw [run] at hx
      rcases List.mem_cons.mp hx with rfl | hx
      · exact decide_eq_true (by omega)
      · refine ih _ ?_ (List.isChain_of_isChain_cons hspaced) x hx
        intro y hy
        rw [hnext]
        cases rest with
        | nil => cases hy
        | cons z rest =>
            cases hy
            exact (List.isChain_cons_cons.mp hspaced).1

end ExchangeSim.Lib.Gcra
