/- digest: Robin Hood order on an open-addressing table survives displacement and backward
   shifts. -/

import Mathlib.Logic.Function.Basic
import Mathlib.Data.Nat.Init
import Mathlib.Tactic.SplitIfs

set_option autoImplicit false
set_option relaxedAutoImplicit false

namespace ExchangeSim.Lib.RobinHood

universe u

/-- The slot after `i` on a cycle of `M` slots. -/
def next (M i : Nat) : Nat := if i + 1 = M then 0 else i + 1

/-- The slot `d` steps after `h`. -/
def after (M h d : Nat) : Nat := if h + d < M then h + d else h + d - M

/-- The number of steps from the home slot `h` to slot `i`. -/
def dist (M i h : Nat) : Nat := if h ≤ i then i - h else i + M - h

variable {M : Nat}

theorem next_lt {i : Nat} (hi : i < M) : next M i < M := by
  unfold next; split_ifs <;> omega

theorem next_ne {i : Nat} (hM : 1 < M) : next M i ≠ i := by
  unfold next; split_ifs <;> omega

theorem next_injective {i j : Nat} (h : next M i = next M j) : i = j := by
  unfold next at h; split_ifs at h <;> omega

theorem after_lt {h d : Nat} (hh : h < M) (hd : d ≤ M) : after M h d < M := by
  unfold after; split_ifs <;> omega

theorem after_succ {h d : Nat} (hh : h < M) (hd : d < M) :
    after M h (d + 1) = next M (after M h d) := by
  unfold after next; split_ifs <;> omega

theorem after_zero {h : Nat} (hh : h < M) : after M h 0 = h := by
  unfold after; split_ifs <;> omega

theorem dist_lt {i h : Nat} (hi : i < M) (hh : h < M) : dist M i h < M := by
  unfold dist; split_ifs <;> omega

theorem after_dist {i h : Nat} (hi : i < M) (hh : h < M) : after M h (dist M i h) = i := by
  unfold dist after; split_ifs <;> omega

theorem dist_next {i h : Nat} (hh : h < M) (hd : dist M i h + 1 < M) :
    dist M (next M i) h = dist M i h + 1 := by
  unfold dist next at *; split_ifs at * <;> omega

theorem dist_next_of_pos {i h : Nat} (hh : h < M) (hd : dist M (next M i) h ≠ 0) :
    dist M (next M i) h = dist M i h + 1 := by
  unfold dist next at *; split_ifs at * <;> omega

theorem dist_self (i : Nat) : dist M i i = 0 := by
  unfold dist; split_ifs <;> omega

variable {α : Type u} {home : α → Nat}

/-- Along a run of occupied slots, the distance from home grows by at most one per
slot, and an entry away from home follows an occupied slot. -/
def Ordered (M : Nat) (home : α → Nat) (T : Nat → Option α) : Prop :=
  ∀ i < M, ∀ b, T (next M i) = some b → dist M (next M i) (home b) ≠ 0 →
    ∃ a, T i = some a ∧ dist M (next M i) (home b) ≤ dist M i (home a) + 1

/-- An entry may be put at slot `i` as far as the slot before it is concerned. -/
def Fits (M : Nat) (home : α → Nat) (T : Nat → Option α) (i : Nat) (a : α) : Prop :=
  dist M i (home a) = 0 ∨ ∃ j < M, next M j = i ∧
    ∃ c, T j = some c ∧ dist M i (home a) ≤ dist M j (home c) + 1

section Probe

variable {T : Nat → Option α}

/-- Every slot between an entry's home and the entry is occupied, and by an entry at
least as far from its own home: the early stop of a lookup is sound. -/
theorem Ordered.occupied_back (ord : Ordered M home T) (homes : ∀ a, home a < M)
    {i : Nat} (hi : i < M) {b : α} (hb : T i = some b) (e : Nat)
    (he : e ≤ dist M i (home b)) :
    ∃ a, T (after M (home b) e) = some a ∧ e ≤ dist M (after M (home b) e) (home a) := by
  -- downward induction on the distance still to go
  induction hk : dist M i (home b) - e generalizing e with
  | zero =>
      have heq : e = dist M i (home b) := by omega
      rw [heq, after_dist hi (homes b)]
      exact ⟨b, hb, Nat.le_refl _⟩
  | succ k ih =>
      have hlt := dist_lt hi (homes b)
      obtain ⟨c, hc, hle⟩ := ih (e + 1) (by omega) (by omega)
      rw [after_succ (homes b) (by omega)] at hc hle
      obtain ⟨a, ha, hstep⟩ := ord _ (after_lt (homes b) (by omega)) c hc (by omega)
      exact ⟨a, ha, by omega⟩

theorem Ordered.dist_succ_lt (ord : Ordered M home T) (homes : ∀ a, home a < M)
    {k : Nat} (hk : k < M) (empty : T k = none) {i : Nat} (hi : i < M) {b : α}
    (hb : T i = some b) : dist M i (home b) + 1 < M := by
  by_contra hfar
  have hlt := dist_lt hi (homes b)
  have hpos := dist_lt hk (homes b)
  obtain ⟨a, ha, _⟩ := ord.occupied_back homes hi hb (dist M k (home b)) (by omega)
  rw [after_dist hk (homes b), empty] at ha
  cases ha

end Probe

section Update

variable {T : Nat → Option α}

theorem Ordered.update (ord : Ordered M home T) (hM : 1 < M) {i : Nat} (hi : i < M)
    {x : Option α}
    (here : ∀ a, x = some a → Fits M home T i a)
    (onward : ∀ b, T (next M i) = some b → dist M (next M i) (home b) ≠ 0 →
      ∃ a, x = some a ∧ dist M (next M i) (home b) ≤ dist M i (home a) + 1) :
    Ordered M home (Function.update T i x) := by
  intro j hj b hb hpos
  by_cases hji : j = i
  · subst hji
    rw [Function.update_of_ne (next_ne hM)] at hb
    rw [Function.update_self]
    exact onward b hb hpos
  · by_cases hnext : next M j = i
    · rw [hnext, Function.update_self] at hb
      rw [Function.update_of_ne hji]
      rcases here b hb with h | ⟨k, hk, hki, c, hc, hle⟩
      · rw [hnext] at hpos
        exact absurd h hpos
      · have : j = k := next_injective (hnext.trans hki.symm)
        subst this
        rw [hnext]
        exact ⟨c, hc, hle⟩
    · rw [Function.update_of_ne hnext] at hb
      rw [Function.update_of_ne hji]
      exact ord j hj b hb hpos

theorem Ordered.fill (ord : Ordered M home T) (hM : 1 < M) {i : Nat} (hi : i < M)
    (empty : T i = none) {a : α} (fits : Fits M home T i a) :
    Ordered M home (Function.update T i (some a)) := by
  apply ord.update hM hi
  · rintro c hc
    rw [Option.some.inj hc] at fits
    exact fits
  · intro b hb hpos
    obtain ⟨c, hc, _⟩ := ord i hi b hb hpos
    rw [empty] at hc
    cases hc

theorem Ordered.displace (ord : Ordered M home T) (hM : 1 < M) {i : Nat} (hi : i < M)
    {a b : α} (hb : T i = some b) (closer : dist M i (home b) < dist M i (home a))
    (fits : Fits M home T i a) : Ordered M home (Function.update T i (some a)) := by
  apply ord.update hM hi
  · rintro c hc
    rw [Option.some.inj hc] at fits
    exact fits
  · intro c hc hpos
    obtain ⟨b', hb', hle⟩ := ord i hi c hc hpos
    rw [hb] at hb'
    cases hb'
    exact ⟨a, rfl, by omega⟩

theorem Fits.next (homes : ∀ a, home a < M) {i : Nat} (hi : i < M) {a b : α}
    (hb : T i = some b) (far : dist M i (home a) ≤ dist M i (home b))
    (hd : dist M i (home a) + 1 < M) : Fits M home T (next M i) a := by
  right
  refine ⟨i, hi, rfl, b, hb, ?_⟩
  rw [dist_next (homes a) hd]
  omega

theorem Ordered.shift (ord : Ordered M home T) (hM : 1 < M) (homes : ∀ a, home a < M)
    {i : Nat} (hi : i < M) {b : α} (hb : T (RobinHood.next M i) = some b)
    (away : dist M (RobinHood.next M i) (home b) ≠ 0) :
    Ordered M home (Function.update T i (some b)) := by
  obtain ⟨a, ha, hle⟩ := ord i hi b hb away
  have hdist := dist_next_of_pos (homes b) away
  apply ord.update hM hi
  · rintro c hc
    cases hc
    by_cases hzero : dist M i (home b) = 0
    · exact Or.inl hzero
    · obtain ⟨j, hj, hji⟩ : ∃ j < M, RobinHood.next M j = i := by
        refine ⟨if i = 0 then M - 1 else i - 1, ?_, ?_⟩
        · split_ifs <;> omega
        · unfold RobinHood.next; split_ifs <;> omega
      rw [← hji] at ha
      obtain ⟨c, hc, hstep⟩ := ord j hj a ha (by rw [hji]; omega)
      rw [hji] at hstep
      exact Or.inr ⟨j, hj, hji, c, hc, by omega⟩
  · intro c hc _
    rw [hb] at hc
    cases hc
    exact ⟨b, rfl, by omega⟩

theorem Ordered.drop (ord : Ordered M home T) (hM : 1 < M) {i : Nat} (hi : i < M)
    (last : ∀ b, T (RobinHood.next M i) = some b → dist M (RobinHood.next M i) (home b) = 0) :
    Ordered M home (Function.update T i none) := by
  apply ord.update hM hi
  · intro a ha
    cases ha
  · intro b hb hpos
    exact absurd (last b hb) hpos

end Update

end ExchangeSim.Lib.RobinHood
