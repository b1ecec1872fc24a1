/- digest: Steps that mix a word into a state without losing anything, and what a fold of them still
   tells apart. -/

import Mathlib.Logic.Function.Basic
import Mathlib.Tactic.Ring

set_option autoImplicit false
set_option relaxedAutoImplicit false

namespace ExchangeSim.Lib.Mixing

/-! ### Folds -/

section Fold

variable {σ ω : Type} {f : σ → ω → σ}

theorem foldl_injective (state : ∀ w, Function.Injective fun s => f s w) (ws : List ω) :
    Function.Injective fun s => ws.foldl f s := by
  induction ws with
  | nil => exact fun _ _ h => h
  | cons w ws ih => exact ih.comp (state w)

theorem foldl_ne_of_word (state : ∀ w, Function.Injective fun s => f s w)
    (word : ∀ s, Function.Injective (f s)) (s : σ) (before after : List ω) {w w' : ω}
    (hne : w ≠ w') :
    (before ++ w :: after).foldl f s ≠ (before ++ w' :: after).foldl f s := by
  rw [List.foldl_append, List.foldl_append, List.foldl_cons, List.foldl_cons]
  exact fun heq => hne (word _ (foldl_injective state after heq))

end Fold

/-! ### Steps -/

def rotl (x : UInt64) (k : Nat) : UInt64 := ⟨x.toBitVec.rotateLeft k⟩

theorem rotl_injective (k : Nat) : Function.Injective (rotl · k) := by
  intro x y h
  have hxy : x.toBitVec.rotateLeft k = y.toBitVec.rotateLeft k := congrArg UInt64.toBitVec h
  refine UInt64.toBitVec_inj.mp (BitVec.eq_of_getLsbD_eq fun i hi => ?_)
  -- bit `i` has gone to where `k` more is, around the end
  have hbit := congrArg (fun v => v.getLsbD ((i + k) % 64)) hxy
  simp only [BitVec.getLsbD_rotateLeft] at hbit
  by_cases hk : k % 64 ≤ (i + k) % 64
  · have hback : (i + k) % 64 - k % 64 = i := by omega
    have hlt : ¬ (i + k) % 64 < k % 64 := Nat.not_lt.mpr hk
    have hin : (i + k) % 64 < 64 := Nat.mod_lt _ (by decide)
    simpa [hlt, hin, hback] using hbit
  · have hlt : (i + k) % 64 < k % 64 := Nat.not_le.mp hk
    have hback : 64 - k % 64 + (i + k) % 64 = i := by omega
    simpa [hlt, hback] using hbit

theorem mul_injective {c d : UInt64} (hinv : c * d = 1) : Function.Injective (· * c) := by
  intro x y h
  have hx : x * c * d = y * c * d := congrArg (· * d) h
  rwa [UInt64.mul_assoc, UInt64.mul_assoc, hinv, UInt64.mul_one, UInt64.mul_one] at hx

theorem xor_injective (s : UInt64) : Function.Injective (s ^^^ ·) :=
  fun _ _ h => UInt64.xor_right_inj s |>.mp h

theorem xorshift_injective {k : UInt64} (hk : 32 ≤ k.toNat ∧ k.toNat < 64) :
    Function.Injective fun x : UInt64 => x ^^^ (x >>> k) := by
  have hback : ∀ x : UInt64, (x ^^^ (x >>> k)) ^^^ ((x ^^^ (x >>> k)) >>> k) = x := by
    intro x
    refine UInt64.toBitVec_inj.mp (BitVec.eq_of_getLsbD_eq fun i hi => ?_)
    have hmod : k.toBitVec.toNat % 64 = k.toNat := Nat.mod_eq_of_lt hk.2
    have hgone : x.toBitVec.getLsbD (k.toNat + (k.toNat + i)) = false :=
      BitVec.getLsbD_of_ge _ _ (by omega)
    simp [hmod, hgone, -UInt64.toNat_toBitVec]
  exact fun x y h => (hback x).symm.trans
    ((congrArg (fun z : UInt64 => z ^^^ (z >>> k)) h).trans (hback y))

end ExchangeSim.Lib.Mixing
