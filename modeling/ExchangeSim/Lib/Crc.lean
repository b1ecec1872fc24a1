/- digest: The shift register of a reflected 32-bit CRC, bit by bit and byte by byte. -/

import Mathlib.Data.List.GetD
import Mathlib.Logic.Function.Iterate

set_option autoImplicit false
set_option relaxedAutoImplicit false

namespace ExchangeSim.Lib.Crc

/-- One bit through the register. -/
def shiftBit (poly c : BitVec 32) : BitVec 32 :=
  if c &&& 1 ≠ 0 then poly ^^^ (c >>> 1) else c >>> 1

variable (poly : BitVec 32)

private theorem low_bit (c : BitVec 32) : c &&& 1 ≠ 0 ↔ c.getLsbD 0 = true := by
  have h : c &&& 1 = BitVec.setWidth 32 (BitVec.ofBool (c.getLsbD 0)) :=
    BitVec.and_one_eq_setWidth_ofBool_getLsbD
  rw [h]
  cases c.getLsbD 0 <;> decide

theorem shiftBit_eq (c : BitVec 32) :
    shiftBit poly c = (if c.getLsbD 0 then poly else 0) ^^^ (c >>> 1) := by
  unfold shiftBit
  simp only [low_bit]
  split <;> simp

theorem getLsbD_shiftBit (c : BitVec 32) (i : Nat) :
    (shiftBit poly c).getLsbD i = ((c.getLsbD 0 && poly.getLsbD i) ^^ c.getLsbD (1 + i)) := by
  rw [shiftBit_eq, BitVec.getLsbD_xor, BitVec.getLsbD_ushiftRight]
  cases c.getLsbD 0 <;> simp

theorem shiftBit_xor (a b : BitVec 32) :
    shiftBit poly (a ^^^ b) = shiftBit poly a ^^^ shiftBit poly b := by
  apply BitVec.eq_of_getLsbD_eq
  intro i _
  simp only [getLsbD_shiftBit, BitVec.getLsbD_xor]
  cases a.getLsbD 0 <;> cases b.getLsbD 0 <;> cases poly.getLsbD i <;>
    cases a.getLsbD (1 + i) <;> cases b.getLsbD (1 + i) <;> rfl

/-- The bit shifted out can be read off the top of the register, so no two registers
are confused. -/
theorem shiftBit_injective (top : poly.getLsbD 31 = true) :
    Function.Injective (shiftBit poly) := by
  intro a b h
  have bit (i : Nat) := congrArg (fun c => BitVec.getLsbD c i) h
  simp only [getLsbD_shiftBit] at bit
  have low : a.getLsbD 0 = b.getLsbD 0 := by
    have := bit 31
    simpa only [top, Bool.and_true, BitVec.getLsbD_of_ge a (1 + 31) (by decide),
      BitVec.getLsbD_of_ge b (1 + 31) (by decide), Bool.xor_false] using this
  apply BitVec.eq_of_getLsbD_eq
  intro i _
  cases i with
  | zero => exact low
  | succ i =>
      have := bit i
      rw [low, Nat.add_comm 1 i] at this
      exact Bool.xor_right_inj.mp this

theorem iterate_shiftBit_xor (n : Nat) (a b : BitVec 32) :
    (shiftBit poly)^[n] (a ^^^ b) = (shiftBit poly)^[n] a ^^^ (shiftBit poly)^[n] b := by
  induction n with
  | zero => rfl
  | succ n ih => simp only [Function.iterate_succ_apply', ih, shiftBit_xor]

theorem iterate_shiftBit_of_clear (c : BitVec 32) (n : Nat)
    (clear : ∀ i, i < n → c.getLsbD i = false) : (shiftBit poly)^[n] c = c >>> n := by
  induction n with
  | zero => simp
  | succ n ih =>
      rw [Function.iterate_succ_apply', ih (fun i hi => clear i (by omega)), shiftBit_eq]
      simp [clear n (by omega), BitVec.shiftRight_add]

private theorem testBit_255 (i : Nat) : (255#32).getLsbD i = decide (i < 8) := by
  have : (255 : Nat) = 2 ^ 8 - 1 := rfl
  rw [BitVec.getLsbD_ofNat, this, Nat.testBit_two_pow_sub_one]
  by_cases h : i < 8
  · simp [h, show i < 32 by omega]
  · simp [h]

theorem table_step (x : BitVec 32) :
    (shiftBit poly)^[8] (x &&& 255#32) ^^^ (x >>> 8) = (shiftBit poly)^[8] x := by
  have clear : ∀ i, i < 8 → (x ^^^ (x &&& 255#32)).getLsbD i = false := by
    intro i hi
    simp [testBit_255, hi]
  have high : (x ^^^ (x &&& 255#32)) >>> 8 = x >>> 8 := by
    apply BitVec.eq_of_getLsbD_eq
    intro i _
    simp [testBit_255, show ¬ 8 + i < 8 by omega]
  have split : x = (x &&& 255#32) ^^^ (x ^^^ (x &&& 255#32)) := by
    rw [BitVec.xor_comm x, ← BitVec.xor_assoc, BitVec.xor_self, BitVec.zero_xor]
  rw [← high, ← iterate_shiftBit_of_clear poly _ 8 clear, ← iterate_shiftBit_xor, ← split]

/-! ### Messages bit by bit -/

/-- One bit of the message through the register. -/
def feed (c : BitVec 32) (b : Bool) : BitVec 32 :=
  if (c.getLsbD 0 ^^ b) = true then poly ^^^ (c >>> 1) else c >>> 1

/-- A bit at the bottom of the register. -/
def lowBit (b : Bool) : BitVec 32 := if b then 1 else 0

/-- Up to 32 bits of a message as a register, the first bit lowest. -/
def pack : List Bool → BitVec 32
  | [] => 0
  | b :: bs => lowBit b ^^^ (pack bs <<< 1)

theorem getLsbD_lowBit (b : Bool) (i : Nat) : (lowBit b).getLsbD i = (b && decide (i = 0)) := by
  cases b with
  | false => simp [lowBit]
  | true =>
      rw [lowBit, if_pos rfl]
      rw [show (1 : BitVec 32) = 1#32 from rfl, BitVec.getLsbD_one]
      simp

theorem feed_eq (c : BitVec 32) (b : Bool) : feed poly c b = shiftBit poly (c ^^^ lowBit b) := by
  have low : (c ^^^ lowBit b).getLsbD 0 = (c.getLsbD 0 ^^ b) := by
    rw [BitVec.getLsbD_xor, getLsbD_lowBit]
    simp
  have high : (c ^^^ lowBit b) >>> 1 = c >>> 1 := by
    apply BitVec.eq_of_getLsbD_eq
    intro i _
    rw [BitVec.getLsbD_ushiftRight, BitVec.getLsbD_ushiftRight, BitVec.getLsbD_xor, getLsbD_lowBit]
    simp
  rw [feed, shiftBit_eq, low, high]
  split <;> simp

theorem getLsbD_pack (bs : List Bool) (i : Nat) (hi : i < 32) :
    (pack bs).getLsbD i = bs.getD i false := by
  induction bs generalizing i with
  | nil => simp [pack]
  | cons b bs ih =>
      rw [pack, BitVec.getLsbD_xor, getLsbD_lowBit, BitVec.getLsbD_shiftLeft]
      cases i with
      | zero => simp
      | succ i =>
          have := ih i (by omega)
          simpa [hi] using this

theorem foldl_feed (c : BitVec 32) (bs : List Bool) (short : bs.length ≤ 32) :
    bs.foldl (feed poly) c = (shiftBit poly)^[bs.length] (c ^^^ pack bs) := by
  induction bs generalizing c with
  | nil => simp [pack]
  | cons b bs ih =>
      rw [List.length_cons] at short
      have room : shiftBit poly (pack bs <<< 1) = pack bs := by
        apply BitVec.eq_of_getLsbD_eq
        intro i hi
        rw [getLsbD_shiftBit, BitVec.getLsbD_shiftLeft, BitVec.getLsbD_shiftLeft]
        by_cases top : i = 31
        · subst top
          have : bs.getD 31 false = false := List.getD_eq_default _ _ (by omega)
          rw [getLsbD_pack bs 31 (by omega), this]
          simp
        · simp [show 1 + i < 32 by omega]
      calc (b :: bs).foldl (feed poly) c
          = (shiftBit poly)^[bs.length] (feed poly c b ^^^ pack bs) := ih _ (by omega)
        _ = (shiftBit poly)^[bs.length] (shiftBit poly ((c ^^^ lowBit b) ^^^ (pack bs <<< 1))) := by
            rw [feed_eq, shiftBit_xor poly (c ^^^ lowBit b), room]
        _ = (shiftBit poly)^[(b :: bs).length] (c ^^^ pack (b :: bs)) := by
            rw [pack, List.length_cons, Function.iterate_succ_apply, BitVec.xor_assoc]

theorem foldl_feed_xor (c d : BitVec 32) (as bs : List Bool) (h : as.length = bs.length) :
    as.foldl (feed poly) c ^^^ bs.foldl (feed poly) d =
      (as.zipWith (· ^^ ·) bs).foldl (feed poly) (c ^^^ d) := by
  have lows : ∀ a b, lowBit a ^^^ lowBit b = lowBit (a ^^ b) := by decide
  induction as generalizing bs c d with
  | nil =>
      cases bs with
      | nil => rfl
      | cons b bs => cases h
  | cons a as ih =>
      cases bs with
      | nil => cases h
      | cons b bs =>
          have both : feed poly c a ^^^ feed poly d b = feed poly (c ^^^ d) (a ^^ b) := by
            rw [feed_eq, feed_eq, feed_eq, ← shiftBit_xor, ← lows]
            congr 1
            ac_rfl
          rw [List.foldl_cons, List.foldl_cons, ih _ _ bs (Nat.succ.inj h), both]
          rfl

theorem foldl_feed_zeros (c : BitVec 32) (n : Nat) :
    (List.replicate n false).foldl (feed poly) c = (shiftBit poly)^[n] c := by
  induction n generalizing c with
  | zero => rfl
  | succ n ih =>
      rw [List.replicate_succ, List.foldl_cons, ih, Function.iterate_succ_apply, feed_eq]
      simp [lowBit]

theorem shiftBit_zero : shiftBit poly 0 = 0 := by simp [shiftBit]

theorem iterate_shiftBit_zero (n : Nat) : (shiftBit poly)^[n] 0 = 0 :=
  Function.iterate_fixed (shiftBit_zero poly) n

theorem iterate_shiftBit_ne_zero (top : poly.getLsbD 31 = true) (n : Nat)
    {c : BitVec 32} (h : c ≠ 0) :
    (shiftBit poly)^[n] c ≠ 0 := by
  intro hz
  apply h
  apply (shiftBit_injective poly top).iterate n
  rw [hz, iterate_shiftBit_zero]

theorem foldl_feed_burst_ne_zero (top : poly.getLsbD 31 = true) (front back : Nat)
    (burst : List Bool) (short : burst.length ≤ 32) (set : true ∈ burst) :
    (List.replicate front false ++ burst ++ List.replicate back false).foldl (feed poly) 0 ≠ 0 := by
  have packed : pack burst ≠ 0 := by
    obtain ⟨i, hi, hb⟩ := List.mem_iff_getElem.mp set
    intro hz
    have bit := getLsbD_pack burst i (by omega)
    rw [hz, List.getD_eq_getElem _ _ hi, hb] at bit
    simp at bit
  rw [List.foldl_append, List.foldl_append, foldl_feed_zeros, foldl_feed_zeros,
    iterate_shiftBit_zero,
    foldl_feed poly 0 burst short, show 0 ^^^ pack burst = pack burst from BitVec.zero_xor]
  exact iterate_shiftBit_ne_zero poly top _ (iterate_shiftBit_ne_zero poly top _ packed)

theorem window_split (bs : List Bool) (start : Nat)
    (inside : ∀ i, bs.getD i false = true → start ≤ i ∧ i < start + 32) :
    bs = List.replicate (min start bs.length) false ++ (bs.drop start).take 32 ++
      List.replicate (bs.length - (start + 32)) false := by
  have clear : ∀ l : List Bool, (∀ b ∈ l, b = false) → l = List.replicate l.length false :=
    fun l h => List.eq_replicate_iff.mpr ⟨rfl, h⟩
  have outside : ∀ i, (hi : i < bs.length) → (i < start ∨ start + 32 ≤ i) → bs[i] = false := by
    intro i hi hout
    by_contra hb
    have := inside i (by rw [List.getD_eq_getElem _ _ hi]; simpa using hb)
    omega
  have hfront : bs.take start = List.replicate (min start bs.length) false := by
    rw [clear (bs.take start), List.length_take]
    intro b hb
    obtain ⟨i, hi, rfl⟩ := List.mem_iff_getElem.mp hb
    rw [List.length_take] at hi
    rw [List.getElem_take]
    exact outside i (by omega) (by omega)
  have hback : bs.drop (start + 32) = List.replicate (bs.length - (start + 32)) false := by
    rw [clear (bs.drop (start + 32)), List.length_drop]
    intro b hb
    obtain ⟨i, hi, rfl⟩ := List.mem_iff_getElem.mp hb
    rw [List.length_drop] at hi
    rw [List.getElem_drop]
    exact outside _ (by omega) (by omega)
  rw [← hfront, ← hback, List.append_assoc, ← List.drop_drop, List.take_append_drop,
    List.take_append_drop]

end ExchangeSim.Lib.Crc
