/- digest: The table-driven checksum is the bit-by-bit one, and it notices every burst of up to 32
   bits. -/

import ExchangeSim.Journal.Journal

set_option autoImplicit false
set_option relaxedAutoImplicit false

namespace ExchangeSim.Journal

open ExchangeSim.Lib

/-- The bits of a byte, the least significant one first. -/
def byteBits (b : UInt8) : List Bool := (List.range 8).map b.toBitVec.getLsbD

/-- A byte string as the sequence of its bits. -/
def bits (data : Bytes) : List Bool := data.flatMap byteBits

namespace Crc32c

/-- The checksum with one shift of the register for each bit. -/
def bitwise (data : Bytes) : UInt32 :=
  ⟨(bits data).foldl (Crc.feed kPoly) 0xFFFFFFFF#32 ^^^ 0xFFFFFFFF#32⟩

end Crc32c

@[simp] theorem length_byteBits (b : UInt8) : (byteBits b).length = 8 := by simp [byteBits]

theorem pack_byteBits (b : UInt8) : Crc.pack (byteBits b) = b.toUInt32.toBitVec := by
  apply BitVec.eq_of_getLsbD_eq
  intro i hi
  rw [Crc.getLsbD_pack _ i hi]
  by_cases h : i < 8
  · rw [List.getD_eq_getElem _ _ (by simpa using h)]
    simp [byteBits, hi]
  · rw [List.getD_eq_default _ _ (by simpa using h)]
    simp [BitVec.getLsbD_of_ge b.toBitVec i (by omega)]

theorem byteBits_injective : Function.Injective byteBits := by
  intro a b h
  have hp := congrArg (fun l => (Crc.pack l).toNat) h
  apply UInt8.toNat_inj.mp
  simpa [pack_byteBits] using hp

theorem bits_cons (b : UInt8) (data : Bytes) : bits (b :: data) = byteBits b ++ bits data := rfl

theorem length_bits (data : Bytes) : (bits data).length = 8 * data.length := by
  induction data with
  | nil => rfl
  | cons b data ih =>
      rw [bits_cons, List.length_append, length_byteBits, ih, List.length_cons]
      omega

theorem bits_injective {p q : Bytes} (len : p.length = q.length) (h : bits p = bits q) : p = q := by
  induction p generalizing q with
  | nil => exact (List.length_eq_zero_iff.mp len.symm).symm
  | cons a p ih =>
      cases q with
      | nil => cases len
      | cons b q =>
          obtain ⟨hb, hrest⟩ := List.append_inj h (by simp)
          rw [byteBits_injective hb, ih (Nat.succ.inj len) hrest]

namespace Crc32c

theorem step_eq_feed (c : BitVec 32) (b : UInt8) :
    step c b = (byteBits b).foldl (Crc.feed kPoly) c := by
  rw [Crc.foldl_feed kPoly c _ (by simp), pack_byteBits, length_byteBits, step_eq]

theorem foldl_step_eq_feed (c : BitVec 32) (data : Bytes) :
    data.foldl step c = (bits data).foldl (Crc.feed kPoly) c := by
  induction data generalizing c with
  | nil => rfl
  | cons b data ih => rw [List.foldl_cons, ih, bits_cons, List.foldl_append, ← step_eq_feed]

theorem of_eq_bitwise (data : Bytes) : of data = bitwise data := by
  rw [of, bitwise, ← foldl_step_eq_feed, ← BitVec.xor_allOnes]
  rfl

theorem of_inj {p q : Bytes} (len : p.length = q.length) :
    of p = of q ↔ ((bits p).zipWith (· ^^ ·) (bits q)).foldl (Crc.feed kPoly) 0 = 0 := by
  have hlen : (bits p).length = (bits q).length := by rw [length_bits, length_bits, len]
  rw [of, of, UInt32.ofBitVec.injEq, BitVec.not_inj, foldl_step_eq_feed, foldl_step_eq_feed,
    ← BitVec.xor_eq_zero_iff, Crc.foldl_feed_xor kPoly _ _ _ _ hlen, BitVec.xor_self]
  rfl

end Crc32c

/-- Strings of one length that differ, and only within 32 consecutive bits, have different
checksums; the checksum is the one computed bit by bit. -/
theorem crc_detects_bursts :
    (∀ (p q : Bytes) (start : Nat), p.length = q.length → p ≠ q →
      (∀ i : Nat, (bits p)[i]? ≠ (bits q)[i]? → start ≤ i ∧ i < start + 32) →
      Crc32c.of p ≠ Crc32c.of q) ∧
    ∀ p : Bytes, Crc32c.of p = Crc32c.bitwise p := by
  refine ⟨?_, Crc32c.of_eq_bitwise⟩
  intro p q start len differ window same
  have hlen : (bits p).length = (bits q).length := by rw [length_bits, length_bits, len]
  have hbit : ∀ i : Nat, ((bits p).zipWith (· ^^ ·) (bits q)).getD i false = true ↔
      (bits p)[i]? ≠ (bits q)[i]? := by
    intro i
    rw [List.getD_eq_getElem?_getD, List.getElem?_zipWith]
    by_cases hi : i < (bits p).length
    · rw [List.getElem?_eq_getElem hi, List.getElem?_eq_getElem (hlen ▸ hi)]
      simp
    · rw [List.getElem?_eq_none (by omega), List.getElem?_eq_none (by omega)]
      simp
  have hsplit := Crc.window_split _ start fun i hi => window i ((hbit i).mp hi)
  refine absurd ((Crc32c.of_inj len).mp same) ?_
  rw [hsplit]
  apply Crc.foldl_feed_burst_ne_zero Crc32c.kPoly (by decide)
  · rw [List.length_take]
    omega
  -- a difference without a set bit would be none
  by_contra hnone
  apply differ
  apply bits_injective len
  apply List.ext_getElem?
  intro i
  by_contra hne
  have hset := (hbit i).mpr hne
  have hin := window i hne
  apply hnone
  rw [List.mem_iff_getElem?]
  refine ⟨i - start, ?_⟩
  rw [List.getElem?_take, if_pos (by omega), List.getElem?_drop, show start + (i - start) = i by
    omega]
  rw [List.getD_eq_getElem?_getD] at hset
  cases hget : ((bits p).zipWith (· ^^ ·) (bits q))[i]? with
  | none => simp [hget] at hset
  | some b =>
      rw [hget] at hset
      exact congrArg some hset

theorem crc_detects_bursts_straddling :
    Crc32c.of [1, 0x80, 0, 0, 0, 0x7F] ≠ Crc32c.of [1, 0, 0, 0xFF, 0, 0x70] ∧
      Crc32c.of [0x31, 0x32, 0x33] = Crc32c.bitwise [0x31, 0x32, 0x33] := by
  refine ⟨crc_detects_bursts.1 _ _ 15 rfl (by decide) ?_, crc_detects_bursts.2 _⟩
  have h : ∀ i < 48, (bits [1, 0x80, 0, 0, 0, 0x7F])[i]? ≠ (bits [1, 0, 0, 0xFF, 0, 0x70])[i]? →
      15 ≤ i ∧ i < 15 + 32 := by decide +kernel
  intro i hi
  by_cases hlt : i < 48
  · exact h i hlt hi
  · refine absurd ?_ hi
    rw [List.getElem?_eq_none (by rw [length_bits]; exact not_lt.mp hlt),
      List.getElem?_eq_none (by rw [length_bits]; exact not_lt.mp hlt)]

end ExchangeSim.Journal
