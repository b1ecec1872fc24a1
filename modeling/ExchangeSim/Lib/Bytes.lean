/- digest: Packed little-endian records as two-way codecs over byte strings. -/

import Mathlib.Data.List.TakeDrop
import Mathlib.Logic.Equiv.Defs
import Mathlib.Tactic.Ring

set_option autoImplicit false
set_option relaxedAutoImplicit false

namespace ExchangeSim.Lib

universe u v

abbrev Bytes := List UInt8

namespace Bytes

/-- The `width` little-endian bytes of a number. -/
def le : Nat → Nat → Bytes
  | 0, _ => []
  | width + 1, n => UInt8.ofNat n :: le width (n / 256)

/-- The number that a byte string spells, least significant byte first. -/
def ofLe : Bytes → Nat
  | [] => 0
  | b :: bs => b.toNat + 256 * ofLe bs

@[simp] theorem length_le (width n : Nat) : (le width n).length = width := by
  induction width generalizing n with
  | zero => rfl
  | succ width ih => simp [le, ih]

theorem ofLe_le (width n : Nat) : ofLe (le width n) = n % 256 ^ width := by
  induction width generalizing n with
  | zero => simp [le, ofLe, Nat.mod_one]
  | succ width ih =>
      rw [le, ofLe, ih, pow_succ, Nat.mul_comm (256 ^ width) 256, Nat.mod_mul]
      simp [UInt8.toNat_ofNat']

theorem ofLe_lt (bs : Bytes) : ofLe bs < 256 ^ bs.length := by
  induction bs with
  | nil => simp [ofLe]
  | cons b bs ih =>
      have hb := b.toNat_lt
      simp only [ofLe, List.length_cons, pow_succ]
      omega

theorem le_ofLe (bs : Bytes) : le bs.length (ofLe bs) = bs := by
  induction bs with
  | nil => rfl
  | cons b bs ih =>
      have hb := b.toNat_lt
      have low : UInt8.ofNat (b.toNat + 256 * ofLe bs) = b := by
        apply UInt8.toNat_inj.mp
        rw [UInt8.toNat_ofNat']
        omega
      have high : (b.toNat + 256 * ofLe bs) / 256 = ofLe bs := by omega
      rw [List.length_cons, ofLe, le, low, high, ih]

end Bytes

open Bytes

/-- A packed record of `size` bytes. Reading looks at the first `size` bytes only,
and every byte string that long is the image of exactly one record. -/
structure Packed (α : Type u) (size : Nat) where
  bytes : α → Bytes
  read : Bytes → α
  length_bytes : ∀ a, (bytes a).length = size
  read_bytes : ∀ a rest, read (bytes a ++ rest) = a
  bytes_read : ∀ p, size ≤ p.length → bytes (read p) = p.take size

namespace Packed

variable {α : Type u} {β : Type v} {m n : Nat}

attribute [simp] length_bytes read_bytes

/-- An unsigned integer of `width` bytes. -/
def word (width : Nat) (toNat : α → Nat) (ofNat : Nat → α) (lt : ∀ a, toNat a < 256 ^ width)
    (ofNat_toNat : ∀ a, ofNat (toNat a) = a)
    (toNat_ofNat : ∀ k, toNat (ofNat k) = k % 256 ^ width) :
    Packed α width where
  bytes a := le width (toNat a)
  read p := ofNat (ofLe (p.take width))
  length_bytes a := length_le width (toNat a)
  read_bytes a rest := by
    rw [List.take_left' (length_le width (toNat a)), ofLe_le, Nat.mod_eq_of_lt (lt a), ofNat_toNat]
  bytes_read p hp := by
    have hl : (p.take width).length = width := by rw [List.length_take]; omega
    have hlt := ofLe_lt (p.take width)
    rw [hl] at hlt
    rw [toNat_ofNat, Nat.mod_eq_of_lt hlt]
    simpa [hl] using le_ofLe (p.take width)

def u8 : Packed UInt8 1 :=
  word 1 UInt8.toNat UInt8.ofNat (fun a => a.toNat_lt) (fun a => by simp) (fun k => by simp)

def u16 : Packed UInt16 2 :=
  word 2 UInt16.toNat UInt16.ofNat (fun a => a.toNat_lt) (fun a => by simp) (fun k => by simp)

def u32 : Packed UInt32 4 :=
  word 4 UInt32.toNat UInt32.ofNat (fun a => a.toNat_lt) (fun a => by simp) (fun k => by simp)

def u64 : Packed UInt64 8 :=
  word 8 UInt64.toNat UInt64.ofNat (fun a => a.toNat_lt) (fun a => by simp) (fun k => by simp)

/-- The bytes of the first record, then those of the second. -/
def and (a : Packed α m) (b : Packed β n) : Packed (α × β) (m + n) where
  bytes x := a.bytes x.1 ++ b.bytes x.2
  read p := (a.read p, b.read (p.drop m))
  length_bytes x := by simp
  read_bytes x rest := by
    rw [List.append_assoc, read_bytes, List.drop_left' (a.length_bytes x.1), read_bytes]
  bytes_read p hp := by
    rw [a.bytes_read p (by omega), b.bytes_read (p.drop m) (by rw [List.length_drop]; omega),
      List.take_add]

/-- The same bytes under another type. -/
def as (a : Packed α m) (e : α ≃ β) : Packed β m where
  bytes x := a.bytes (e.symm x)
  read p := e (a.read p)
  length_bytes x := by simp
  read_bytes x rest := by simp
  bytes_read p hp := by rw [Equiv.symm_apply_apply, a.bytes_read p hp]

/-- Two's complement. -/
def i64 : Packed Int64 8 :=
  u64.as ⟨UInt64.toInt64, Int64.toUInt64, fun a => by simp, fun a => by simp⟩

theorem read_append (a : Packed α m) {p : Bytes} (h : m ≤ p.length) (q : Bytes) :
    a.read (p ++ q) = a.read p := by
  have hp : p = a.bytes (a.read p) ++ p.drop m := by
    rw [a.bytes_read p h, List.take_append_drop]
  calc a.read (p ++ q) = a.read (a.bytes (a.read p) ++ (p.drop m ++ q)) := by
        rw [← List.append_assoc, ← hp]
    _ = a.read p := a.read_bytes _ _

end Packed

end ExchangeSim.Lib
