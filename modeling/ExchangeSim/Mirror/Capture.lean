/- digest: The reader of market-data captures with every byte range it touches, and the files it
   reads within bounds. -/

import ExchangeSim.Common
import ExchangeSim.Lib.Bytes
import ExchangeSim.Lib.Loop

set_option autoImplicit false
set_option relaxedAutoImplicit false

namespace ExchangeSim.Md

open ExchangeSim.Lib
open ExchangeSim.Lib.Loop (Pass)

/-- The loaded file with the memory around it: the bytes from `size` on are whatever lies behind the
buffer. -/
structure Memory where
  size : Nat
  byte : Nat → UInt8

namespace Memory

variable (m : Memory)

def bytes (off n : Nat) : Bytes := (List.range n).map fun k => m.byte (off + k)

def u32 (off : Nat) : UInt32 := Packed.u32.read (m.bytes off 4)
def u64 (off : Nat) : UInt64 := Packed.u64.read (m.bytes off 8)
def i64 (off : Nat) : Int64 := Packed.i64.read (m.bytes off 8)

end Memory

inductive Kind where
  | diff
  | trade
  | snapshot
  deriving DecidableEq, Repr

def Kind.ofByte (b : UInt8) : Option Kind :=
  if b = 1 then some .diff
  else if b = 2 then some .trade
  else if b = 3 then some .snapshot
  else none

/-- `levels` is the offset of the first level. -/
structure Record where
  kind : Kind
  rxNs : UInt64
  firstId : UInt64 := 0
  lastId : UInt64 := 0
  nBids : UInt32 := 0
  nAsks : UInt32 := 0
  levels : Nat := 0
  tradePx : Int64 := 0
  tradeQty : UInt64 := 0
  buyerIsMaker : Bool := false

/-- sizeof(LevelUpdate) -/
def kLevelSize : Nat := 16

/-- A range of bytes that the reader touches: of the file, or as a field of the record of `len`
bytes at `start`. -/
inductive Access where
  | file (off width : Nat)
  | field (start len off width : Nat)
  deriving DecidableEq, Repr

structure Reading (α : Type) where
  touched : List Access
  result : Except String α

/-- The check comes after the fields have been read. -/
def check {α : Type} (len want : Nat) (r : α) : Except String α :=
  if len ≠ want then .error "record length mismatch" else .ok r

/-- What `parse` reads of a record whose kind it knows. -/
def fields (p len : Nat) : Kind → List Access
  | .diff => [.field p len (p + 12) 8, .field p len (p + 20) 8, .field p len (p + 28) 4,
    .field p len (p + 32) 4]
  | .snapshot => [.field p len (p + 12) 8, .field p len (p + 20) 4, .field p len (p + 24) 4]
  | .trade => [.field p len (p + 12) 8, .field p len (p + 20) 8, .field p len (p + 28) 1]

/-- The fields of a record of a known kind. -/
def decode (m : Memory) (p : Nat) : Kind → Record
  | .diff =>
      { kind := .diff, rxNs := m.u64 (p + 4), firstId := m.u64 (p + 12), lastId := m.u64 (p + 20),
        nBids := m.u32 (p + 28), nAsks := m.u32 (p + 32), levels := p + 36 }
  | .snapshot =>
      { kind := .snapshot, rxNs := m.u64 (p + 4), lastId := m.u64 (p + 12), nBids := m.u32 (p + 20),
        nAsks := m.u32 (p + 24), levels := p + 28 }
  | .trade =>
      { kind := .trade, rxNs := m.u64 (p + 4), tradePx := m.i64 (p + 12),
        tradeQty := m.u64 (p + 20), buyerIsMaker := m.byte (p + 28) != 0 }

/-- The length that the check demands. -/
def want (r : Record) : Nat :=
  match r.kind with
  | .diff => 12 + 24 + (r.nBids.toNat + r.nAsks.toNat) * kLevelSize
  | .snapshot => 12 + 16 + (r.nBids.toNat + r.nAsks.toNat) * kLevelSize
  | .trade => 12 + 24

def parse (m : Memory) (p len : Nat) : Reading Record :=
  let head := [.field p len p 1, .field p len (p + 4) 8]
  match Kind.ofByte (m.byte p) with
  | none => ⟨head, .error "unknown record kind"⟩
  | some kind =>
      let r := decode m p kind
      ⟨head ++ fields p len kind, check len (want r) r⟩

structure Placed where
  start : Nat
  len : Nat
  record : Record

/-- The bytes that `level(i)` of a record reads. -/
def Placed.level (r : Placed) (i : Nat) : Access :=
  .field r.start r.len (r.record.levels + i * kLevelSize) kLevelSize

structure Scan where
  off : Nat
  touched : List Access
  records : List Placed

/-- One pass of the loop over the records. -/
def scanRecord (m : Memory) (s : Scan) : Pass Scan (Reading (List Placed)) :=
  if ¬ s.off + 4 ≤ m.size then .leave ⟨s.touched, .ok s.records⟩
  else
    let touched := s.touched ++ [.file s.off 4]
    let len := (m.u32 s.off).toNat
    if m.size < s.off + 4 + len ∨ len < 12 then
      .leave ⟨touched, .error "truncated or corrupt record"⟩
    else
      let r := parse m (s.off + 4) len
      match r.result with
      | .error e => .leave ⟨touched ++ r.touched, .error e⟩
      | .ok rec =>
          .again ⟨s.off + (4 + len), touched ++ r.touched, s.records ++ [⟨s.off + 4, len, rec⟩]⟩

/-- "EXMD" -/
def kMagic : Bytes := [0x45, 0x58, 0x4D, 0x44]

/-- The constructor on a loaded file. `none` would mean that its loop does not end. -/
def capture (m : Memory) : Option (Reading (List Placed)) :=
  if m.size < 16 then some ⟨[], .error "not an EXMD file"⟩
  else if m.bytes 0 4 ≠ kMagic then some ⟨[.file 0 4], .error "not an EXMD file"⟩
  else if m.u32 4 ≠ 1 then some ⟨[.file 0 4, .file 4 4], .error "unsupported EXMD version"⟩
  else Loop.run (scanRecord m) (m.size + 1) ⟨16, [.file 0 4, .file 4 4, .file 8 4, .file 12 4], []⟩

/-! ### Bounds -/

/-- The range lies inside the file, and a field inside its record. -/
def Access.Inside (m : Memory) : Access → Prop
  | .file off width => off + width ≤ m.size
  | .field start len off width => start ≤ off ∧ off + width ≤ start + len ∧ off + width ≤ m.size

def Placed.Sound (m : Memory) (r : Placed) : Prop :=
  ∀ i < r.record.nBids.toNat + r.record.nAsks.toNat, (r.level i).Inside m

namespace Memory

variable (m : Memory)

/-- The length that is written at `off`. -/
def len (off : Nat) : Nat := (m.u32 off).toNat

def Framed (off : Nat) : Prop := off + 4 ≤ m.size ∧ 12 ≤ m.len off ∧ off + 4 + m.len off ≤ m.size

/-- A record of the right length for its kind stands at `off`, and the next one starts at `off'`. -/
def Next (off off' : Nat) : Prop :=
  m.Framed off ∧ off' = off + (4 + m.len off) ∧
    ∃ kind, Kind.ofByte (m.byte (off + 4)) = some kind ∧ m.len off = want (decode m (off + 4) kind)

/-- The bytes of a record that are read before its length is checked. -/
def fixedPart : Kind → Nat
  | .diff => 36
  | .snapshot => 28
  | .trade => 29

/-- A record at `off` is long enough for the fields of its kind. -/
def Enough (off : Nat) : Prop :=
  m.Framed off → ∀ kind, Kind.ofByte (m.byte (off + 4)) = some kind → fixedPart kind ≤ m.len off

end Memory

open Relation (ReflTransGen)

variable {m : Memory}

theorem Memory.Next.unique {off a b : Nat} (ha : m.Next off a) (hb : m.Next off b) : a = b :=
  ha.2.1.trans hb.2.1.symm

structure Runs (m : Memory) (s : Scan) (out : Reading (List Placed)) : Prop where
  inside : (∀ a ∈ out.touched, a.Inside m) ↔
    (∀ a ∈ s.touched, a.Inside m) ∧ ∀ off, ReflTransGen m.Next s.off off → m.Enough off
  sound : (∀ r ∈ s.records, r.Sound m) → ∀ records, out.result = .ok records →
    ∀ r ∈ records, r.Sound m

theorem Runs.stop {s : Scan} {touched : List Access} {result : Except String (List Placed)}
    (last : ∀ off, ¬ m.Next s.off off) (inside : (∀ a ∈ touched, a.Inside m) ↔ m.Enough s.off)
    (sound : ∀ records, result = .ok records → records = s.records) :
    Runs m s ⟨s.touched ++ touched, result⟩ where
  inside := by
    rw [List.forall_mem_append, inside]
    refine and_congr_right fun _ => ⟨fun henough off hoff => ?_, fun h => h _ .refl⟩
    rcases ReflTransGen.cases_head hoff with rfl | ⟨next, hnext, _⟩
    · exact henough
    · exact absurd hnext (last next)
  sound := by
    intro h records hrecords
    rw [sound records hrecords]
    exact h

end ExchangeSim.Md
