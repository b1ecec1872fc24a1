/- digest: The datagrams of the sequenced command stream. -/

import ExchangeSim.Common

set_option autoImplicit false
set_option relaxedAutoImplicit false

namespace ExchangeSim.Stream

/-- "EXSQ". -/
def kMagic : UInt32 := 0x51535845

inductive Kind where
  /-- `firstSeq` is the sequence number of the first command; `count` commands follow. -/
  | data
  /-- `firstSeq` is the next sequence number the primary will assign. -/
  | heartbeat
  /-- An orderly shutdown: nothing from `firstSeq` on will be assigned. -/
  | endOfStream
  /-- A replica asks for `[firstSeq, firstSeq + count)`. -/
  | retransmit
  /-- A replica has applied and journaled everything through `firstSeq`. -/
  | ack
  /-- The ring no longer holds the request; `firstSeq` is the oldest held. -/
  | unavailable
  deriving DecidableEq, Repr

structure Header where
  magic : UInt32
  epoch : UInt32
  firstSeq : UInt64
  count : UInt16
  kind : Kind
  deriving DecidableEq, Repr

structure Datagram where
  header : Header
  cmds : List Command := []
  deriving DecidableEq, Repr

def kMaxDatagram : Nat := 1472
def kHeaderSize : Nat := 24
def kCommandSize : Nat := 56
def kPerPacket : Nat := (kMaxDatagram - kHeaderSize) / kCommandSize

/-- What `recv` returns for the datagram: the buffer cuts a longer one. -/
def Datagram.received (d : Datagram) : Nat :=
  min (kHeaderSize + d.cmds.length * kCommandSize) kMaxDatagram

def header (k : Kind) (epoch : UInt32) (firstSeq : UInt64) (count : UInt16) : Header :=
  ⟨kMagic, epoch, firstSeq, count, k⟩

theorem toNat_min (a b : UInt64) : (min a b).toNat = min a.toNat b.toNat := by
  change (if a ≤ b then a else b).toNat = _
  split
  · rename_i h
    rw [UInt64.le_iff_toNat_le] at h
    omega
  · rename_i h
    rw [UInt64.le_iff_toNat_le] at h
    omega

theorem toNat_max (a b : UInt64) : (max a b).toNat = max a.toNat b.toNat := by
  change (if a ≤ b then b else a).toNat = _
  split
  · rename_i h
    rw [UInt64.le_iff_toNat_le] at h
    omega
  · rename_i h
    rw [UInt64.le_iff_toNat_le] at h
    omega

end ExchangeSim.Stream
