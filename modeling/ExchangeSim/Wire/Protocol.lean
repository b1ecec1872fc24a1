/- digest: The binary order-entry messages and their codec. -/

import ExchangeSim.Common
import ExchangeSim.Lib.Bytes

set_option autoImplicit false
set_option relaxedAutoImplicit false

namespace ExchangeSim.Wire

open ExchangeSim.Lib

def kVersion : UInt8 := 1

structure Header where
  /-- Total message length in bytes, header included. -/
  length : UInt16
  type : UInt8
  version : UInt8
  symbol : UInt32
  seq : UInt64
  deriving DecidableEq, Repr

structure NewOrder where
  hdr : Header
  orderId : UInt64
  price : Int64
  qty : UInt64
  owner : UInt32
  side : UInt8
  ordType : UInt8
  tif : UInt8
  flags : UInt8
  deriving DecidableEq, Repr

structure Cancel where
  hdr : Header
  orderId : UInt64
  deriving DecidableEq, Repr

structure Modify where
  hdr : Header
  orderId : UInt64
  price : Int64
  qty : UInt64
  deriving DecidableEq, Repr

def kHeaderSize : Nat := 16
def kNewOrderSize : Nat := 48
def kCancelSize : Nat := 24
def kModifySize : Nat := 40
def kMaxMessageSize : Nat := kNewOrderSize

def header : Packed Header kHeaderSize :=
  (Packed.u16.and (Packed.u8.and (Packed.u8.and (Packed.u32.and Packed.u64)))).as
    { toFun := fun (l, t, v, s, q) => ⟨l, t, v, s, q⟩
      invFun := fun h => (h.length, h.type, h.version, h.symbol, h.seq)
      left_inv := fun _ => rfl
      right_inv := fun _ => rfl }

def newOrder : Packed NewOrder kNewOrderSize :=
  (header.and (Packed.u64.and (Packed.i64.and (Packed.u64.and (Packed.u32.and
    (Packed.u8.and (Packed.u8.and (Packed.u8.and Packed.u8)))))))).as
    { toFun := fun (h, i, p, q, o, s, t, f, g) => ⟨h, i, p, q, o, s, t, f, g⟩
      invFun := fun m =>
        (m.hdr, m.orderId, m.price, m.qty, m.owner, m.side, m.ordType, m.tif, m.flags)
      left_inv := fun _ => rfl
      right_inv := fun _ => rfl }

def cancel : Packed Cancel kCancelSize :=
  (header.and Packed.u64).as
    { toFun := fun (h, i) => ⟨h, i⟩
      invFun := fun m => (m.hdr, m.orderId)
      left_inv := fun _ => rfl
      right_inv := fun _ => rfl }

def modify : Packed Modify kModifySize :=
  (header.and (Packed.u64.and (Packed.i64.and Packed.u64))).as
    { toFun := fun (h, i, p, q) => ⟨h, i, p, q⟩
      invFun := fun m => (m.hdr, m.orderId, m.price, m.qty)
      left_inv := fun _ => rfl
      right_inv := fun _ => rfl }

def typeCode : MsgType → UInt8
  | .newOrder => 1
  | .cancel => 2
  | .modify => 3

def sideCode : Side → UInt8
  | .buy => 0
  | .sell => 1

def ordTypeCode : OrdType → UInt8
  | .limit => 0
  | .market => 1

def tifCode : Tif → UInt8
  | .day => 0
  | .ioc => 1
  | .fok => 2

/-- The casts back to the enumerations, on the codes that `decode` lets through. -/
def sideOf (b : UInt8) : Side := if b = 0 then .buy else .sell

def ordTypeOf (b : UInt8) : OrdType := if b = 0 then .limit else .market

def tifOf (b : UInt8) : Tif := if b = 0 then .day else if b = 1 then .ioc else .fok

/-- A decode status with the command and the number of consumed bytes that go with
it; a malformed message of no bytes is lost framing. -/
inductive Decoded where
  | ok (c : Command) (consumed : Nat)
  | incomplete
  | malformed (consumed : Nat)
  deriving DecidableEq, Repr

/-- The command of a message under its header. -/
def NewOrder.command (h : Header) (m : NewOrder) : Command :=
  { seq := h.seq, symbol := h.symbol, type := .newOrder, orderId := m.orderId, price := m.price,
    qty := m.qty, owner := m.owner, side := sideOf m.side, ordType := ordTypeOf m.ordType,
    tif := tifOf m.tif, flags := m.flags }

def Cancel.command (h : Header) (m : Cancel) : Command :=
  { seq := h.seq, symbol := h.symbol, type := .cancel, orderId := m.orderId }

def Modify.command (h : Header) (m : Modify) : Command :=
  { seq := h.seq, symbol := h.symbol, type := .modify, orderId := m.orderId, price := m.price,
    qty := m.qty }

def decode (p : Bytes) : Decoded :=
  if p.length < kHeaderSize then .incomplete
  else
    let h := header.read p
    if h.length.toNat < kHeaderSize then .malformed 0
    else if p.length < h.length.toNat then .incomplete
    else
      let bad := Decoded.malformed h.length.toNat
      if h.version ≠ kVersion then bad
      else if h.type = typeCode .newOrder then
        if h.length.toNat ≠ kNewOrderSize then bad
        else
          let m := newOrder.read p
          if 1 < m.side ∨ 1 < m.ordType ∨ 2 < m.tif then bad
          else .ok (m.command h) h.length.toNat
      else if h.type = typeCode .cancel then
        if h.length.toNat ≠ kCancelSize then bad
        else .ok ((cancel.read p).command h) h.length.toNat
      else if h.type = typeCode .modify then
        if h.length.toNat ≠ kModifySize then bad
        else .ok ((modify.read p).command h) h.length.toNat
      else bad

def headerOf (c : Command) (len : Nat) : Header :=
  ⟨UInt16.ofNat len, typeCode c.type, kVersion, c.symbol, c.seq⟩

def newOrderOf (c : Command) : NewOrder :=
  ⟨headerOf c kNewOrderSize, c.orderId, c.price, c.qty, c.owner, sideCode c.side,
    ordTypeCode c.ordType, tifCode c.tif, c.flags⟩

def cancelOf (c : Command) : Cancel := ⟨headerOf c kCancelSize, c.orderId⟩

def modifyOf (c : Command) : Modify := ⟨headerOf c kModifySize, c.orderId, c.price, c.qty⟩

def encode (c : Command) : Bytes :=
  match c.type with
  | .newOrder => newOrder.bytes (newOrderOf c)
  | .cancel => cancel.bytes (cancelOf c)
  | .modify => modify.bytes (modifyOf c)

def messageSize : MsgType → Nat
  | .newOrder => kNewOrderSize
  | .cancel => kCancelSize
  | .modify => kModifySize

@[simp] theorem length_encode (c : Command) : (encode c).length = messageSize c.type := by
  unfold encode messageSize
  split <;> simp

/-- What the wire carries of a command: every other field has its default. -/
def carried (c : Command) : Command :=
  match c.type with
  | .newOrder => { c with ts := 0 }
  | .cancel => { seq := c.seq, symbol := c.symbol, type := .cancel, orderId := c.orderId }
  | .modify =>
      { seq := c.seq, symbol := c.symbol, type := .modify, orderId := c.orderId, price := c.price,
        qty := c.qty }

@[simp] theorem sideOf_sideCode (s : Side) : sideOf (sideCode s) = s := by cases s <;> rfl

@[simp] theorem ordTypeOf_ordTypeCode (t : OrdType) : ordTypeOf (ordTypeCode t) = t := by
  cases t <;> rfl

@[simp] theorem tifOf_tifCode (t : Tif) : tifOf (tifCode t) = t := by cases t <;> rfl

private theorem codes_in_range (c : Command) :
    ¬ (1 < sideCode c.side ∨ 1 < ordTypeCode c.ordType ∨ 2 < tifCode c.tif) := by
  cases c.side <;> cases c.ordType <;> cases c.tif <;> decide

private theorem sideCode_sideOf {b : UInt8} (h : ¬ 1 < b) : sideCode (sideOf b) = b := by
  unfold sideOf
  split <;> simp only [sideCode] <;> grind

private theorem ordTypeCode_ordTypeOf {b : UInt8} (h : ¬ 1 < b) :
    ordTypeCode (ordTypeOf b) = b := by
  unfold ordTypeOf
  split <;> simp only [ordTypeCode] <;> grind

private theorem tifCode_tifOf {b : UInt8} (h : ¬ 2 < b) : tifCode (tifOf b) = b := by
  unfold tifOf
  split
  · simp only [tifCode]; grind
  · split <;> simp only [tifCode] <;> grind

private theorem header_newOrder (m : NewOrder) (rest : Bytes) :
    header.read (newOrder.bytes m ++ rest) = m.hdr :=
  congrArg NewOrder.hdr (newOrder.read_bytes m rest)

private theorem header_cancel (m : Cancel) (rest : Bytes) :
    header.read (cancel.bytes m ++ rest) = m.hdr :=
  congrArg Cancel.hdr (cancel.read_bytes m rest)

private theorem header_modify (m : Modify) (rest : Bytes) :
    header.read (modify.bytes m ++ rest) = m.hdr :=
  congrArg Modify.hdr (modify.read_bytes m rest)

theorem header_encode (c : Command) (rest : Bytes) :
    header.read (encode c ++ rest) = headerOf c (messageSize c.type) := by
  unfold encode messageSize
  split
  · exact header_newOrder _ rest
  · exact header_cancel _ rest
  · exact header_modify _ rest

theorem toNat_messageSize (t : MsgType) : (UInt16.ofNat (messageSize t)).toNat = messageSize t := by
  cases t <;> rfl

theorem kHeaderSize_le_messageSize (t : MsgType) : kHeaderSize ≤ messageSize t := by
  cases t <;> decide

theorem messageSize_le (t : MsgType) : messageSize t ≤ kMaxMessageSize := by
  cases t <;> decide

theorem decode_encode (c : Command) (rest : Bytes) :
    decode (encode c ++ rest) = .ok (carried c) (messageSize c.type) := by
  have hlen : (encode c ++ rest).length = messageSize c.type + rest.length := by simp
  have h16 := kHeaderSize_le_messageSize c.type
  have hl : (headerOf c (messageSize c.type)).length.toNat = messageSize c.type :=
    toNat_messageSize c.type
  have hv : (headerOf c (messageSize c.type)).version = kVersion := rfl
  have ht : (headerOf c (messageSize c.type)).type = typeCode c.type := rfl
  unfold decode
  simp only [header_encode, hlen, hl, hv, ht]
  rw [if_neg (by omega), if_neg (by omega), if_neg (by omega), if_neg (by simp)]
  cases hty : c.type with
  | newOrder =>
      have he : newOrder.read (encode c ++ rest) = newOrderOf c := by simp [encode, hty]
      rw [if_pos rfl, if_neg (by decide), he, if_neg (by exact codes_in_range c)]
      simp [carried, hty, NewOrder.command, newOrderOf, headerOf]
  | cancel =>
      have he : cancel.read (encode c ++ rest) = cancelOf c := by simp [encode, hty]
      rw [if_neg (by decide), if_pos rfl, if_neg (by decide), he]
      simp [carried, hty, Cancel.command, cancelOf, headerOf]
  | modify =>
      have he : modify.read (encode c ++ rest) = modifyOf c := by simp [encode, hty]
      rw [if_neg (by decide), if_neg (by decide), if_pos rfl, if_neg (by decide), he]
      simp [carried, hty, Modify.command, modifyOf, headerOf]

private theorem headerOf_eq {h : Header} {c : Command} {len : Nat} (hs : c.seq = h.seq)
    (hy : c.symbol = h.symbol) (hv : h.version = kVersion) (ht : h.type = typeCode c.type)
    (hl : h.length.toNat = len) : headerOf c len = h := by
  have hlen : UInt16.ofNat len = h.length := by rw [← hl]; simp
  rw [headerOf, hs, hy, hlen, ← hv, ← ht]

private theorem newOrderOf_command {h : Header} {m : NewOrder} (hm : m.hdr = h)
    (hv : h.version = kVersion) (ht : h.type = typeCode .newOrder)
    (hl : h.length.toNat = kNewOrderSize) (hc : ¬ (1 < m.side ∨ 1 < m.ordType ∨ 2 < m.tif)) :
    newOrderOf (m.command h) = m := by
  simp only [not_or] at hc
  have hh : headerOf (m.command h) kNewOrderSize = m.hdr :=
    (headerOf_eq rfl rfl hv ht hl).trans hm.symm
  rw [newOrderOf, hh]
  simp [NewOrder.command, sideCode_sideOf hc.1, ordTypeCode_ordTypeOf hc.2.1, tifCode_tifOf hc.2.2]

private theorem cancelOf_command {h : Header} {m : Cancel} (hm : m.hdr = h)
    (hv : h.version = kVersion) (ht : h.type = typeCode .cancel)
    (hl : h.length.toNat = kCancelSize) : cancelOf (m.command h) = m := by
  have hh : headerOf (m.command h) kCancelSize = m.hdr :=
    (headerOf_eq rfl rfl hv ht hl).trans hm.symm
  rw [cancelOf, hh]
  rfl

private theorem modifyOf_command {h : Header} {m : Modify} (hm : m.hdr = h)
    (hv : h.version = kVersion) (ht : h.type = typeCode .modify)
    (hl : h.length.toNat = kModifySize) : modifyOf (m.command h) = m := by
  have hh : headerOf (m.command h) kModifySize = m.hdr :=
    (headerOf_eq rfl rfl hv ht hl).trans hm.symm
  rw [modifyOf, hh]
  rfl

private theorem hdr_newOrder (p : Bytes) : (newOrder.read p).hdr = header.read p := rfl

private theorem hdr_cancel (p : Bytes) : (cancel.read p).hdr = header.read p := rfl

private theorem hdr_modify (p : Bytes) : (modify.read p).hdr = header.read p := rfl

structure DecodedFrom (p : Bytes) (c : Command) (n : Nat) : Prop where
  available : n ≤ p.length
  size : n = messageSize c.type
  framed : (header.read p).length.toNat = n
  plain : carried c = c
  bytes : encode c = p.take n

theorem decode_ok {p : Bytes} {c : Command} {n : Nat} (h : decode p = .ok c n) :
    DecodedFrom p c n := by
  unfold decode at h
  simp only at h
  split at h
  · cases h
  split at h
  · cases h
  split at h
  · cases h
  rename_i hav
  split at h
  · cases h
  rename_i hv
  have hver : (header.read p).version = kVersion := by simpa using hv
  split at h
  · rename_i ht
    split at h
    · cases h
    rename_i hl
    split at h
    · cases h
    rename_i hc
    have hlen : (header.read p).length.toNat = kNewOrderSize := by simpa using hl
    obtain ⟨rfl, rfl⟩ := Decoded.ok.inj h
    refine ⟨by omega, hlen, rfl, rfl, ?_⟩
    change newOrder.bytes (newOrderOf _) = _
    rw [newOrderOf_command (hdr_newOrder p) hver ht hlen hc, newOrder.bytes_read p (by omega), hlen]
  split at h
  · rename_i ht
    split at h
    · cases h
    rename_i hl
    have hlen : (header.read p).length.toNat = kCancelSize := by simpa using hl
    obtain ⟨rfl, rfl⟩ := Decoded.ok.inj h
    refine ⟨by omega, hlen, rfl, rfl, ?_⟩
    change cancel.bytes (cancelOf _) = _
    rw [cancelOf_command (hdr_cancel p) hver ht hlen, cancel.bytes_read p (by omega), hlen]
  split at h
  · rename_i ht
    split at h
    · cases h
    rename_i hl
    have hlen : (header.read p).length.toNat = kModifySize := by simpa using hl
    obtain ⟨rfl, rfl⟩ := Decoded.ok.inj h
    refine ⟨by omega, hlen, rfl, rfl, ?_⟩
    change modify.bytes (modifyOf _) = _
    rw [modifyOf_command (hdr_modify p) hver ht hlen, modify.bytes_read p (by omega), hlen]
  · cases h

/-- What `decode` skips is there to be skipped, and it is longer than a header unless
the framing is lost. -/
theorem decode_malformed {p : Bytes} {n : Nat} (h : decode p = .malformed n) :
    n ≤ p.length ∧ kHeaderSize ≤ p.length ∧
      (n = 0 ↔ (header.read p).length.toNat < kHeaderSize) ∧
      (n ≠ 0 → n = (header.read p).length.toNat) := by
  unfold decode at h
  simp only at h
  split at h
  · cases h
  split at h
  · cases h
    simp_all
  split at h
  · cases h
  rename_i h16 hlow hav
  have all : n = (header.read p).length.toNat := by
    repeat' split at h
    all_goals cases h
    all_goals rfl
  subst all
  refine ⟨by omega, by omega, ?_, fun _ => rfl⟩
  have : kHeaderSize = 16 := rfl
  omega

theorem decode_append {p : Bytes} (h : decode p ≠ .incomplete) (q : Bytes) :
    decode (p ++ q) = decode p := by
  have h16 : ¬ p.length < kHeaderSize := fun hlt => h (by simp [decode, hlt])
  have hr : header.read (p ++ q) = header.read p := header.read_append (by omega) q
  have hlen : (p ++ q).length = p.length + q.length := List.length_append
  unfold decode at h ⊢
  simp only [hr, if_neg h16, if_neg (show ¬ (p ++ q).length < kHeaderSize by omega)] at h ⊢
  by_cases hlow : (header.read p).length.toNat < kHeaderSize
  · simp only [if_pos hlow]
  have hav : ¬ p.length < (header.read p).length.toNat := fun hlt => h (by simp [hlow, hlt])
  rw [if_neg hlow, if_neg hlow, if_neg hav, if_neg (show ¬ (p ++ q).length < _ by omega)]
  -- Each message is read only after its length was checked, so within `p`.
  by_cases hn : (header.read p).length.toNat = kNewOrderSize
  · rw [newOrder.read_append (by omega) q]
    simp [hn, kNewOrderSize, kCancelSize, kModifySize]
  by_cases hc : (header.read p).length.toNat = kCancelSize
  · rw [cancel.read_append (by omega) q]
    simp [hc, kNewOrderSize, kCancelSize, kModifySize]
  by_cases hm : (header.read p).length.toNat = kModifySize
  · rw [modify.read_append (by omega) q]
    simp [hm, kNewOrderSize, kCancelSize, kModifySize]
  simp [hn, hc, hm]

theorem decode_take {p : Bytes} {n : Nat} (h : decode p = .malformed n) (pos : n ≠ 0) :
    decode (p.take n) = .malformed n := by
  obtain ⟨hn, h16, hz, hlen⟩ := decode_malformed h
  have hlow : ¬ (header.read p).length.toNat < kHeaderSize := fun hlt => pos (hz.mpr hlt)
  have htake : (p.take n).length = n := by rw [List.length_take]; omega
  have hread : header.read (p.take n) = header.read p := by
    have := header.read_append (p := p.take n) (by have := hlen pos; omega) (p.drop n)
    rwa [List.take_append_drop, eq_comm] at this
  have hsome : decode (p.take n) ≠ .incomplete := by
    have := hlen pos
    unfold decode
    simp only [hread, htake]
    rw [if_neg (by omega), if_neg hlow, if_neg (by omega)]
    repeat' split
    all_goals simp
  rw [← decode_append hsome (p.drop n), List.take_append_drop, h]

end ExchangeSim.Wire
