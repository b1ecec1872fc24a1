/- digest: An event as the bytes of its memory, and as the 64-bit words of them. -/

import ExchangeSim.Wire.Protocol

set_option autoImplicit false
set_option relaxedAutoImplicit false

namespace ExchangeSim.Wire

open ExchangeSim.Lib (Bytes Packed)

def eventTypeCode : EventType → UInt8
  | .accepted => 1
  | .rejected => 2
  | .trade => 3
  | .canceled => 4
  | .modified => 5

/-- The codes run from 0 in the order of the constructors. -/
def reasonCode (r : Reason) : UInt8 := UInt8.ofNat r.ctorIdx

/-- 0 is no `MsgType`. -/
def requestCode (t : Option MsgType) : UInt8 := t.elim 0 typeCode

theorem eventTypeCode_injective : Function.Injective eventTypeCode := by
  intro a b h
  cases a <;> cases b <;> first | rfl | cases h

theorem reasonCode_injective : Function.Injective reasonCode := by
  intro a b h
  have hsmall : ∀ r : Reason, (reasonCode r).toNat = r.ctorIdx ∧ Reason.ofNat r.ctorIdx = r := by
    intro r
    cases r <;> exact ⟨rfl, rfl⟩
  rw [← (hsmall a).2, ← (hsmall b).2, ← (hsmall a).1, ← (hsmall b).1, h]

theorem sideCode_injective : Function.Injective sideCode := by
  intro a b h
  cases a <;> cases b <;> first | rfl | cases h

theorem requestCode_injective : Function.Injective requestCode := by
  intro a b h
  rcases a with _ | _ | _ | _ <;> rcases b with _ | _ | _ | _ <;> first | rfl | cases h

/-- sizeof(Event) -/
def kEventSize : Nat := 48

/-- The layout of an event in memory, which has no padding. -/
def eventMemory :
    Packed (UInt64 × UInt64 × Int64 × UInt64 × UInt64 × UInt32 × UInt8 × UInt8 × UInt8 × UInt8)
      kEventSize :=
  Packed.u64.and (Packed.u64.and (Packed.i64.and (Packed.u64.and (Packed.u64.and (Packed.u32.and
    (Packed.u8.and (Packed.u8.and (Packed.u8.and Packed.u8))))))))

def eventBytes (e : Event) : Bytes :=
  eventMemory.bytes (e.orderId, e.makerId, e.price, e.qty, e.leaves, e.symbol, eventTypeCode e.type,
    reasonCode e.reason, sideCode e.side, requestCode e.request)

theorem length_eventBytes (e : Event) : (eventBytes e).length = kEventSize :=
  eventMemory.length_bytes _

theorem eventBytes_injective : Function.Injective eventBytes := by
  intro a b h
  have hread := congrArg eventMemory.read h
  rw [eventBytes, eventBytes, ← List.append_nil (eventMemory.bytes _),
    ← List.append_nil (eventMemory.bytes (b.orderId, _)),
    eventMemory.read_bytes, eventMemory.read_bytes] at hread
  simp only [Prod.mk.injEq] at hread
  obtain ⟨hid, hmaker, hprice, hqty, hleaves, hsymbol, htype, hreason, hside, hrequest⟩ := hread
  cases a
  cases b
  simp only [Event.mk.injEq]
  exact ⟨hid, hmaker, hprice, hqty, hleaves, hsymbol, eventTypeCode_injective htype,
    reasonCode_injective hreason, sideCode_injective hside, requestCode_injective hrequest⟩

def eventWords (e : Event) : List UInt64 :=
  (List.range 6).map fun i => Packed.u64.read ((eventBytes e).drop (8 * i))

theorem eventWords_injective : Function.Injective eventWords := by
  have hback : ∀ e, (eventWords e).flatMap Packed.u64.bytes = eventBytes e := by
    intro e
    have hlen := length_eventBytes e
    have hword : ∀ i < 6, Packed.u64.bytes (Packed.u64.read ((eventBytes e).drop (8 * i))) =
        ((eventBytes e).drop (8 * i)).take 8 := by
      intro i hi
      refine Packed.u64.bytes_read _ ?_
      rw [List.length_drop, hlen, kEventSize]
      omega
    have hcut : ∀ n, n ≤ 6 → ((List.range n).flatMap fun i =>
      ((eventBytes e).drop (8 * i)).take 8) = (eventBytes e).take (8 * n) := by
      intro n hn
      induction n with
      | zero => rfl
      | succ n ih =>
          rw [List.range_succ, List.flatMap_append, ih (Nat.le_of_succ_le hn),
            List.flatMap_singleton, Nat.mul_succ, List.take_add]
    rw [eventWords, List.flatMap_map]
    calc ((List.range 6).flatMap fun i =>
      Packed.u64.bytes (Packed.u64.read ((eventBytes e).drop (8 * i))))
        = (List.range 6).flatMap fun i => ((eventBytes e).drop (8 * i)).take 8 :=
          List.flatMap_congr fun i hi => hword i (List.mem_range.mp hi)
      _ = (eventBytes e).take (8 * 6) := hcut 6 (Nat.le_refl 6)
      _ = eventBytes e := List.take_of_length_le (Nat.le_of_eq hlen)
  exact fun a b h => eventBytes_injective ((hback a).symm.trans ((congrArg _ h).trans (hback b)))

end ExchangeSim.Wire
