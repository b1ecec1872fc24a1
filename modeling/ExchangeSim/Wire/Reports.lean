/- digest: Execution reports on the wire, and a stream of them cut anywhere. -/

import ExchangeSim.Lib.Framing
import ExchangeSim.Wire.EventBytes

set_option autoImplicit false
set_option relaxedAutoImplicit false

namespace ExchangeSim.Wire

open ExchangeSim.Lib (Bytes Packed Framing)

def kReportType : UInt8 := 0x10

/-- The event type that marks the end of the response to a command. -/
def kReportDone : UInt8 := 0xFF

structure ExecReport where
  hdr : Header
  orderId : UInt64
  makerId : UInt64
  price : Int64
  qty : UInt64
  leaves : UInt64
  eventType : UInt8
  reason : UInt8
  side : UInt8
  request : UInt8
  reserved : UInt32
  deriving DecidableEq, Repr

def kReportSize : Nat := 64

def execReport : Packed ExecReport kReportSize :=
  (header.and (Packed.u64.and (Packed.u64.and (Packed.i64.and (Packed.u64.and (Packed.u64.and
    (Packed.u8.and (Packed.u8.and (Packed.u8.and (Packed.u8.and Packed.u32)))))))))).as
    { toFun := fun (h, i, m, p, q, l, t, r, s, k, z) => ⟨h, i, m, p, q, l, t, r, s, k, z⟩
      invFun := fun r =>
        (r.hdr, r.orderId, r.makerId, r.price, r.qty, r.leaves, r.eventType, r.reason, r.side,
          r.request, r.reserved)
      left_inv := fun _ => rfl
      right_inv := fun _ => rfl }

def reportHeader (symbol : SymbolId) (clientSeq : UInt64) : Header :=
  ⟨UInt16.ofNat kReportSize, kReportType, kVersion, symbol, clientSeq⟩

def reportOf (e : Event) (clientSeq : UInt64) : ExecReport :=
  ⟨reportHeader e.symbol clientSeq, e.orderId, e.makerId, e.price, e.qty, e.leaves,
    eventTypeCode e.type, reasonCode e.reason, sideCode e.side, requestCode e.request, 0⟩

def doneOf (symbol : SymbolId) (clientSeq : UInt64) : ExecReport :=
  ⟨reportHeader symbol clientSeq, 0, 0, 0, 0, 0, kReportDone, 0, 0, 0, 0⟩

def encodeReport (e : Event) (clientSeq : UInt64) : Bytes := execReport.bytes (reportOf e clientSeq)

def encodeDone (symbol : SymbolId) (clientSeq : UInt64) : Bytes :=
  execReport.bytes (doneOf symbol clientSeq)

/-- The casts back to the enumerations, on the codes that `encode_report` writes. -/
def eventTypeOf (b : UInt8) : EventType :=
  if b = 1 then .accepted else if b = 2 then .rejected else if b = 3 then .trade else if b = 4 then
    .canceled else .modified

def reasonOf (b : UInt8) : Reason := Reason.ofNat b.toNat

def requestOf (b : UInt8) : Option MsgType :=
  if b = 1 then some .newOrder else if b = 2 then some .cancel else if b = 3 then
    some .modify else none

/-- The event that a report was made from; a done marker is made from none. -/
def reportToEvent (r : ExecReport) : Option Event :=
  if r.eventType = kReportDone then none
  else
    some {
      orderId := r.orderId, makerId := r.makerId, price := r.price, qty := r.qty
      leaves := r.leaves, symbol := r.hdr.symbol, type := eventTypeOf r.eventType
      reason := reasonOf r.reason, side := sideOf r.side, request := requestOf r.request }

@[simp] theorem eventTypeOf_eventTypeCode (t : EventType) : eventTypeOf (eventTypeCode t) = t := by
  cases t <;> rfl

@[simp] theorem reasonOf_reasonCode (r : Reason) : reasonOf (reasonCode r) = r := by cases r <;> rfl

@[simp] theorem requestOf_requestCode (t : Option MsgType) : requestOf (requestCode t) = t := by
  rcases t with _ | _ | _ | _ <;> rfl

theorem eventTypeCode_ne_done (t : EventType) : eventTypeCode t ≠ kReportDone := by
  cases t <;> decide

theorem reportToEvent_reportOf (e : Event) (clientSeq : UInt64) :
    reportToEvent (reportOf e clientSeq) = some e := by
  rw [reportToEvent, if_neg (show ¬ (reportOf e clientSeq).eventType =
    kReportDone from eventTypeCode_ne_done e.type)]
  simp [reportOf, reportHeader]

theorem reportToEvent_doneOf (symbol : SymbolId) (clientSeq : UInt64) :
    reportToEvent (doneOf symbol clientSeq) = none := if_pos rfl

/-- The first report of a byte stream. -/
def firstReport (p : Bytes) : Option (ExecReport × Nat) :=
  if p.length < kReportSize then none else some (execReport.read p, kReportSize)

theorem firstReport_some {p : Bytes} {r : ExecReport} {n : Nat} (h : firstReport p = some (r, n)) :
    kReportSize ≤ p.length ∧ r = execReport.read p ∧ n = kReportSize := by
  rw [firstReport] at h
  split at h
  · cases h
  · rename_i hlen
    obtain ⟨rfl, rfl⟩ := Prod.mk.inj (Option.some.inj h)
    exact ⟨Nat.not_lt.mp hlen, rfl, rfl⟩

/-- Reports one after another. -/
def reports : Framing ExecReport where
  first := firstReport
  pos h := by
    rw [(firstReport_some h).2.2]
    decide
  inside h := by
    rw [(firstReport_some h).2.2]
    exact (firstReport_some h).1
  alone := by
    intro p r n h q
    obtain ⟨hlen, rfl, rfl⟩ := firstReport_some h
    have htake : (p.take kReportSize).length = kReportSize := by
      rw [List.length_take, Nat.min_eq_left hlen]
    have hread : execReport.read (p.take kReportSize ++ q) = execReport.read p := by
      rw [execReport.read_append (Nat.le_of_eq htake.symm),
        ← execReport.read_append (Nat.le_of_eq htake.symm) (p.drop kReportSize),
        List.take_append_drop]
    rw [firstReport, if_neg (by rw [List.length_append, htake]; omega), hread]

theorem parses_reports (rs : List ExecReport) (q : Bytes) :
    reports.Parses (rs.flatMap execReport.bytes ++ q) rs q := by
  induction rs with
  | nil => exact .done q
  | cons r rs ih =>
      have hfirst : reports.first (execReport.bytes r ++ (rs.flatMap execReport.bytes ++ q)) = some
          (r, kReportSize) := by
        change firstReport (execReport.bytes r ++ (rs.flatMap execReport.bytes ++ q)) = _
        rw [firstReport, if_neg (by simp), execReport.read_bytes]
      rw [List.flatMap_cons, List.append_assoc]
      refine .frame hfirst ?_
      rwa [List.drop_left' (execReport.length_bytes r)]

end ExchangeSim.Wire
