/- digest: The bytes that cross a connection: nothing that was reported is lost, doubled or torn,
   and nothing that was sent is misread, however the reads and writes are cut. -/

import ExchangeSim.Gateway.Outputs
import ExchangeSim.Wire.Reports
import ExchangeSim.Wire.Stream

set_option autoImplicit false
set_option relaxedAutoImplicit false

namespace ExchangeSim.Gateway

open Lib (Bytes)
open Wire (messages)

/-! ### What is written -/

def Report.bytes : Report → Bytes
  | .exec e clientSeq => Wire.encodeReport e clientSeq
  | .done symbol clientSeq => Wire.encodeDone symbol clientSeq

/-- What a client makes of the bytes. -/
def Report.wire : Report → Wire.ExecReport
  | .exec e clientSeq => Wire.reportOf e clientSeq
  | .done symbol clientSeq => Wire.doneOf symbol clientSeq

/-- The bytes of the reports in an output buffer. -/
def outBytes (items : List Item) : Bytes := items.flatMap fun item => item.report.bytes

/-- The bytes that are still to be sent. -/
def Conn.pending (c : Conn) : Bytes := (outBytes c.out).drop c.outOff

/-- How many bytes the calls of `send` in one `try_write` take. -/
def Conn.accepted (c : Conn) : List SendResult → Nat
  | [] => 0
  | r :: rs =>
      if c.outOff < c.out.length * kReportSize then
        match r with
        | .sent n =>
            let more := min n (c.out.length * kReportSize - c.outOff)
            if n = 0 then 0 else more + Conn.accepted { c with outOff := c.outOff + more } rs
        | .again => 0
        | .error => 0
      else 0

/-- What a `try_write` leaves of a connection, and the bytes it has sent. -/
def Conn.write (c : Conn) (answers : List SendResult) : Option Conn × Bytes :=
  ((sendLoop c answers).1.map settle, c.pending.take (c.accepted answers))

/-- What `try_write` for these connections does to the one at `fd`. -/
def writes (fd : Fd) : Option Conn → List Fd → List (List SendResult) → Option Conn × Bytes
  | c, [], _ => (c, [])
  | none, _ :: _, _ => (none, [])
  | some c, f :: fds, answers =>
      if f = fd then
        let (c', p) := c.write (answers.headD [])
        let (c'', q) := writes fd c' fds answers.tail
        (c'', p ++ q)
      else writes fd (some c) fds answers.tail

theorem Report.length_bytes (r : Report) : r.bytes.length = kReportSize := by
  cases r with
  | exec e clientSeq => exact Wire.execReport.length_bytes _
  | done symbol clientSeq => exact Wire.execReport.length_bytes _

theorem length_outBytes (items : List Item) :
    (outBytes items).length = items.length * kReportSize := by
  induction items with
  | nil => simp [outBytes]
  | cons item items ih =>
      rw [outBytes, List.flatMap_cons, List.length_append, ← outBytes, ih, Report.length_bytes,
        List.length_cons, Nat.succ_mul, Nat.add_comm]

theorem outBytes_append (items items' : List Item) :
    outBytes (items ++ items') = outBytes items ++ outBytes items' :=
  List.flatMap_append

theorem Report.bytes_eq (r : Report) : r.bytes = Wire.execReport.bytes r.wire := by
  cases r <;> rfl

theorem take_outBytes (items : List Item) (k : Nat) :
    (outBytes items).take (kReportSize * k) = outBytes (items.take k) := by
  induction items generalizing k with
  | nil => simp [outBytes]
  | cons item items ih =>
      cases k with
      | zero => rfl
      | succ k =>
          have hlen := item.report.length_bytes
          have hcons : ∀ items', outBytes (item :: items') = item.report.bytes ++ outBytes items' :=
            fun _ => List.flatMap_cons
          rw [List.take_succ_cons, hcons, hcons, ← ih, List.take_append, hlen, Nat.mul_succ,
            List.take_of_length_le (by omega), Nat.add_sub_cancel]

theorem parses_of_prefix {p : Bytes} {items : List Item} (h : p <+: outBytes items) :
    ∃ rest, Wire.reports.Parses p
      ((items.take (p.length / kReportSize)).map fun item => item.report.wire) rest ∧
      rest.length < kReportSize := by
  have hpos : 0 < kReportSize := by decide
  have hfront : p.take (kReportSize * (p.length / kReportSize)) = outBytes
      (items.take (p.length / kReportSize)) := by
    rw [← take_outBytes]
    obtain ⟨more, hmore⟩ := h
    rw [← hmore, List.take_append_of_le_length (Nat.mul_div_le _ _)]
  refine ⟨p.drop (kReportSize * (p.length / kReportSize)), ?_, ?_⟩
  · have hparse :=
      Wire.parses_reports ((items.take (p.length / kReportSize)).map fun item => item.report.wire)
      (p.drop (kReportSize * (p.length / kReportSize)))
    have hbytes :
      ((items.take (p.length / kReportSize)).map fun item => item.report.wire).flatMap
        Wire.execReport.bytes =
        outBytes (items.take (p.length / kReportSize)) := by
      rw [List.flatMap_map, outBytes]
      exact List.flatMap_congr fun item _ => (item.report.bytes_eq).symm
    rwa [hbytes, ← hfront, List.take_append_drop] at hparse
  · rw [List.length_drop]
    have hmod := Nat.mod_lt p.length hpos
    have hdiv := Nat.div_add_mod p.length kReportSize
    omega

/-- The offset is inside the buffer. -/
def Conn.Sane (c : Conn) : Prop := c.outOff ≤ c.out.length * kReportSize

theorem Conn.pending_append {c : Conn} (h : c.Sane) (items : List Item) :
    Conn.pending { c with out := c.out ++ items } = c.pending ++ outBytes items := by
  rw [Conn.pending, Conn.pending, outBytes_append, List.drop_append_of_le_length]
  rw [length_outBytes]
  exact h

theorem sendLoop_accepted {c c' : Conn} (h : c.Sane) {answers : List SendResult}
    (hloop : (sendLoop c answers).1 = some c') :
    c' = { c with outOff := c.outOff + c.accepted answers } ∧ c'.Sane := by
  induction answers generalizing c with
  | nil =>
      rw [sendLoop] at hloop
      have hsame : c' = c := by
        split at hloop <;> exact (Option.some.inj hloop).symm
      subst hsame
      exact ⟨rfl, h⟩
  | cons r rs ih =>
      by_cases hleft : c.outOff < c.out.length * kReportSize
      · cases r with
        | again =>
            simp only [sendLoop, if_pos hleft] at hloop
            obtain rfl := Option.some.inj hloop
            exact ⟨by simp [Conn.accepted], h⟩
        | error => simp [sendLoop, if_pos hleft] at hloop
        | sent n =>
            cases n with
            | zero => simp [sendLoop, if_pos hleft] at hloop
            | succ n =>
                simp only [sendLoop, if_pos hleft] at hloop
                have hmore : Conn.Sane { c with
                    outOff := c.outOff + min (n + 1)
                      (c.out.length * kReportSize - c.outOff) } := by
                  simp only [Conn.Sane]
                  omega
                obtain ⟨heq, hsane⟩ := ih hmore hloop
                refine ⟨?_, hsane⟩
                rw [heq]
                simp only [Conn.accepted, if_pos hleft, Nat.succ_ne_zero, if_false, Nat.add_assoc]
      · simp only [sendLoop, if_neg hleft] at hloop
        obtain rfl := Option.some.inj hloop
        exact ⟨by simp [Conn.accepted, if_neg hleft], h⟩

theorem settle_pending {c : Conn} (h : c.Sane) : (settle c).pending = c.pending ∧ (settle c).Sane ∧
    (settle c).inp = c.inp := by
  simp only [settle]
  split
  · rename_i hall
    refine ⟨?_, Nat.le_refl _, rfl⟩
    have hnil : c.pending = [] := by
      rw [Conn.pending]
      exact List.drop_eq_nil_of_le (by rw [length_outBytes, hall])
    rw [hnil]
    rfl
  · exact ⟨rfl, h, rfl⟩

structure Flows (c c' : Conn) (sent : Bytes) (added : List Item) : Prop where
  sane : c'.Sane
  exact : sent ++ c'.pending = c.pending ++ outBytes added

theorem Flows.refl {c : Conn} (h : c.Sane) : Flows c c [] [] := ⟨h, by simp [outBytes]⟩

theorem Flows.of_same {c c' : Conn} (h : c.Sane) (hout : c'.out = c.out)
    (hoff : c'.outOff = c.outOff) : Flows c c' [] [] := by
  refine ⟨?_, ?_⟩
  · rw [Conn.Sane, hout, hoff]
    exact h
  · rw [Conn.pending, Conn.pending, hout, hoff]
    simp [outBytes]

theorem Flows.trans {c c' c'' : Conn} {p q : Bytes} (h : Flows c c' p []) (h' : Flows c' c'' q []) :
    Flows c c'' (p ++ q) [] := by
  refine ⟨h'.sane, ?_⟩
  have hfirst := h.exact
  have hlast := h'.exact
  simp only [outBytes, List.flatMap_nil, List.append_nil] at hfirst hlast ⊢
  rw [List.append_assoc, hlast, hfirst]

theorem Conn.write_flows {c c' : Conn} (h : c.Sane) {answers : List SendResult}
    (hwrite : (c.write answers).1 = some c') :
    Flows c c' (c.write answers).2 [] ∧ c'.inp = c.inp := by
  obtain ⟨d, hloop, rfl⟩ := Option.map_eq_some_iff.mp hwrite
  obtain ⟨rfl, hsane⟩ := sendLoop_accepted h hloop
  obtain ⟨hpending, hsane', hinp⟩ := settle_pending hsane
  refine ⟨⟨hsane', ?_⟩, hinp⟩
  rw [hpending, Conn.write, Conn.pending, Conn.pending]
  dsimp only
  rw [← List.drop_drop, List.take_append_drop]
  simp [outBytes]

theorem writes_flows {fd : Fd} {fds : List Fd} {c c' : Conn} (h : c.Sane)
    {answers : List (List SendResult)} (hwrites : (writes fd (some c) fds answers).1 = some c') :
    Flows c c' (writes fd (some c) fds answers).2 [] ∧ c'.inp = c.inp := by
  induction fds generalizing c answers with
  | nil =>
      rw [writes] at hwrites ⊢
      obtain rfl := Option.some.inj hwrites
      exact ⟨.refl h, rfl⟩
  | cons f fds ih =>
      rw [writes] at hwrites ⊢
      split at hwrites
      · rename_i hf
        rw [if_pos hf]
        dsimp only at hwrites ⊢
        cases hone : (c.write (answers.headD [])).1 with
        | none =>
            rw [hone] at hwrites
            cases fds <;> cases hwrites
        | some d =>
            rw [hone] at hwrites
            obtain ⟨hfirst, hinp⟩ := Conn.write_flows h hone
            obtain ⟨hrest, hinp'⟩ := ih hfirst.sane hwrites
            exact ⟨hfirst.trans hrest, hinp'.trans hinp⟩
      · rename_i hf
        rw [if_neg hf]
        exact ih h hwrites

variable {G : Type} {cfg : GatewayConfig}

theorem closeConn_conns (s : State G) (f fd : Fd) :
    (closeConn s f).sessions.conns fd = if f = fd then none else s.sessions.conns fd := by
  simp only [closeConn, State.emit]
  cases hc : s.sessions.conns f with
  | none =>
      dsimp only
      split
      · rename_i hf
        rw [← hf, hc]
      · rfl
  | some c =>
      dsimp only
      split
      · rename_i hf
        rw [hf, Function.update_self]
      · rename_i hf
        rw [Function.update_of_ne (Ne.symm hf)]

theorem tryWrite_conns (s : State G) (f : Fd) (answers : List SendResult) (fd : Fd) :
    (tryWrite s f answers).sessions.conns fd =
    if f = fd then (s.sessions.conns fd).bind fun c => (c.write answers).1 else
      s.sessions.conns fd := by
  rw [tryWrite]
  cases hc : s.sessions.conns f with
  | none =>
      dsimp only
      by_cases hf : f = fd
      · rw [if_pos hf, ← hf, hc]
        rfl
      · rw [if_neg hf]
  | some c =>
      dsimp only
      cases hloop : (sendLoop c answers).1 with
      | none =>
          refine (closeConn_conns _ f fd).trans ?_
          by_cases hf : f = fd
          · rw [if_pos hf, if_pos hf, ← hf, hc]
            simp [Conn.write, hloop]
          · rw [if_neg hf, if_neg hf]
            rfl
      | some c' =>
          dsimp only
          by_cases hf : f = fd
          · rw [if_pos hf, ← hf, Function.update_self, hc]
            simp [Conn.write, hloop]
          · rw [if_neg hf, Function.update_of_ne (Ne.symm hf)]
            rfl

theorem writeTouched_conns (s : State G) (fds : List Fd)
    (answers : List (List SendResult)) (fd : Fd) :
    (writeTouched s fds answers).sessions.conns fd =
    (writes fd (s.sessions.conns fd) fds answers).1 := by
  induction fds generalizing s answers with
  | nil =>
      rw [writeTouched]
      cases s.sessions.conns fd <;> rfl
  | cons f fds ih =>
      rw [writeTouched, ih, tryWrite_conns]
      cases hc : s.sessions.conns fd with
      | none =>
          rw [Option.bind_none, ite_self]
          cases fds <;> rfl
      | some c =>
          rw [writes]
          split <;> rfl

/-! ### What crosses in a step -/

def Received.bytes : Received → Bytes
  | .data p => p
  | .again | .closed => []

/-- The bytes that are received on the connection at `fd` in a step. -/
def receivedAt (s : State G) (i : Input) (fd : Fd) : Bytes :=
  match s.pc with
  | .batch (.conn f w true :: _) =>
      if f = fd ∧ s.repl.halted = none ∧
        ((if w then tryWrite s f i.sends else s).sessions.conns f).isSome then i.received.bytes
      else []
  | _ => []

/-- The bytes that are sent on the connection at `fd` in a step. -/
def sentAt (s : State G) (i : Input) (fd : Fd) : Bytes :=
  match s.pc with
  | .batch (.conn f true _ :: _) =>
      if f = fd ∧ s.repl.halted = none then
        ((s.sessions.conns fd).elim [] fun c => (c.write i.sends).2) else []
  | .release =>
      if s.repl.halted = none then (writes fd (s.sessions.conns fd) s.batch.touched i.writes).2 else
        []
  | _ => []

/-- The command that is decoded for the connection at `fd` in a step. -/
def decodedAt (s : State G) (fd : Fd) : List Command :=
  match s.pc with
  | .reading f off _ =>
      if f = fd then
        match s.sessions.conns fd with
        | some c => (Wire.next c.inp off).commands
        | none => []
      else []
  | _ => []

/-- The reports that the engine's answer to a command adds to the output of the connection at
`fd`. -/
def addedAt (cfg : GatewayConfig) (desk : Desk G) (s : State G) (i : Input) (fd : Fd) : List Item :=
  match s.pc with
  | .logged f _ clientSeq clientId c _ =>
      if (step cfg desk s i).pc = .crashed then []
      else match desk.process s.core.gate c with
        | some (_, events) => responses cfg s f clientSeq clientId c events fd
        | none => []
  | _ => []

end ExchangeSim.Gateway
