/- digest: A session from its first byte on: what it has been sent are the encoded reports, and what
   it has sent is parsed. -/

import ExchangeSim.Gateway.Channel
import ExchangeSim.Gateway.Stored

set_option autoImplicit false
set_option relaxedAutoImplicit false

namespace ExchangeSim.Gateway

open Lib (Bytes)
open Wire (messages commandsOf)
open ExchangeSim.Stream (Publisher Sent)

variable {G : Type} {cfg : GatewayConfig} {s s' : State G}

/-! ### A failed journal halts -/

/-- Without its journal the gateway has halted. -/
def Sealed (s : State G) : Prop := s.repl.journalFailed = true → s.repl.halted ≠ none

theorem Sealed.of_repl (h : Sealed s) (hrepl : s'.repl = s.repl) : Sealed s' := by
  rw [Sealed, hrepl]
  exact h

theorem Sealed.of_halted (h : s.repl.halted ≠ none) : Sealed s := fun _ => h

theorem Sealed.publisherCall (h : Sealed s) (f : Publisher → Publisher × List Sent) :
    Sealed (publisherCall s f) := by
  rw [Gateway.publisherCall]
  cases s.repl.pub with
  | none => exact h
  | some p => exact h

theorem Sealed.fenceCheck (h : Sealed s) : Sealed (fenceCheck s) := by
  rw [Gateway.fenceCheck]
  cases s.repl.pub with
  | none => exact h
  | some p =>
      dsimp only
      split
      · exact .of_halted (Option.some_ne_none _)
      · exact h

theorem Sealed.journalFlush (h : Sealed s) (failed : Option Nat) :
    Sealed (journalFlush s failed).1 := by
  simp only [Gateway.journalFlush]
  split
  · exact h
  · cases failed with
    | none => exact h
    | some k => exact .of_halted (Option.some_ne_none _)

theorem Sealed.journalSync (h : Sealed s) (failed : Option Nat) (fsync : Bool) :
    Sealed (journalSync s failed fsync).1 := by
  simp only [Gateway.journalSync]
  split
  · exact .of_halted (Option.some_ne_none _)
  · exact h.journalFlush failed

theorem accept_repl (s : State G) (fds : List Fd) : (accept s fds).repl = s.repl := by
  induction fds generalizing s with
  | nil => rfl
  | cons fd fds ih =>
      rw [accept, ih]
      rfl

theorem tryWrite_repl (s : State G) (fd : Fd) (answers : List SendResult) :
    (tryWrite s fd answers).repl = s.repl := by
  rw [tryWrite]
  cases s.sessions.conns fd with
  | none => rfl
  | some c =>
      dsimp only
      cases (sendLoop c answers).1 <;> rfl

theorem writeTouched_repl (s : State G) (fds : List Fd) (answers : List (List SendResult)) :
    (writeTouched s fds answers).repl = s.repl := by
  induction fds generalizing s answers with
  | nil => rfl
  | cons fd fds ih => rw [writeTouched, ih, tryWrite_repl]

theorem Sealed.commit (h : Sealed s) (i : Input) : Sealed (commit cfg s i) := by
  have hflush := h.journalFlush i.flush
  simp only [Gateway.commit]
  split
  · generalize (Gateway.journalFlush s i.flush).1 = s₁ at hflush
    split
    · cases s₁.repl.pub with
      | none => exact hflush
      | some p =>
          dsimp only
          have hcall :
              Sealed (if p.fenced = true then s₁ else Gateway.publisherCall s₁ fun p =>
                p.flush i.flushNow) := by
            split
            · exact hflush
            · exact hflush.publisherCall _
          generalize (if p.fenced = true then s₁ else Gateway.publisherCall s₁ fun p =>
            p.flush i.flushNow) = s₂ at hcall
          split <;> exact hcall
    · exact hflush
  · exact h

theorem Sealed.waitPass (h : Sealed s) (since : UInt64) (i : Input) :
    Sealed (waitPass cfg s since i) := by
  rw [Gateway.waitPass]
  split
  · exact h
  have hservice := h.publisherCall fun p => p.service i.group i.control
  generalize (Gateway.publisherCall s fun p => p.service i.group i.control) = s₁ at hservice
  dsimp only
  split
  · exact hservice
  split
  · exact hservice.fenceCheck
  split
  · exact hservice.fenceCheck
  · exact hservice.fenceCheck.publisherCall _

theorem Sealed.expire (h : Sealed s) (i : Input) : Sealed (expire cfg s i) := by
  have hservice : Sealed (serviceAndCheck s i.group i.control) := (h.publisherCall _).fenceCheck
  rw [Gateway.expire]
  generalize serviceAndCheck s i.group i.control = s₁ at hservice
  dsimp only
  split
  · exact hservice
  split
  · exact .of_halted (Option.some_ne_none _)
  · exact hservice

theorem Sealed.onReady (h : Sealed s) (fd : Fd) (w r : Bool) (rest : List Ready) (i : Input) :
    Sealed (onReady s fd w r rest i) := by
  rw [Gateway.onReady]
  split
  · exact h
  have hw : Sealed (if w = true then tryWrite s fd i.sends else s) := by
    split
    · exact h.of_repl (tryWrite_repl s fd i.sends)
    · exact h
  generalize (if w = true then tryWrite s fd i.sends else s) = s₁ at hw
  dsimp only
  cases s₁.sessions.conns fd with
  | none => exact hw
  | some c =>
      dsimp only
      split
      · exact hw
      · cases i.received <;> exact hw

theorem Sealed.stamp (h : Sealed s) (fd : Fd) (owner : OwnerId) (off : Nat) (c : Command)
    (rest : List Ready) (i : Input) :
    Sealed (stamp cfg s fd owner off c rest i) := by
  simp only [Gateway.stamp]
  split
  · exact h
  · cases i.append with
    | none => exact h
    | some k => exact .of_halted (Option.some_ne_none _)

theorem Sealed.handle (h : Sealed s) (desk : Desk G) (fd : Fd) (off : Nat) (clientSeq : UInt64)
    (clientId : OrderId) (c : Command) (rest : List Ready) (i : Input) :
    Sealed (handle cfg desk s fd off clientSeq clientId c rest i) := by
  simp only [Gateway.handle]
  split
  · exact h
  · rename_i pub _
    cases desk.process s.core.gate c with
    | none => exact h
    | some r =>
        obtain ⟨g, events⟩ := r
        dsimp only
        have hdeliver :
          Sealed (deliver cfg desk { s with repl.pub := pub } fd clientSeq clientId c g events) := h
        generalize deliver cfg desk { s with repl.pub := pub } fd clientSeq clientId c g
          events = s₁ at hdeliver
        split
        · have hsync :
              Sealed (Gateway.journalSync { s₁ with
                repl.sinceSync := (syncDue cfg s₁.repl.sinceSync).2 } i.flush i.fsync).1 :=
            Sealed.journalSync (s :=
              { s₁ with repl.sinceSync := (syncDue cfg s₁.repl.sinceSync).2 })
                hdeliver i.flush i.fsync
          split <;> exact hsync
        · exact hdeliver

theorem Sealed.release (h : Sealed s) (desk : Desk G) (i : Input) :
    Sealed (release cfg desk s i) := by
  rw [Gateway.release]
  split
  · exact h
  · dsimp only
    refine Sealed.of_repl ?_ (writeTouched_repl _ _ _)
    refine Sealed.publisherCall ?_ _
    rw [publishMd]
    split <;> exact h

theorem Sealed.step (h : Sealed s) (desk : Desk G) (i : Input) : Sealed (step cfg desk s i) := by
  rw [Gateway.step]
  cases s.pc with
  | poll =>
      dsimp only
      split <;> exact h
  | batch ready =>
      cases ready with
      | nil => exact h.commit i
      | cons r rest =>
          cases r with
          | listener => exact h.of_repl (accept_repl s i.accepted)
          | control => exact (h.publisherCall _).fenceCheck
          | conn fd w r => exact h.onReady fd w r rest i
  | reading fd off rest =>
      simp only [read]
      cases s.sessions.conns fd with
      | none => exact h
      | some c =>
          dsimp only
          cases Wire.next c.inp off with
          | wait => exact h
          | lost => exact h
          | skip n => exact h
          | command cmd n => exact h.stamp fd c.owner (off + n) cmd rest i
  | logged fd off clientSeq clientId c rest =>
      exact h.handle desk fd off clientSeq clientId c rest i
  | waiting since => exact h.waitPass since i
  | expiring => exact h.expire i
  | release => exact h.release desk i
  | shutdown => exact (h.journalSync i.flush i.fsync).publisherCall _
  | stopped => exact h
  | crashed => exact h

theorem journalFlush_failed {failed : Option Nat} (h : ¬ (journalFlush s failed).2 = true) :
    (journalFlush s failed).1.repl.journalFailed = true := by
  revert h
  simp only [journalFlush]
  split
  · rename_i hfailed
    exact fun _ => hfailed
  · cases failed with
    | none => exact fun h => absurd rfl h
    | some k => exact fun _ => rfl

theorem journalSync_failed {failed : Option Nat} {fsync : Bool}
    (h : ¬ (journalSync s failed fsync).2 = true) :
    (journalSync s failed fsync).1.repl.journalFailed = true := by
  revert h
  simp only [journalSync]
  split
  · exact fun _ => rfl
  · exact journalFlush_failed

/-! ### What a step does to a session -/

/-- Where the loop is in the input of the session at `fd`. -/
def Pc.offset? (fd : Fd) : Pc → Option Nat
  | .reading f off _ => if f = fd then some off else none
  | .logged f off _ _ _ _ => if f = fd then some off else none
  | _ => none

/-- The end of a response, by what it says. -/
def Item.done? (item : Item) : Option (SymbolId × UInt64) :=
  match item.report with
  | .exec _ _ => none
  | .done symbol clientSeq => some (symbol, clientSeq)

def ends (items : List Item) : List (SymbolId × UInt64) := items.filterMap Item.done?

/-- The end of the response that the session at `fd` waits for. -/
def Pc.due (fd : Fd) : Pc → List (SymbolId × UInt64)
  | .logged f _ clientSeq _ c _ => if f = fd then [(c.symbol, clientSeq)] else []
  | _ => []

/-- No command of this session is heard of any more. -/
def State.dead (s : State G) : Prop := s.repl.journalFailed = true ∨ s.pc = .crashed

/-- What a step does to the input of the session at `fd`: the bytes it receives, and the command it
takes from them. -/
inductive Reading (s s' : State G) (fd : Fd) (c c' : Conn) : Bytes → List Command → Prop
  | kept (inp : c'.inp = c.inp) (off : s'.pc.offset? fd = s.pc.offset? fd)
    (due : s'.pc.due fd = []) : Reading s s' fd c c' [] []
  | ended (inp : c'.inp = c.inp) (off : s'.pc.offset? fd = none) (due : s'.pc.due fd = [])
      (dead : s'.dead) :
      Reading s s' fd c c' [] []
  | arrived (p : Bytes) (idle : s.pc.offset? fd = none)
      (live : s.repl.halted = none ∧ s.pc ≠ .crashed)
      (inp : c'.inp = c.inp ++ p) (off : s'.pc.offset? fd = some 0) (due : s'.pc.due fd = []) :
        Reading s s' fd c c' p []
  | skipped (o n : Nat) (busy : s.pc.offset? fd = some o) (found : Wire.next c.inp o = .skip n)
      (inp : c'.inp = c.inp)
      (off : s'.pc.offset? fd = some (o + n)) (due : s'.pc.due fd = []) : Reading s s' fd c c' [] []
  | decoded (o n : Nat) (cmd : Command) (busy : s.pc.offset? fd = some o)
      (found : Wire.next c.inp o = .command cmd n)
      (inp : c'.inp = c.inp) (next : s'.pc.offset? fd = some (o + n) ∧
        s'.pc.due fd = [(cmd.symbol, cmd.seq)] ∨
        s'.pc.offset? fd = none ∧ s'.pc.due fd = [] ∧ s'.dead) : Reading s s' fd c c' [] [cmd]
  | drained (o : Nat) (busy : s.pc.offset? fd = some o) (found : Wire.next c.inp o = .wait)
      (inp : c'.inp = c.inp.drop o)
      (off : s'.pc.offset? fd = none) (due : s'.pc.due fd = []) : Reading s s' fd c c' [] []

structure Crossing (s s' : State G) (fd : Fd) (c c' : Conn) (received sent : Bytes)
    (decoded : List Command) (added : List Item) : Prop where
  flows : Flows c c' sent added
  reading : Reading s s' fd c c' received decoded
  answered : ends added = s.pc.due fd ∨ ends added = [] ∧ s'.pc = .crashed

/-- The loop is not at a command. -/
def Pc.between : Pc → Bool
  | .reading .. | .logged .. => false
  | _ => true

theorem Pc.away {pc : Pc} (h : pc.between = true) (fd : Fd) :
    pc.offset? fd = none ∧ pc.due fd = [] := by
  cases pc <;> first | exact ⟨rfl, rfl⟩ | cases h

theorem commit_between (s : State G) (i : Input) : (commit cfg s i).pc.between = true := by
  simp only [commit]
  split
  · split
    · split
      · rfl
      · split <;> split <;> rfl
    · rfl
  · rfl

theorem waitPass_between (s : State G) (since : UInt64) (i : Input) :
    (waitPass cfg s since i).pc.between = true := by
  simp only [waitPass]
  split
  · rfl
  split
  · rfl
  split
  · rfl
  split <;> rfl

theorem expire_between (s : State G) (i : Input) : (expire cfg s i).pc.between = true := by
  simp only [expire]
  split
  · rfl
  split <;> rfl

theorem Crossing.still {fd : Fd} {c c' : Conn} {sent : Bytes} (flows : Flows c c' sent [])
    (hinp : c'.inp = c.inp) (h : s.pc.offset? fd = none ∧ s.pc.due fd = [])
    (h' : s'.pc.offset? fd = none ∧ s'.pc.due fd = []) :
    Crossing s s' fd c c' [] sent [] [] :=
  ⟨flows, .kept hinp (h'.1.trans h.1.symm) h'.2, .inl h.2.symm⟩

theorem accept_conns {fd : Fd} {c : Conn} (s : State G) (fds : List Fd)
    (hc : s.sessions.conns fd = some c) :
    (accept s fds).sessions.conns fd = some c := by
  induction fds generalizing s with
  | nil => exact hc
  | cons f fds ih =>
      rw [accept]
      refine ih _ ?_
      change (if (s.sessions.conns f).isSome then s.sessions.conns
        else Function.update s.sessions.conns f (some { owner := s.sessions.nextOwner })) fd =
          some c
      split
      · exact hc
      · rename_i hfree
        by_cases hf : fd = f
        · rw [← hf, hc] at hfree
          exact absurd rfl hfree
        · rw [Function.update_of_ne hf, hc]

variable (cfg) in
theorem stamp_pc (s : State G) (fd : Fd) (owner : OwnerId) (off : Nat) (c : Command)
    (rest : List Ready) (i : Input) :
    (stamp cfg s fd owner off c rest i).sessions = s.sessions ∧
    ((stamp cfg s fd owner off c rest i).pc = .batch [] ∧
      (stamp cfg s fd owner off c rest i).repl.journalFailed = true ∨
      ∃ cmd, (stamp cfg s fd owner off c rest i).pc = .logged fd off c.seq c.orderId cmd rest ∧
      cmd.symbol = c.symbol) := by
  simp only [stamp]
  split
  · rename_i hfailed
    exact ⟨rfl, .inl ⟨rfl, hfailed⟩⟩
  · cases i.append with
    | none => exact ⟨rfl, .inr ⟨_, rfl, rfl⟩⟩
    | some k => exact ⟨rfl, .inl ⟨rfl, rfl⟩⟩

variable (cfg) in
theorem handle_pc (desk : Desk G) (s : State G) (fd : Fd) (off : Nat) (clientSeq : UInt64)
    (clientId : OrderId) (c : Command) (rest : List Ready) (i : Input) :
    (handle cfg desk s fd off clientSeq clientId c rest i).pc = .crashed ∨
    (handle cfg desk s fd off clientSeq clientId c rest i).pc = .reading fd off rest ∨
    (handle cfg desk s fd off clientSeq clientId c rest i).pc = .batch [] ∧
      (handle cfg desk s fd off clientSeq clientId c rest i).repl.journalFailed = true := by
  simp only [handle]
  split
  · exact .inl rfl
  · rename_i pub _
    cases desk.process s.core.gate c with
    | none => exact .inl rfl
    | some r =>
        obtain ⟨g, events⟩ := r
        dsimp only
        generalize deliver cfg desk { s with repl.pub := pub } fd clientSeq clientId c g events = s₁
        split
        · generalize ({ s₁ with repl.sinceSync := (syncDue cfg s₁.repl.sinceSync).2 } : State G) =
            s₂
          split
          · exact .inr (.inl rfl)
          · rename_i hbad
            exact .inr (.inr ⟨rfl, journalSync_failed hbad⟩)
        · exact .inr (.inl rfl)

theorem ends_append (items items' : List Item) :
    ends (items ++ items') = ends items ++ ends items' := List.filterMap_append

theorem ends_adds (k : Sink) (f : Fd) (events : List Event) :
    ends (events.flatMap (k.adds f)) = [] := by
  rw [ends, List.filterMap_eq_nil_iff]
  intro item hitem
  obtain ⟨e, -, hmem⟩ := List.mem_flatMap.mp hitem
  simp only [Sink.adds, Sink.items] at hmem
  split at hmem
  · rcases List.mem_append.mp hmem with hmem | hmem
    · split at hmem
      · rw [List.mem_singleton.mp hmem]
        rfl
      · cases hmem
    · split at hmem
      · rw [List.mem_singleton.mp hmem]
        rfl
      · cases hmem
  · split at hmem
    · rw [List.mem_singleton.mp hmem]
      rfl
    · cases hmem

theorem ends_responses (cfg : GatewayConfig) (s : State G) (f : Fd) (clientSeq : UInt64)
    (clientId : OrderId) (cmd : Command) (events : List Event) (fd : Fd) :
    ends (responses cfg s f clientSeq clientId cmd events fd) = if f = fd then
      [(cmd.symbol, clientSeq)] else [] := by
  rw [responses, ends_append, ends_adds, List.nil_append]
  by_cases hf : f = fd
  · rw [if_pos hf, if_pos hf.symm]
    rfl
  · rw [if_neg hf, if_neg (Ne.symm hf)]
    rfl

section Crossings

variable {fd : Fd} {c c' : Conn} (hsane : c.Sane) (hc : s.sessions.conns fd = some c)

include hsane hc

theorem onReady_crossing (f : Fd) (w r : Bool) (rest : List Ready) (i : Input)
    (hpc : s.pc = .batch (.conn f w r :: rest))
    (hc' : (onReady s f w r rest i).sessions.conns fd = some c') :
    Crossing s (onReady s f w r rest i) fd c c' (receivedAt s i fd) (sentAt s i fd) [] [] := by
  have haway : s.pc.offset? fd = none ∧ s.pc.due fd = [] := by
    rw [hpc]
    exact ⟨rfl, rfl⟩
  have hsame : ∀ s' : State G, s'.sessions.conns fd = some c' → s'.pc.offset? fd = none ∧
    s'.pc.due fd = [] →
      s'.sessions.conns fd = s.sessions.conns fd → Crossing s s' fd c c' [] [] [] [] := by
    intro s' hs' hpc' hkeep
    rw [hs', hc] at hkeep
    obtain rfl := Option.some.inj hkeep
    exact .still (.refl hsane) rfl haway hpc'
  rw [onReady] at hc' ⊢
  by_cases hhalt : s.repl.halted = none
  · rw [if_neg (not_not.mpr hhalt)] at hc' ⊢
    have hwrite := tryWrite_conns s f i.sends fd
    by_cases hf : f = fd
    · subst hf
      have hflow : ∀ d, (if w = true then tryWrite s f i.sends else s).sessions.conns f = some d →
          Flows c d (sentAt s i f) [] ∧ d.inp = c.inp := by
        intro d hd
        cases w with
        | false =>
            have hnone : sentAt s i f = [] := by simp [sentAt, hpc]
            obtain rfl := Option.some.inj (hc.symm.trans hd)
            rw [hnone]
            exact ⟨.refl hsane, rfl⟩
        | true =>
            have hsome : sentAt s i f = (c.write i.sends).2 := by simp [sentAt, hpc, hhalt, hc]
            rw [if_pos rfl, hwrite, if_pos rfl, hc] at hd
            rw [hsome]
            exact Conn.write_flows hsane hd
      have hreceived : receivedAt s i f = if r = true ∧
          ((if w = true then tryWrite s f i.sends else s).sessions.conns f).isSome = true then
            i.received.bytes else [] := by
        cases r <;> simp [receivedAt, hpc, hhalt]
      generalize (if w = true then tryWrite s f i.sends else s) = t at hc' hflow hreceived ⊢
      dsimp only at hc' ⊢
      cases hd : t.sessions.conns f with
      | none =>
          rw [hd] at hc'
          dsimp only [State.at] at hc'
          rw [hd] at hc'
          cases hc'
      | some d =>
          obtain ⟨hflows, hinp⟩ := hflow d hd
          rw [hd] at hc' hreceived
          dsimp only at hc' ⊢
          have hstay : ∀ s' : State G, s'.sessions.conns f = some c' → s'.sessions = t.sessions →
            receivedAt s i f = [] →
              s'.pc.between = true → Crossing s s' f c c' (receivedAt s i f)
                (sentAt s i f) [] [] := by
            intro s' hs' hkeep hnone hpc'
            rw [hkeep, hd] at hs'
            obtain rfl := Option.some.inj hs'
            rw [hnone]
            exact .still hflows hinp haway (Pc.away hpc' f)
          by_cases hr : r = true
          · rw [if_neg (not_not.mpr hr)] at hc' ⊢
            rw [if_pos ⟨hr, rfl⟩] at hreceived
            cases hi : i.received with
            | closed =>
                rw [hi] at hc'
                have hgone := (closeConn_conns t f f).symm.trans hc'
                rw [if_pos rfl] at hgone
                cases hgone
            | again =>
                rw [hi] at hc' hreceived
                exact hstay _ hc' rfl hreceived rfl
            | data p =>
                rw [hi] at hc' hreceived
                have hnew : c' = { d with inp := d.inp ++ p } := by
                  simp only [State.at, Function.update_self] at hc'
                  exact (Option.some.inj hc').symm
                have hlive : s.pc ≠ .crashed := by
                  rw [hpc]
                  exact Pc.noConfusion
                rw [hreceived]
                refine ⟨?_, .arrived p haway.1 ⟨hhalt, hlive⟩ (by rw [hnew, hinp]) (if_pos rfl) rfl,
                  .inl haway.2.symm⟩
                rw [hnew]
                exact ⟨hflows.sane, hflows.exact⟩
          · rw [if_pos hr] at hc' ⊢
            rw [if_neg fun h => hr h.1] at hreceived
            exact hstay _ hc' rfl hreceived rfl
    · have hreceived : receivedAt s i fd = [] := by
        cases r <;> simp [receivedAt, hpc, hf]
      have hsent : sentAt s i fd = [] := by
        cases w <;> simp [sentAt, hpc, hf]
      have hkeep :
          (if w = true then tryWrite s f i.sends else s).sessions.conns fd =
          s.sessions.conns fd := by
        split
        · rw [hwrite, if_neg hf]
        · rfl
      rw [hreceived, hsent]
      generalize (if w = true then tryWrite s f i.sends else s) = t at hc' hkeep ⊢
      dsimp only at hc' ⊢
      cases hd : t.sessions.conns f with
      | none =>
          rw [hd] at hc'
          exact hsame _ hc' ⟨rfl, rfl⟩ hkeep
      | some d =>
          rw [hd] at hc'
          dsimp only at hc' ⊢
          by_cases hr : r = true
          · rw [if_neg (not_not.mpr hr)] at hc' ⊢
            cases hi : i.received with
            | closed =>
                rw [hi] at hc'
                refine hsame _ hc' ⟨rfl, rfl⟩ ?_
                refine (closeConn_conns t f fd).trans ?_
                rw [if_neg hf, hkeep]
            | again =>
                rw [hi] at hc'
                exact hsame _ hc' ⟨rfl, rfl⟩ hkeep
            | data p =>
                rw [hi] at hc'
                refine hsame _ hc' ⟨if_neg hf, rfl⟩ ?_
                exact (Function.update_of_ne (Ne.symm hf) _ _).trans hkeep
          · rw [if_pos hr] at hc' ⊢
            exact hsame _ hc' ⟨rfl, rfl⟩ hkeep
  · have hreceived : receivedAt s i fd = [] := by
      cases r <;> simp [receivedAt, hpc, hhalt]
    have hsent : sentAt s i fd = [] := by
      cases w <;> simp [sentAt, hpc, hhalt]
    rw [if_pos hhalt] at hc' ⊢
    rw [hreceived, hsent]
    exact hsame _ hc' ⟨rfl, rfl⟩ rfl

theorem stamp_crossing (owner : OwnerId) (o n : Nat) (cmd : Command) (rest : List Ready) (i : Input)
    (hpc : s.pc = .reading fd o rest) (hnext : Wire.next c.inp o = .command cmd n)
    (hc' : (stamp cfg s fd owner (o + n) cmd rest i).sessions.conns fd = some c') :
    Crossing s (stamp cfg s fd owner (o + n) cmd rest i) fd c c' [] [] [cmd] [] := by
  obtain ⟨hkeep, hpc'⟩ := stamp_pc cfg s fd owner (o + n) cmd rest i
  rw [hkeep, hc] at hc'
  obtain rfl := Option.some.inj hc'
  have hbusy : s.pc.offset? fd = some o := by
    rw [hpc]
    exact if_pos rfl
  have hdue : s.pc.due fd = [] := by
    rw [hpc]
    rfl
  refine ⟨.refl hsane, .decoded o n cmd hbusy hnext rfl ?_, .inl hdue.symm⟩
  rcases hpc' with ⟨hbatch, hfailed⟩ | ⟨cmd', hlogged, hsymbol⟩
  · right
    rw [hbatch]
    exact ⟨rfl, rfl, .inl hfailed⟩
  · left
    rw [hlogged, ← hsymbol]
    exact ⟨if_pos rfl, if_pos rfl⟩

theorem read_crossing (f : Fd) (o : Nat) (rest : List Ready) (i : Input)
    (hpc : s.pc = .reading f o rest) (hc' : (read cfg s f o rest i).sessions.conns fd = some c') :
    Crossing s (read cfg s f o rest i) fd c c' [] [] (decodedAt s fd) [] := by
  have hdue : s.pc.due fd = [] := by
    rw [hpc]
    rfl
  by_cases hf : f = fd
  · subst hf
    have hbusy : s.pc.offset? f = some o := by
      rw [hpc]
      exact if_pos rfl
    have hdecoded : decodedAt s f = (Wire.next c.inp o).commands := by
      simp only [decodedAt, hpc, hc, if_true]
    simp only [read, hc] at hc' ⊢
    cases hnext : Wire.next c.inp o with
    | wait =>
        rw [hnext] at hc' hdecoded
        rw [hdecoded]
        simp only [State.at, Function.update_self] at hc'
        obtain rfl := Option.some.inj hc'
        exact ⟨.of_same hsane rfl rfl, .drained o hbusy hnext rfl rfl rfl, .inl hdue.symm⟩
    | lost =>
        rw [hnext] at hc'
        have hgone := (closeConn_conns s f f).symm.trans hc'
        rw [if_pos rfl] at hgone
        cases hgone
    | skip n =>
        rw [hnext] at hc' hdecoded
        rw [hdecoded]
        obtain rfl := Option.some.inj (hc.symm.trans hc')
        exact ⟨.refl hsane, .skipped o n hbusy hnext rfl (if_pos rfl) rfl, .inl hdue.symm⟩
    | command cmd n =>
        rw [hnext] at hc' hdecoded
        rw [hdecoded]
        exact stamp_crossing hsane hc c.owner o n cmd rest i hpc hnext hc'
  · have hdecoded : decodedAt s fd = [] := by simp [decodedAt, hpc, hf]
    have haway : s.pc.offset? fd = none ∧ s.pc.due fd = [] := by
      rw [hpc]
      exact ⟨if_neg hf, rfl⟩
    have hsame : ∀ s' : State G, s'.sessions.conns fd = some c' →
      s'.sessions.conns fd = s.sessions.conns fd →
        s'.pc.offset? fd = none ∧ s'.pc.due fd = [] → Crossing s s' fd c c' [] [] [] [] := by
      intro s' hs' hkeep hpc'
      rw [hs', hc] at hkeep
      obtain rfl := Option.some.inj hkeep
      exact .still (.refl hsane) rfl haway hpc'
    rw [hdecoded]
    rw [read] at hc' ⊢
    cases hd : s.sessions.conns f with
    | none =>
        rw [hd] at hc'
        exact hsame _ hc' rfl ⟨rfl, rfl⟩
    | some d =>
        rw [hd] at hc'
        dsimp only at hc' ⊢
        cases hnext : Wire.next d.inp o with
        | wait =>
            rw [hnext] at hc'
            exact hsame _ hc' (Function.update_of_ne (Ne.symm hf) _ _) ⟨rfl, rfl⟩
        | lost =>
            rw [hnext] at hc'
            refine hsame _ hc' ((closeConn_conns s f fd).trans (if_neg hf)) ⟨rfl, rfl⟩
        | skip n =>
            rw [hnext] at hc'
            exact hsame _ hc' rfl ⟨if_neg hf, rfl⟩
        | command cmd n =>
            rw [hnext] at hc'
            dsimp only at hc' ⊢
            obtain ⟨hkeep, hpc'⟩ := stamp_pc cfg s f d.owner (o + n) cmd rest i
            refine hsame _ hc' (congrArg (fun n => n.conns fd) hkeep) ?_
            rcases hpc' with ⟨hbatch, -⟩ | ⟨cmd', hlogged, -⟩
            · rw [hbatch]
              exact ⟨rfl, rfl⟩
            · rw [hlogged]
              exact ⟨if_neg hf, if_neg hf⟩

theorem handle_crossing (desk : Desk G) (f : Fd) (off : Nat) (clientSeq : UInt64)
    (clientId : OrderId) (cmd : Command) (rest : List Ready) (i : Input)
    (hpc : s.pc = .logged f off clientSeq clientId cmd rest)
    (hc' : (handle cfg desk s f off clientSeq clientId cmd rest i).sessions.conns fd = some c') :
    Crossing s (handle cfg desk s f off clientSeq clientId cmd rest i) fd c c' [] [] []
      (addedAt cfg desk s i fd) := by
  have hstep : step cfg desk s i = handle cfg desk s f off clientSeq clientId cmd rest i := by
    rw [step, hpc]
  have hoff : s.pc.offset? fd = if f = fd then some off else none := by rw [hpc]; rfl
  have hdue : s.pc.due fd = if f = fd then [(cmd.symbol, clientSeq)] else [] := by rw [hpc]; rfl
  rcases handle_conns cfg desk s f off clientSeq clientId cmd rest i with
    ⟨hcrash, hkeep⟩ | ⟨g, events, hrun, hgo, hconns⟩
  · have hadded : addedAt cfg desk s i fd = [] := by
      simp only [addedAt, hpc, hstep, hcrash, if_true]
    rw [hkeep, hc] at hc'
    obtain rfl := Option.some.inj hc'
    rw [hadded]
    refine ⟨.refl hsane, .ended rfl ?_ ?_ (.inr hcrash), .inr ⟨rfl, hcrash⟩⟩
    · rw [hcrash]
      rfl
    · rw [hcrash]
      rfl
  · have hadded : addedAt cfg desk s i fd = responses cfg s f clientSeq clientId cmd events fd := by
      simp only [addedAt, hpc, hstep, if_neg hgo, hrun]
    rw [hadded]
    have hnew : c' = { c with
        out := c.out ++ responses cfg s f clientSeq clientId cmd events fd } := by
      rw [hconns, extend, hc] at hc'
      exact (Option.some.inj hc').symm
    refine ⟨?_, ?_, .inl ((ends_responses cfg s f clientSeq clientId cmd events fd).trans
      hdue.symm)⟩
    · rw [hnew]
      refine ⟨?_, c.pending_append hsane _⟩
      simp only [Conn.Sane, List.length_append] at hsane ⊢
      exact Nat.le_trans hsane (Nat.mul_le_mul_right _ (Nat.le_add_right _ _))
    · have hinp : c'.inp = c.inp := by rw [hnew]
      rcases handle_pc cfg desk s f off clientSeq clientId cmd rest i with hcrash | hreading |
        ⟨hbatch, hfailed⟩
      · exact absurd hcrash hgo
      · refine .kept hinp ?_ ?_
        · rw [hreading, hoff]
          rfl
        · rw [hreading]
          rfl
      · refine .ended hinp ?_ ?_ (.inl hfailed)
        · rw [hbatch]
          rfl
        · rw [hbatch]
          rfl

theorem release_crossing (desk : Desk G) (i : Input) (hpc : s.pc = .release)
    (hc' : (release cfg desk s i).sessions.conns fd = some c') :
    Crossing s (release cfg desk s i) fd c c' [] (sentAt s i fd) [] [] := by
  by_cases hhalt : s.repl.halted = none
  · have hsent : sentAt s i fd = (writes fd (some c) s.batch.touched i.writes).2 := by
      simp only [sentAt, hpc, hhalt, if_true, hc]
    have hpc' : (release cfg desk s i).pc = .poll := by
      rw [release, if_neg (not_not.mpr hhalt)]
      rfl
    have hconns :
        (release cfg desk s i).sessions.conns fd =
        (writes fd (some c) s.batch.touched i.writes).1 := by
      rw [release, if_neg (not_not.mpr hhalt)]
      dsimp only
      refine (writeTouched_conns _ _ _ fd).trans ?_
      rw [sessions_publisherCall]
      have hmd : (publishMd cfg desk
        (State.emit { s with released := s.core.seq } [.commit])).sessions = s.sessions ∧
          (publishMd cfg desk (State.emit { s with released := s.core.seq }
            [.commit])).batch.touched = s.batch.touched := by
        rw [publishMd]
        split <;> exact ⟨rfl, rfl⟩
      have htouched : ∀ t : State G, ∀ f, (publisherCall t f).batch = t.batch := by
        intro t f
        rw [publisherCall]
        cases t.repl.pub <;> rfl
      rw [htouched, hmd.1, hmd.2, hc]
    rw [hsent]
    rw [hconns] at hc'
    obtain ⟨hflows, hinp⟩ := writes_flows hsane hc'
    refine .still hflows hinp ?_ ?_
    · rw [hpc]
      exact ⟨rfl, rfl⟩
    · rw [hpc']
      exact ⟨rfl, rfl⟩
  · rw [release, if_pos hhalt] at hc'
    cases hc'

theorem step_crossing (desk : Desk G) (i : Input)
    (hc' : (step cfg desk s i).sessions.conns fd = some c') :
    Crossing s (step cfg desk s i) fd c c' (receivedAt s i fd) (sentAt s i fd) (decodedAt s fd)
      (addedAt cfg desk s i fd) := by
  have hquiet : s.pc.between = true → (step cfg desk s i).pc.between = true →
      (step cfg desk s i).sessions.conns fd = s.sessions.conns fd →
      Crossing s (step cfg desk s i) fd c c' [] [] [] [] := by
    intro hpc hpc' hkeep
    rw [hc', hc] at hkeep
    obtain rfl := Option.some.inj hkeep
    exact .still (.refl hsane) rfl (Pc.away hpc fd) (Pc.away hpc' fd)
  cases hpc : s.pc with
  | poll =>
      simp only [receivedAt, sentAt, decodedAt, addedAt, hpc]
      refine hquiet (by rw [hpc]; rfl) ?_ ?_
      · simp only [step, hpc]
        split <;> rfl
      · simp only [step, hpc]
        split <;> rfl
  | batch ready =>
      cases ready with
      | nil =>
          have hstep : step cfg desk s i = commit cfg s i := by rw [step, hpc]
          simp only [receivedAt, sentAt, decodedAt, addedAt, hpc]
          refine hquiet (by rw [hpc]; rfl) ?_ ?_
          · rw [hstep]
            exact commit_between s i
          · rw [hstep, sessions_commit]
      | cons r rest =>
          cases r with
          | listener =>
              have hstep : step cfg desk s i = (accept s i.accepted).at (.batch rest) := by
                rw [step, hpc]
              simp only [receivedAt, sentAt, decodedAt, addedAt, hpc]
              refine hquiet (by rw [hpc]; rfl) ?_ ?_
              · rw [hstep]
                rfl
              · rw [hstep, hc]
                exact accept_conns s i.accepted hc
          | control =>
              have hstep : step cfg desk s i = (serviceAndCheck s i.group i.control).at
                (.batch rest) := by rw [step, hpc]
              simp only [receivedAt, sentAt, decodedAt, addedAt, hpc]
              refine hquiet (by rw [hpc]; rfl) ?_ ?_
              · rw [hstep]
                rfl
              · rw [hstep]
                exact congrArg (fun n => n.conns fd)
                  ((sessions_fenceCheck _).trans (sessions_publisherCall s _))
          | conn f w r =>
              have hstep : step cfg desk s i = onReady s f w r rest i := by rw [step, hpc]
              have hdecoded : decodedAt s fd = [] := by simp only [decodedAt, hpc]
              have hadded : addedAt cfg desk s i fd = [] := by simp only [addedAt, hpc]
              rw [hdecoded, hadded]
              rw [hstep] at hc' ⊢
              exact onReady_crossing hsane hc f w r rest i hpc hc'
  | reading f off rest =>
      have hstep : step cfg desk s i = read cfg s f off rest i := by rw [step, hpc]
      have hreceived : receivedAt s i fd = [] := by simp only [receivedAt, hpc]
      have hsent : sentAt s i fd = [] := by simp only [sentAt, hpc]
      have hadded : addedAt cfg desk s i fd = [] := by simp only [addedAt, hpc]
      rw [hreceived, hsent, hadded]
      rw [hstep] at hc' ⊢
      exact read_crossing hsane hc f off rest i hpc hc'
  | logged f off clientSeq clientId cmd rest =>
      have hstep : step cfg desk s i = handle cfg desk s f off clientSeq clientId cmd rest i := by
        rw [step, hpc]
      have hreceived : receivedAt s i fd = [] := by simp only [receivedAt, hpc]
      have hsent : sentAt s i fd = [] := by simp only [sentAt, hpc]
      have hdecoded : decodedAt s fd = [] := by simp only [decodedAt, hpc]
      rw [hreceived, hsent, hdecoded]
      rw [hstep] at hc' ⊢
      exact handle_crossing hsane hc desk f off clientSeq clientId cmd rest i hpc hc'
  | waiting since =>
      have hstep : step cfg desk s i = waitPass cfg s since i := by rw [step, hpc]
      simp only [receivedAt, sentAt, decodedAt, addedAt, hpc]
      refine hquiet (by rw [hpc]; rfl) ?_ ?_
      · rw [hstep]
        exact waitPass_between s since i
      · rw [hstep, sessions_waitPass]
  | expiring =>
      have hstep : step cfg desk s i = expire cfg s i := by rw [step, hpc]
      simp only [receivedAt, sentAt, decodedAt, addedAt, hpc]
      refine hquiet (by rw [hpc]; rfl) ?_ ?_
      · rw [hstep]
        exact expire_between s i
      · rw [hstep, sessions_expire]
  | release =>
      have hstep : step cfg desk s i = release cfg desk s i := by rw [step, hpc]
      have hreceived : receivedAt s i fd = [] := by simp only [receivedAt, hpc]
      have hdecoded : decodedAt s fd = [] := by simp only [decodedAt, hpc]
      have hadded : addedAt cfg desk s i fd = [] := by simp only [addedAt, hpc]
      rw [hreceived, hdecoded, hadded]
      rw [hstep] at hc' ⊢
      exact release_crossing hsane hc desk i hpc hc'
  | shutdown =>
      have hstep : step cfg desk s i = shutdown s i := by rw [step, hpc]
      simp only [receivedAt, sentAt, decodedAt, addedAt, hpc]
      refine hquiet (by rw [hpc]; rfl) ?_ ?_
      · rw [hstep]
        rfl
      · rw [hstep]
        exact congrArg (fun n => n.conns fd)
          ((sessions_publisherCall _ _).trans (sessions_journalSync s i.flush i.fsync))
  | stopped =>
      have hstep : step cfg desk s i = s := by rw [step, hpc]
      simp only [receivedAt, sentAt, decodedAt, addedAt, hpc]
      refine hquiet (by rw [hpc]; rfl) ?_ ?_
      · rw [hstep, hpc]
        rfl
      · rw [hstep]
  | crashed =>
      have hstep : step cfg desk s i = s := by rw [step, hpc]
      simp only [receivedAt, sentAt, decodedAt, addedAt, hpc]
      refine hquiet (by rw [hpc]; rfl) ?_ ?_
      · rw [hstep, hpc]
        rfl
      · rw [hstep]

end Crossings

/-! ### A session from its first byte on -/

theorem dead_step (desk : Desk G) (i : Input) (h : s.dead) : (step cfg desk s i).dead := by
  rcases h with hfailed | hcrash
  · left
    rcases step_stores cfg desk s i with hstores | ⟨fd, off, rest, cn, cmd, n, -, -, -, heq⟩
    · exact hstores.failed hfailed
    · rw [heq]
      obtain ⟨-, ⟨hfailed', -⟩ | ⟨hok, -⟩⟩ := stamp_cases cfg s fd cn.owner (off + n) cmd rest i
      · exact hfailed'
      · rw [hok] at hfailed
        cases hfailed
  · right
    rw [step, hcrash]
    exact hcrash

structure Traffic where
  received : Bytes := []
  sent : Bytes := []
  decoded : List Command := []
  added : List Item := []
  deriving DecidableEq

def Traffic.step (cfg : GatewayConfig) (desk : Desk G) (fd : Fd) (s : State G) (t : Traffic)
    (i : Input) : Traffic :=
  if (s.sessions.conns fd).isSome ∧ ((Gateway.step cfg desk s i).sessions.conns fd).isSome then
    { received := t.received ++ receivedAt s i fd
      sent := t.sent ++ sentAt s i fd
      decoded := t.decoded ++ decodedAt s fd
      added := t.added ++ addedAt cfg desk s i fd }
  else {}

def Traffic.run (cfg : GatewayConfig) (desk : Desk G) (fd : Fd) : State G → Traffic →
    List Input → Traffic
  | _, t, [] => t
  | s, t, i :: is => Traffic.run cfg desk fd (Gateway.step cfg desk s i) (t.step cfg desk fd s i) is

/-- What the end of the response to a command says. -/
def endOf (cmd : Command) : SymbolId × UInt64 := (cmd.symbol, cmd.seq)

structure Accounts (s : State G) (fd : Fd) (c : Conn) (t : Traffic) : Prop where
  sane : c.Sane
  sent : t.sent ++ c.pending = outBytes t.added
  read : ∃ seen off, off ≤ c.inp.length ∧ messages.Parses t.received seen (c.inp.drop off) ∧
    commandsOf seen = t.decoded ∧
    (∀ o, s.pc.offset? fd = some o → off = o) ∧
    (s.pc.offset? fd = none → ¬ s.dead → off = 0 ∧ Wire.decode c.inp = .incomplete)
  answered : ∃ lost, ends t.added ++ s.pc.due fd ++ lost = t.decoded.map endOf ∧
    (lost ≠ [] → s.dead ∧ s.pc.offset? fd = none)

theorem Accounts.fresh {fd : Fd} {owner : OwnerId} (hpc : s.pc.between = true) :
    Accounts s fd { owner := owner } {} where
  sane := Nat.le_refl _
  sent := rfl
  read := by
    refine ⟨[], 0, Nat.le_refl _, .done [], rfl, fun o ho => ?_, fun _ _ => ⟨rfl, Wire.decode_nil⟩⟩
    rw [(Pc.away hpc fd).1] at ho
    cases ho
  answered := ⟨[], by rw [(Pc.away hpc fd).2]; rfl, fun h => absurd rfl h⟩

section Step

variable {fd : Fd} {c c' : Conn} {t : Traffic} {received sent : Bytes} {decoded : List Command}
    {added : List Item}

theorem Accounts.reads (h : Accounts s fd c t) (hsealed : Sealed s) (hdead : s.dead → s'.dead)
    (hreading : Reading s s' fd c c' received decoded) :
    ∃ seen off, off ≤ c'.inp.length ∧ messages.Parses (t.received ++ received) seen
      (c'.inp.drop off) ∧
      commandsOf seen = t.decoded ++ decoded ∧ (∀ o, s'.pc.offset? fd = some o → off = o) ∧
      (s'.pc.offset? fd = none → ¬ s'.dead → off = 0 ∧ Wire.decode c'.inp = .incomplete) := by
  obtain ⟨seen, off, hoff, hparse, hcommands, hbusy, hidle⟩ := h.read
  cases hreading with
  | kept inp off' due =>
      rw [List.append_nil, List.append_nil, inp, off']
      exact ⟨seen, off, hoff, hparse, hcommands, hbusy, fun hnone halive => hidle hnone fun hd =>
        halive (hdead hd)⟩
  | ended inp off' due dead =>
      rw [List.append_nil, List.append_nil, inp, off']
      exact ⟨seen, off, hoff, hparse, hcommands, fun o ho => absurd ho (Option.some_ne_none o).symm,
        fun _ halive => absurd dead halive⟩
  | arrived p idle live inp off' due =>
      have halive : ¬ s.dead := by
        rintro (hfailed | hcrash)
        · exact hsealed hfailed live.1
        · exact live.2 hcrash
      obtain ⟨rfl, -⟩ := hidle idle halive
      rw [List.append_nil, inp, off']
      refine ⟨seen, 0, Nat.zero_le _, hparse.append received, hcommands,
        fun o ho => Option.some.inj ho, fun hnone => ?_⟩
      cases hnone
  | skipped o n busy found inp off' due =>
      obtain rfl := hbusy o busy
      have hd := Wire.decode_eq_next c.inp off
      rw [found] at hd
      have hle := (Wire.decode_malformed hd).1
      rw [List.length_drop] at hle
      have hframe :=
        Lib.Framing.Parses.single (Wire.first_of_malformed hd (Wire.next_skip_ne_zero found))
      rw [List.drop_drop] at hframe
      rw [List.append_nil, List.append_nil, inp, off']
      refine ⟨_, off + n, by omega, hparse.trans hframe, ?_, fun o ho => Option.some.inj ho,
        fun hnone => ?_⟩
      · rw [Wire.commandsOf_append, hcommands]
        exact List.append_nil _
      · cases hnone
  | decoded o n cmd busy found inp next =>
      obtain rfl := hbusy o busy
      have hd := Wire.decode_eq_next c.inp off
      rw [found] at hd
      have hle := (Wire.decode_ok hd).available
      rw [List.length_drop] at hle
      have hframe := Lib.Framing.Parses.single (Wire.first_of_ok hd)
      rw [List.drop_drop] at hframe
      rw [List.append_nil, inp]
      refine ⟨_, off + n, by omega, hparse.trans hframe, ?_, ?_, ?_⟩
      · rw [Wire.commandsOf_append, hcommands]
        rfl
      · rcases next with ⟨off', -⟩ | ⟨off', -⟩
        · rw [off']
          exact fun o ho => Option.some.inj ho
        · rw [off']
          exact fun o ho => absurd ho (Option.some_ne_none o).symm
      · rcases next with ⟨off', -⟩ | ⟨off', -, dead⟩
        · rw [off']
          exact fun hnone => absurd hnone (Option.some_ne_none _)
        · exact fun _ halive => absurd dead halive
  | drained o busy found inp off' due =>
      obtain rfl := hbusy o busy
      have hd := Wire.decode_eq_next c.inp off
      rw [found] at hd
      rw [List.append_nil, List.append_nil, inp, off']
      exact ⟨seen, 0, Nat.zero_le _, hparse, hcommands,
        fun o ho => absurd ho (Option.some_ne_none o).symm, fun _ _ => ⟨rfl, hd⟩⟩

theorem Accounts.answers (h : Accounts s fd c t) (hsealed : Sealed s) (hdead : s.dead → s'.dead)
    (hreading : Reading s s' fd c c' received decoded)
    (hanswered : ends added = s.pc.due fd ∨ ends added = [] ∧ s'.pc = .crashed) :
    ∃ lost, ends (t.added ++ added) ++ s'.pc.due fd ++ lost = (t.decoded ++ decoded).map endOf ∧
      (lost ≠ [] → s'.dead ∧ s'.pc.offset? fd = none) := by
  have hcrashed : ∀ o, s'.pc = .crashed → s'.pc.offset? fd ≠ some o := by
    intro o hcrash hbusy
    rw [hcrash] at hbusy
    cases hbusy
  -- What was due has been answered, or the crash has cost it.
  have hfirst : ∃ lost, ends (t.added ++ added) ++ lost = t.decoded.map endOf ∧
      (lost ≠ [] → s.dead ∧ s.pc.offset? fd = none ∨ s'.pc = .crashed) := by
    obtain ⟨lost, heq, hlost⟩ := h.answered
    rw [ends_append]
    rcases hanswered with hdue | ⟨hnil, hcrash⟩
    · exact ⟨lost, by rw [hdue, heq], fun hne => .inl (hlost hne)⟩
    · exact ⟨s.pc.due fd ++ lost, by rw [hnil, List.append_nil, ← List.append_assoc, heq],
        fun _ => .inr hcrash⟩
  obtain ⟨lost, heq, hlost⟩ := hfirst
  have hquiet : s'.pc.due fd = [] → decoded = [] → (lost ≠ [] → s'.dead ∧ s'.pc.offset? fd = none) →
      ∃ lost, ends (t.added ++ added) ++ s'.pc.due fd ++ lost = (t.decoded ++ decoded).map endOf ∧
        (lost ≠ [] → s'.dead ∧ s'.pc.offset? fd = none) := by
    intro hdue hnil hmore
    exact ⟨lost, by rw [hdue, hnil, List.append_nil, List.append_nil, heq], hmore⟩
  cases hreading with
  | kept inp off due =>
      refine hquiet due rfl fun hne => ?_
      rcases hlost hne with ⟨hgone, hnone⟩ | hcrash
      · exact ⟨hdead hgone, off.trans hnone⟩
      · refine ⟨.inr hcrash, ?_⟩
        rw [hcrash]
        rfl
  | ended inp off due dead => exact hquiet due rfl fun _ => ⟨dead, off⟩
  | arrived p idle live inp off due =>
      refine hquiet due rfl fun hne => ?_
      rcases hlost hne with ⟨hfailed | hcrash, -⟩ | hcrash
      · exact absurd live.1 (hsealed hfailed)
      · exact absurd hcrash live.2
      · exact absurd off (hcrashed 0 hcrash)
  | skipped o n busy found inp off due =>
      refine hquiet due rfl fun hne => ?_
      rcases hlost hne with ⟨-, hnone⟩ | hcrash
      · rw [busy] at hnone
        cases hnone
      · exact absurd off (hcrashed _ hcrash)
  | decoded o n cmd busy found inp next =>
      rcases next with ⟨off, due⟩ | ⟨off, due, dead⟩
      · have hnil : lost = [] := by
          by_contra hne
          rcases hlost hne with ⟨-, hnone⟩ | hcrash
          · rw [busy] at hnone
            cases hnone
          · exact hcrashed _ hcrash off
        rw [hnil, List.append_nil] at heq
        exact ⟨[], by rw [due, List.append_nil, heq, List.map_append]; rfl,
          fun hne => absurd rfl hne⟩
      · refine ⟨lost ++ [endOf cmd], ?_, fun _ => ⟨dead, off⟩⟩
        rw [due, List.append_nil, ← List.append_assoc, heq, List.map_append]
        rfl
  | drained o busy found inp off due =>
      refine hquiet due rfl fun hne => ?_
      rcases hlost hne with ⟨-, hnone⟩ | hcrash
      · rw [busy] at hnone
        cases hnone
      · exact ⟨.inr hcrash, off⟩

theorem Accounts.crossing (h : Accounts s fd c t) (hsealed : Sealed s) (hdead : s.dead → s'.dead)
    (hcross : Crossing s s' fd c c' received sent decoded added) :
    Accounts s' fd c' ⟨t.received ++ received, t.sent ++ sent, t.decoded ++ decoded,
      t.added ++ added⟩ where
  sane := hcross.flows.sane
  sent := by
    rw [outBytes_append, ← h.sent, List.append_assoc, List.append_assoc, hcross.flows.exact]
  read := h.reads hsealed hdead hcross.reading
  answered := h.answers hsealed hdead hcross.reading hcross.answered

end Step

/-! ### A session that opens -/

theorem accept_opened {fd : Fd} {c : Conn} (s : State G) (fds : List Fd)
    (hnone : s.sessions.conns fd = none) (hc : (accept s fds).sessions.conns fd = some c) :
    ∃ owner, c = { owner := owner } := by
  induction fds generalizing s with
  | nil =>
      rw [accept, hnone] at hc
      cases hc
  | cons f fds ih =>
      rw [accept] at hc
      by_cases hf : f = fd
      · subst hf
        refine ⟨s.sessions.nextOwner, Option.some.inj (hc.symm.trans (accept_conns _ fds ?_))⟩
        change (if (s.sessions.conns f).isSome then s.sessions.conns
          else Function.update s.sessions.conns f (some { owner := s.sessions.nextOwner })) f = _
        rw [hnone, if_neg (show ¬ (none : Option Conn).isSome = true from Bool.false_ne_true),
          Function.update_self]
      · refine ih _ ?_ hc
        change (if (s.sessions.conns f).isSome then s.sessions.conns
          else Function.update s.sessions.conns f (some { owner := s.sessions.nextOwner })) fd =
            none
        split
        · exact hnone
        · rw [Function.update_of_ne (Ne.symm hf), hnone]

theorem onReady_closed {fd : Fd} (s : State G) (f : Fd) (w r : Bool) (rest : List Ready) (i : Input)
    (hnone : s.sessions.conns fd = none) : (onReady s f w r rest i).sessions.conns fd = none := by
  rw [onReady]
  split
  · exact hnone
  have hw : (if w = true then tryWrite s f i.sends else s).sessions.conns fd = none := by
    split
    · rw [tryWrite_conns, hnone, Option.bind_none, ite_self]
    · exact hnone
  generalize (if w = true then tryWrite s f i.sends else s) = t at hw
  dsimp only
  cases hd : t.sessions.conns f with
  | none => exact hw
  | some d =>
      dsimp only
      split
      · exact hw
      · cases i.received with
        | closed =>
            refine (closeConn_conns t f fd).trans ?_
            rw [hw, ite_self]
        | again => exact hw
        | data p =>
            have hne : fd ≠ f := by
              rintro rfl
              rw [hw] at hd
              cases hd
            exact (Function.update_of_ne hne _ _).trans hw

theorem read_closed {fd : Fd} (s : State G) (f : Fd) (o : Nat) (rest : List Ready) (i : Input)
    (hnone : s.sessions.conns fd = none) : (read cfg s f o rest i).sessions.conns fd = none := by
  rw [read]
  cases hd : s.sessions.conns f with
  | none => exact hnone
  | some d =>
      dsimp only
      cases Wire.next d.inp o with
      | wait =>
          have hne : fd ≠ f := by
            rintro rfl
            rw [hnone] at hd
            cases hd
          exact (Function.update_of_ne hne _ _).trans hnone
      | lost =>
          refine (closeConn_conns s f fd).trans ?_
          rw [hnone, ite_self]
      | skip n => exact hnone
      | command cmd n =>
          exact (congrArg (fun n => n.conns fd)
            (stamp_pc cfg s f d.owner (o + n) cmd rest i).1).trans hnone

theorem release_closed {fd : Fd} (desk : Desk G) (s : State G) (i : Input)
    (hnone : s.sessions.conns fd = none) :
    (release cfg desk s i).sessions.conns fd = none := by
  rw [release]
  split
  · rfl
  · dsimp only
    refine (writeTouched_conns _ _ _ fd).trans ?_
    have hmd : (publishMd cfg desk
        (State.emit { s with released := s.core.seq } [.commit])).sessions = s.sessions := by
      rw [publishMd]
      split <;> rfl
    rw [sessions_publisherCall, hmd, hnone]
    generalize State.batch _ = b
    cases b.touched <;> rfl

theorem step_opened (desk : Desk G) (s : State G) (i : Input) {fd : Fd} {c : Conn}
    (hnone : s.sessions.conns fd = none) (hc : (step cfg desk s i).sessions.conns fd = some c) :
    (∃ owner, c = { owner := owner }) ∧ (step cfg desk s i).pc.between = true := by
  have hgone : (step cfg desk s i).sessions.conns fd = none → False := by
    intro h
    rw [h] at hc
    cases hc
  have hsame : (step cfg desk s i).sessions = s.sessions → False :=
    fun h => hgone (by rw [h, hnone])
  cases hpc : s.pc with
  | poll =>
      refine (hsame ?_).elim
      simp only [step, hpc]
      split <;> rfl
  | batch ready =>
      cases ready with
      | nil =>
          refine (hsame ?_).elim
          rw [step, hpc]
          exact sessions_commit s i
      | cons r rest =>
          cases r with
          | listener =>
              have hstep : step cfg desk s i = (accept s i.accepted).at (.batch rest) := by
                rw [step, hpc]
              rw [hstep] at hc ⊢
              exact ⟨accept_opened s i.accepted hnone hc, rfl⟩
          | control =>
              refine (hsame ?_).elim
              rw [step, hpc]
              exact (sessions_fenceCheck _).trans (sessions_publisherCall s _)
          | conn f w r =>
              refine (hgone ?_).elim
              rw [step, hpc]
              exact onReady_closed s f w r rest i hnone
  | reading f off rest =>
      refine (hgone ?_).elim
      rw [step, hpc]
      exact read_closed s f off rest i hnone
  | logged f off clientSeq clientId cmd rest =>
      refine (hgone ?_).elim
      have hstep : step cfg desk s i = handle cfg desk s f off clientSeq clientId cmd rest i := by
        rw [step, hpc]
      rw [hstep]
      rcases handle_conns cfg desk s f off clientSeq clientId cmd rest i with ⟨-, hkeep⟩ |
        ⟨g, events, -, -, hconns⟩
      · rw [hkeep, hnone]
      · rw [hconns, extend, hnone]
        rfl
  | waiting since =>
      refine (hsame ?_).elim
      rw [step, hpc]
      exact sessions_waitPass s since i
  | expiring =>
      refine (hsame ?_).elim
      rw [step, hpc]
      exact sessions_expire s i
  | release =>
      refine (hgone ?_).elim
      rw [step, hpc]
      exact release_closed desk s i hnone
  | shutdown =>
      refine (hsame ?_).elim
      rw [step, hpc]
      exact (sessions_publisherCall _ _).trans (sessions_journalSync s i.flush i.fsync)
  | stopped =>
      refine (hsame ?_).elim
      rw [step, hpc]
  | crashed =>
      refine (hsame ?_).elim
      rw [step, hpc]

/-! ### Whole runs -/

theorem Accounts.step (desk : Desk G) (s : State G) (i : Input) (fd : Fd) (t : Traffic)
    (hsealed : Sealed s) (h : ∀ c, s.sessions.conns fd = some c → Accounts s fd c t) :
    ∀ c, (Gateway.step cfg desk s i).sessions.conns fd = some c →
    Accounts (Gateway.step cfg desk s i) fd c (t.step cfg desk fd s i) := by
  intro c' hc'
  cases hc : s.sessions.conns fd with
  | none =>
      obtain ⟨⟨owner, rfl⟩, hpc⟩ := step_opened desk s i hc hc'
      rw [Traffic.step, hc, if_neg fun h => Bool.false_ne_true h.1]
      exact .fresh hpc
  | some c =>
      rw [Traffic.step, hc, hc', if_pos ⟨rfl, rfl⟩]
      exact (h c hc).crossing hsealed (dead_step desk i) (step_crossing (h c hc).sane hc desk i hc')

theorem Accounts.run (desk : Desk G) (s : State G) (fd : Fd) (t : Traffic) (is : List Input)
    (hsealed : Sealed s) (h : ∀ c, s.sessions.conns fd = some c → Accounts s fd c t) :
    ∀ c, (Gateway.run cfg desk s is).sessions.conns fd = some c →
      Accounts (Gateway.run cfg desk s is) fd c (Traffic.run cfg desk fd s t is) := by
  induction is generalizing s t with
  | nil => exact h
  | cons i is ih => exact ih _ _ (hsealed.step desk i) (Accounts.step desk s i fd t hsealed h)

/-- At every moment of every run each connection accounts for its bytes, however its reads and
writes have been cut. What it has been sent since it was accepted, and what it is still to be sent,
are the encoded reports that the engine's answers have added; what it has sent is parsed into the
commands that were decoded, and the rest is in its buffer; the responses to those commands end once
each and in their order. -/
theorem sessions_byte_exact (cfg : GatewayConfig) (desk : Desk G) (gate : G)
    (journal : Journal.JournalWriter) (pub : Option Publisher) (digest : List Event) (seq : UInt64)
    (nextOwner : OwnerId) (first : OrderId) (is : List Input) (fd : Fd) :
    let s₀ := start gate journal pub digest seq nextOwner first
    let s := run cfg desk s₀ is
    let t := Traffic.run cfg desk fd s₀ {} is
    ∀ c, s.sessions.conns fd = some c →
      t.sent ++ c.pending = outBytes t.added ∧
      (∃ rest, Wire.reports.Parses t.sent
        ((t.added.take (t.sent.length / kReportSize)).map fun item => item.report.wire) rest ∧
        rest.length < kReportSize) ∧
      (∃ seen rest, messages.Parses t.received seen rest ∧ commandsOf seen = t.decoded ∧
        rest <:+ c.inp ∧
        (s.pc.offset? fd = none → ¬ s.dead → rest = c.inp ∧ Wire.decode rest = .incomplete)) ∧
      ends t.added <+: t.decoded.map endOf ∧
      (s.pc.between = true → ¬ s.dead → ends t.added = t.decoded.map endOf) := by
  intro s₀ s t c hc
  have h : Accounts s fd c t := by
    refine Accounts.run desk s₀ fd {} is (fun hfailed => Bool.noConfusion hfailed)
      (fun c hc => ?_) c hc
    cases hc
  refine ⟨h.sent, ?_, ?_, ?_, ?_⟩
  · exact parses_of_prefix ⟨c.pending, h.sent⟩
  · obtain ⟨seen, off, -, hparse, hcommands, -, hidle⟩ := h.read
    refine ⟨seen, c.inp.drop off, hparse, hcommands, List.drop_suffix off c.inp,
      fun hnone halive => ?_⟩
    obtain ⟨rfl, hstuck⟩ := hidle hnone halive
    exact ⟨rfl, hstuck⟩
  · obtain ⟨lost, heq, -⟩ := h.answered
    exact ⟨s.pc.due fd ++ lost, by rw [← List.append_assoc, heq]⟩
  · intro hbetween halive
    obtain ⟨lost, heq, hlost⟩ := h.answered
    have hnil : lost = [] := by
      by_contra hne
      exact halive (hlost hne).1
    rw [(Pc.away hbetween fd).2, hnil, List.append_nil, List.append_nil] at heq
    exact heq

/-- Session 3 enters an order and gets ten bytes of its response. -/
theorem sessions_byte_exact_cut :
    (Traffic.run {} desk 3 (start smallGate .create none [] 0 1 1) {} fullSocket).sent.length = 10 ∧
    ∃ c, (run {} desk (start smallGate .create none [] 0 1 1) fullSocket).sessions.conns 3 =
    some c ∧
      (Traffic.run {} desk 3 (start smallGate .create none [] 0 1 1) {} fullSocket).sent ++
      c.pending =
        outBytes (Traffic.run {} desk 3 (start smallGate .create none [] 0 1 1) {}
          fullSocket).added := by
  refine ⟨by decide +kernel, ?_⟩
  have hopen :
      ((run {} desk (start smallGate .create none [] 0 1 1) fullSocket).sessions.conns 3).isSome =
      true := by
    decide +kernel
  obtain ⟨c, hc⟩ := Option.isSome_iff_exists.mp hopen
  exact ⟨c, hc, (sessions_byte_exact {} desk smallGate .create none [] 0 1 1 fullSocket 3 c hc).1⟩

end ExchangeSim.Gateway
