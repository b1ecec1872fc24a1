/- digest: What a step of the loop does to the sequencer: nothing, a command stamped, a command
   handled, or a batch published; and who sits at each connection after what the log tells. -/

import ExchangeSim.Gateway.Gateway
import ExchangeSim.Lib.Trace

set_option autoImplicit false
set_option relaxedAutoImplicit false

namespace ExchangeSim.Gateway

open ExchangeSim.Stream (Publisher Sent Datagram)

variable {G : Type} {cfg : GatewayConfig} {s s' s'' : State G}

/-- An action that says what became of a command. -/
def Action.told : Action → Bool
  | .append _ | .process .. | .marketData .. => true
  | _ => false

/-! ### Sessions -/

structure Seats where
  owner : Fd → Option OwnerId
  fd : OwnerId → Option Fd
  next : OwnerId

def State.seats (s : State G) : Seats where
  owner fd := (s.sessions.conns fd).map Conn.owner
  fd := s.sessions.ownerFd
  next := s.sessions.nextOwner

def Seats.step (t : Seats) : Action → Seats
  | .accept fd _ =>
      ⟨if (t.owner fd).isSome then t.owner else Function.update t.owner fd (some t.next),
        Function.update t.fd t.next (some fd), t.next + 1⟩
  | .close fd =>
      match t.owner fd with
      | none => t
      | some o => { t with
          owner := Function.update t.owner fd none, fd := Function.update t.fd o none }
  | .closeAll => { t with owner := fun _ => none, fd := fun _ => none }
  | _ => t

/-- The seats after these actions. -/
def Seats.after (t : Seats) (acts : List Action) : Seats := acts.foldl Seats.step t

theorem Seats.after_append (t : Seats) (acts acts' : List Action) :
    t.after (acts ++ acts') = (t.after acts).after acts' :=
  List.foldl_append

/-- Somebody comes or leaves. -/
def Action.seating : Action → Bool
  | .accept .. | .close _ | .closeAll => true
  | _ => false

theorem Seats.after_unseating (t : Seats) {acts : List Action} (h : ∀ a ∈ acts, a.seating = false) :
    t.after acts = t := by
  induction acts with
  | nil => rfl
  | cons a acts ih =>
      have ha : t.step a = t := by
        have hseating := h a List.mem_cons_self
        cases a <;> first | rfl | cases hseating
      rw [Seats.after, List.foldl_cons, ha]
      exact ih fun b hb => h b (List.mem_cons_of_mem a hb)

/-- The log and the sessions go on together. -/
def Logs (s s' : State G) (acts : List Action) : Prop :=
  s'.log = s.log ++ acts ∧ s'.seats = s.seats.after acts

theorem Logs.trans {acts acts' : List Action} (h : Logs s s' acts) (h' : Logs s' s'' acts') :
    Logs s s'' (acts ++ acts') :=
  ⟨by rw [h'.1, h.1, List.append_assoc], by rw [h'.2, h.2, Seats.after_append]⟩

theorem seats_eq (howner : ∀ fd,
    (s'.sessions.conns fd).map Conn.owner = (s.sessions.conns fd).map Conn.owner)
      (hfd : s'.sessions.ownerFd = s.sessions.ownerFd)
        (hnext : s'.sessions.nextOwner = s.sessions.nextOwner) :
    s'.seats = s.seats := by
  rw [State.seats, State.seats, hfd, hnext]
  congr 1
  ext1 fd
  exact howner fd

theorem update_owner {conns : Fd → Option Conn} {fd : Fd} {c c' : Conn} (hc : conns fd = some c)
    (h : c'.owner = c.owner) (f : Fd) :
    (Function.update conns fd (some c') f).map Conn.owner = (conns f).map Conn.owner := by
  by_cases hf : f = fd
  · subst hf
    rw [Function.update_self, hc, Option.map_some, Option.map_some, h]
  · rw [Function.update_of_ne hf]

/-! ### Steps that touch no command -/

structure Idle (s s' : State G) : Prop where
  core : s'.core = s.core
  md : s'.batch.md = s.batch.md
  failed : s.repl.journalFailed = true → s'.repl.journalFailed = true
  log : ∃ acts, Logs s s' acts ∧ ∀ a ∈ acts, a.told = false

/-- Only sessions, replication and the rest of the batch change, and these actions are recorded. -/
theorem idle_of_acts (acts : List Action) (hacts : ∀ a ∈ acts, a.told = false)
    (hcore : s'.core = s.core) (hmd : s'.batch.md = s.batch.md)
    (hfailed : s.repl.journalFailed = true → s'.repl.journalFailed = true)
    (hlog : s'.log = s.log ++ acts) (hseats : s'.seats = s.seats.after acts) : Idle s s' :=
  ⟨hcore, hmd, hfailed, acts, ⟨hlog, hseats⟩, hacts⟩

theorem idle_silent (hcore : s'.core = s.core) (hmd : s'.batch.md = s.batch.md)
    (hfailed : s.repl.journalFailed = true → s'.repl.journalFailed = true) (hlog : s'.log = s.log)
    (hseats : s'.seats = s.seats) : Idle s s' :=
  idle_of_acts [] (by simp) hcore hmd hfailed (by rw [hlog, List.append_nil]) hseats

theorem Idle.refl (s : State G) : Idle s s := idle_silent rfl rfl id rfl rfl

theorem Idle.trans (h : Idle s s') (h' : Idle s' s'') : Idle s s'' := by
  obtain ⟨acts, hlog, hacts⟩ := h.log
  obtain ⟨acts', hlog', hacts'⟩ := h'.log
  refine ⟨h'.core.trans h.core, h'.md.trans h.md, fun hf => h'.failed (h.failed hf), acts ++ acts',
    hlog.trans hlog', ?_⟩
  intro a ha
  rcases List.mem_append.mp ha with ha | ha
  · exact hacts a ha
  · exact hacts' a ha

theorem Idle.at (h : Idle s s') (pc : Pc) : Idle s (s'.at pc) := ⟨h.core, h.md, h.failed, h.log⟩

theorem idle_accept (s : State G) (fds : List Fd) : Idle s (accept s fds) := by
  induction fds generalizing s with
  | nil => exact .refl s
  | cons fd fds ih =>
      rw [accept]
      refine Idle.trans ?_ (ih _)
      refine idle_of_acts [.accept fd s.sessions.nextOwner]
        (by simp [Action.told]) rfl rfl id rfl ?_
      simp only [State.emit, State.seats, Seats.after, List.foldl_cons, List.foldl_nil, Seats.step,
        Option.isSome_map]
      congr 1
      ext1 f
      split
      · rfl
      · by_cases hf : f = fd
        · subst hf
          simp
        · simp [Function.update_of_ne hf]

theorem idle_closeConn (s : State G) (fd : Fd) : Idle s (closeConn s fd) := by
  refine idle_of_acts [.close fd] (by simp [Action.told]) rfl rfl id rfl ?_
  simp only [closeConn, State.emit, State.seats, Seats.after, List.foldl_cons,
    List.foldl_nil, Seats.step]
  cases s.sessions.conns fd with
  | none => rfl
  | some c =>
      simp only [Option.map_some]
      congr 1
      ext1 f
      by_cases hf : f = fd
      · subst hf
        simp
      · simp [Function.update_of_ne hf]

theorem sendLoop_owner (c : Conn) (answers : List SendResult) : ∀ c' ∈ (sendLoop c answers).1,
    c'.owner = c.owner := by
  induction answers generalizing c with
  | nil =>
      rw [sendLoop]
      split <;> simp
  | cons r rs ih =>
      rw [sendLoop.eq_def]
      simp only
      split
      · cases r with
        | sent n =>
            cases n with
            | zero => simp
            | succ n => exact ih { c with
                outOff := c.outOff + min (n + 1) (c.out.length * kReportSize - c.outOff) }
        | again => simp
        | error => simp
      · simp

theorem settle_owner (c : Conn) : (settle c).owner = c.owner := by
  simp only [settle]
  split <;> rfl

theorem idle_tryWrite (s : State G) (fd : Fd) (answers : List SendResult) :
    Idle s (tryWrite s fd answers) := by
  rw [tryWrite]
  cases hc : s.sessions.conns fd with
  | none => exact .refl s
  | some c =>
      have hsend :
          Idle s (s.emit ((sendLoop c answers).2.map fun items =>
            .send fd items s.repl.acked s.repl.replicaLost)) := by
        refine idle_of_acts _ ?_ rfl rfl id rfl (Seats.after_unseating _ ?_).symm
        · intro a ha
          obtain ⟨items, -, rfl⟩ := List.mem_map.mp ha
          rfl
        · intro a ha
          obtain ⟨items, -, rfl⟩ := List.mem_map.mp ha
          rfl
      have howner := sendLoop_owner c answers
      simp only
      cases hloop : (sendLoop c answers).1 with
      | none => exact hsend.trans (idle_closeConn _ fd)
      | some c' =>
          have hsame : (settle c').owner = c.owner := (settle_owner c').trans (howner c' hloop)
          exact hsend.trans (idle_silent rfl rfl id rfl (seats_eq (update_owner hc hsame) rfl rfl))

theorem idle_writeTouched (s : State G) (fds : List Fd) (answers : List (List SendResult)) :
    Idle s (writeTouched s fds answers) := by
  induction fds generalizing s answers with
  | nil => exact .refl s
  | cons fd fds ih => exact (idle_tryWrite s fd _).trans (ih _ _)

theorem idle_haltWith (s : State G) (why : Halt) : Idle s (haltWith s why) :=
  idle_of_acts [.halt why] (by simp [Action.told]) rfl rfl id rfl rfl

theorem idle_journalFlush (s : State G) (failed : Option Nat) :
    Idle s (journalFlush s failed).1 := by
  simp only [journalFlush]
  split
  · exact .refl s
  · cases failed with
    | none => exact idle_of_acts [.flush] (by simp [Action.told]) rfl rfl id rfl rfl
    | some k =>
        exact idle_of_acts [.halt .journalError] (by simp [Action.told]) rfl rfl (fun _ => rfl) rfl
          rfl

theorem idle_journalSync (s : State G) (failed : Option Nat) (fsync : Bool) :
    Idle s (journalSync s failed fsync).1 := by
  have hflush := idle_journalFlush s failed
  simp only [journalSync]
  split
  · exact hflush.trans (idle_of_acts [.halt .journalError] (by simp [Action.told]) rfl rfl
      (fun _ => rfl) rfl rfl)
  · exact hflush

theorem idle_publisherCall (s : State G) (f : Publisher → Publisher × List Sent) :
    Idle s (publisherCall s f) := by
  rw [publisherCall]
  cases s.repl.pub with
  | none => exact .refl s
  | some p =>
      refine idle_of_acts ((f p).2.map .datagram) ?_ rfl rfl id rfl
        (Seats.after_unseating _ ?_).symm
      · intro a ha
        obtain ⟨x, -, rfl⟩ := List.mem_map.mp ha
        rfl
      · intro a ha
        obtain ⟨x, -, rfl⟩ := List.mem_map.mp ha
        rfl

theorem idle_fenceCheck (s : State G) : Idle s (fenceCheck s) := by
  rw [fenceCheck]
  cases s.repl.pub with
  | none => exact .refl s
  | some p =>
      simp only
      split
      · exact idle_haltWith s .fenced
      · exact .refl s

theorem idle_onReady (s : State G) (fd : Fd) (w r : Bool) (rest : List Ready) (i : Input) :
    Idle s (onReady s fd w r rest i) := by
  rw [onReady]
  split
  · exact (Idle.refl s).at _
  have hw : Idle s (if w = true then tryWrite s fd i.sends else s) := by
    split
    · exact idle_tryWrite s fd i.sends
    · exact .refl s
  generalize (if w = true then tryWrite s fd i.sends else s) = s₁ at hw
  refine hw.trans ?_
  simp only
  cases hc : s₁.sessions.conns fd with
  | none => exact (Idle.refl s₁).at _
  | some c =>
      simp only
      split
      · exact (Idle.refl s₁).at _
      · cases i.received with
        | closed => exact (idle_closeConn s₁ fd).at _
        | again => exact (Idle.refl s₁).at _
        | data p =>
            have hsame : Conn.owner { c with inp := c.inp ++ p } = c.owner := rfl
            exact idle_silent rfl rfl id rfl (seats_eq (update_owner hc hsame) rfl rfl)

theorem idle_commit (s : State G) (i : Input) : Idle s (commit cfg s i) := by
  have hflush := idle_journalFlush s i.flush
  simp only [commit]
  split
  · generalize (journalFlush s i.flush).1 = s₁ at hflush
    split
    · cases s₁.repl.pub with
      | none => exact hflush.at _
      | some p =>
          have hcall :
              Idle s₁ (if p.fenced = true then s₁ else publisherCall s₁ fun p =>
                p.flush i.flushNow) := by
            split
            · exact .refl s₁
            · exact idle_publisherCall s₁ _
          simp only
          generalize (if p.fenced = true then s₁ else publisherCall s₁ fun p =>
            p.flush i.flushNow) = s₂ at hcall
          split
          · exact (hflush.trans hcall).at _
          · exact (hflush.trans hcall).at _
    · exact hflush.at _
  · exact (Idle.refl s).at _

theorem idle_waitPass (s : State G) (since : UInt64) (i : Input) :
    Idle s (waitPass cfg s since i) := by
  rw [waitPass]
  split
  · exact (Idle.refl s).at _
  have hservice := idle_publisherCall s fun p => p.service i.group i.control
  generalize (publisherCall s fun p => p.service i.group i.control) = s₁ at hservice
  simp only
  split
  · exact hservice.at _
  have hfence := hservice.trans (idle_fenceCheck s₁)
  split
  · exact hfence.at _
  split
  · exact hfence.at _
  · exact (hfence.trans (idle_publisherCall _ _)).at _

theorem idle_expire (s : State G) (i : Input) : Idle s (expire cfg s i) := by
  have hservice : Idle s (serviceAndCheck s i.group i.control) :=
    (idle_publisherCall s _).trans (idle_fenceCheck _)
  rw [expire]
  generalize serviceAndCheck s i.group i.control = s₁ at hservice
  simp only
  split
  · exact hservice.at _
  split
  · exact (hservice.trans (idle_haltWith s₁ .replicaLost)).at _
  · have hlost : Idle s₁ (State.emit { s₁ with repl.replicaLost := true } [.replicaLost]) :=
      idle_of_acts [.replicaLost] (by simp [Action.told]) rfl rfl id rfl rfl
    exact (hservice.trans hlost).at _

theorem idle_shutdown (s : State G) (i : Input) : Idle s (shutdown s i) :=
  ((idle_journalSync s i.flush i.fsync).trans (idle_publisherCall _ _)).at _

structure Publication (cfg : GatewayConfig) (desk : Desk G) (s s' : State G) : Prop where
  on : cfg.marketData = true
  core : s'.core = s.core
  md : s'.batch.md = {}
  failed : s.repl.journalFailed = true → s'.repl.journalFailed = true
  log : ∃ before after,
    Logs s s' (before ++ .marketData s.batch.md.trades (published desk s.batch.md s.core.gate) ::
      after) ∧
    (∀ a ∈ before, a.told = false) ∧ ∀ a ∈ after, a.told = false

private theorem idle_after_commit (s : State G) (i : Input) :
    Idle s ((writeTouched (publisherCall s fun p => p.heartbeatIfIdle i.now 20000000)
      (publisherCall s fun p => p.heartbeatIfIdle i.now 20000000).batch.touched i.writes).at
          .poll) :=
  ((idle_publisherCall s _).trans (idle_writeTouched _ _ _)).at _

theorem release_publishes (desk : Desk G) (i : Input) (hgo : s.repl.halted = none)
    (hmd : cfg.marketData = true) (hany : s.batch.journaledAny = true) :
    Publication cfg desk s (release cfg desk s i) := by
  have hpub : publishMd cfg desk (State.emit { s with released := s.core.seq } [.commit]) =
      State.emit { State.emit { s with released := s.core.seq } [.commit] with batch.md := {} }
        [.marketData s.batch.md.trades (published desk s.batch.md s.core.gate)] :=
          if_pos ⟨hmd, hany⟩
  rw [release, if_neg (not_not.mpr hgo)]
  dsimp only
  rw [hpub]
  have hlast :=
    idle_after_commit (State.emit { State.emit { s with released := s.core.seq } [.commit] with
      batch.md := {} }
    [.marketData s.batch.md.trades (published desk s.batch.md s.core.gate)]) i
  obtain ⟨acts, hlog, hacts⟩ := hlast.log
  have hfirst :
    Logs s (State.emit { State.emit { s with released := s.core.seq } [.commit] with
      batch.md := {} }
      [.marketData s.batch.md.trades (published desk s.batch.md s.core.gate)])
      [.commit, .marketData s.batch.md.trades (published desk s.batch.md s.core.gate)] :=
        ⟨by simp [State.emit], rfl⟩
  exact ⟨hmd, hlast.core, hlast.md, hlast.failed, [.commit], acts,
    hfirst.trans hlog, by simp [Action.told], hacts⟩

theorem release_cases (desk : Desk G) (s : State G) (i : Input) :
    Idle s (release cfg desk s i) ∨ Publication cfg desk s (release cfg desk s i) := by
  by_cases hgo : s.repl.halted = none
  · by_cases hmd : cfg.marketData = true ∧ s.batch.journaledAny = true
    · exact .inr (release_publishes desk i hgo hmd.1 hmd.2)
    · left
      have hpub : publishMd cfg desk (State.emit { s with released := s.core.seq } [.commit]) =
          State.emit { s with released := s.core.seq } [.commit] := if_neg hmd
      rw [release, if_neg (not_not.mpr hgo)]
      dsimp only
      rw [hpub]
      refine Idle.trans ?_ (idle_after_commit _ i)
      exact idle_of_acts [.commit] (by simp [Action.told]) rfl rfl id rfl rfl
  · rw [release, if_pos hgo]
    exact .inl (idle_of_acts [.closeAll] (by simp [Action.told]) rfl rfl id rfl rfl)

theorem handle_cases (desk : Desk G) (s : State G) (fd : Fd) (off : Nat) (clientSeq : UInt64)
    (clientId : OrderId) (c : Command) (rest : List Ready) (i : Input) :
    ((handle cfg desk s fd off clientSeq clientId c rest i).pc = .crashed ∧
      Idle s (handle cfg desk s fd off clientSeq clientId c rest i)) ∨
    ∃ pub g events, desk.process s.core.gate c = some (g, events) ∧
      Idle (deliver cfg desk { s with repl.pub := pub } fd clientSeq clientId c g events)
        (handle cfg desk s fd off clientSeq clientId c rest i) := by
  simp only [handle]
  split
  · exact .inl ⟨rfl, (Idle.refl s).at _⟩
  · rename_i pub _
    cases hrun : desk.process s.core.gate c with
    | none => exact .inl ⟨rfl, idle_silent rfl rfl id rfl rfl⟩
    | some r =>
        obtain ⟨g, events⟩ := r
        refine .inr ⟨pub, g, events, rfl, ?_⟩
        simp only
        generalize deliver cfg desk { s with repl.pub := pub } fd clientSeq clientId c g events = s₁
        have hsince : Idle s₁ { s₁ with repl.sinceSync := (syncDue cfg s₁.repl.sinceSync).2 } :=
          idle_silent rfl rfl id rfl rfl
        split
        · split
          · exact (hsince.trans (idle_journalSync _ _ _)).at _
          · exact (hsince.trans (idle_journalSync _ _ _)).at _
        · exact hsince.at _

theorem step_cases (desk : Desk G) (s : State G) (i : Input) :
    Idle s (step cfg desk s i) ∨
    (∃ fd off rest c cmd n, s.pc = .reading fd off rest ∧ s.sessions.conns fd = some c ∧
      Wire.next c.inp off = .command cmd n ∧ step cfg desk s i = stamp cfg s fd c.owner
        (off + n) cmd rest i) ∨
    (∃ fd off clientSeq clientId c rest, s.pc = .logged fd off clientSeq clientId c rest ∧
      step cfg desk s i = handle cfg desk s fd off clientSeq clientId c rest i) ∨
    (s.pc = .release ∧ Publication cfg desk s (step cfg desk s i)) := by
  rw [step]
  cases hpc : s.pc with
  | poll =>
      simp only
      split
      · exact .inl ((Idle.refl s).at _)
      · exact .inl (idle_of_acts [.poll] (by simp [Action.told]) rfl rfl id rfl rfl)
  | batch ready =>
      cases ready with
      | nil => exact .inl (idle_commit s i)
      | cons r rest =>
          cases r with
          | listener => exact .inl ((idle_accept s i.accepted).at _)
          | control => exact .inl (((idle_publisherCall s _).trans (idle_fenceCheck _)).at _)
          | conn fd w r => exact .inl (idle_onReady s fd w r rest i)
  | reading fd off rest =>
      simp only [read]
      cases hc : s.sessions.conns fd with
      | none => exact .inl ((Idle.refl s).at _)
      | some c =>
          simp only
          cases hnext : Wire.next c.inp off with
          | wait =>
              have hsame : Conn.owner { c with inp := c.inp.drop off } = c.owner := rfl
              exact .inl (idle_silent rfl rfl id rfl (seats_eq (update_owner hc hsame) rfl rfl))
          | lost => exact .inl ((idle_closeConn s fd).at _)
          | skip n => exact .inl ((Idle.refl s).at _)
          | command cmd n => exact .inr (.inl ⟨fd, off, rest, c, cmd, n, rfl, hc, hnext, rfl⟩)
  | logged fd off clientSeq clientId c rest =>
      exact .inr (.inr (.inl ⟨fd, off, clientSeq, clientId, c, rest, rfl, rfl⟩))
  | waiting since => exact .inl (idle_waitPass s since i)
  | expiring => exact .inl (idle_expire s i)
  | release => exact (release_cases desk s i).imp_right fun h => .inr (.inr ⟨rfl, h⟩)
  | shutdown => exact .inl (idle_shutdown s i)
  | stopped => exact .inl (.refl s)
  | crashed => exact .inl (.refl s)

/-! ### The command at hand -/

/-- The command that goes to the engine next. -/
def Pc.command? : Pc → Option Command
  | .logged _ _ _ _ c _ => some c
  | _ => none

theorem handle_command (desk : Desk G) (s : State G) (fd : Fd) (off : Nat) (clientSeq : UInt64)
    (clientId : OrderId) (c : Command) (rest : List Ready) (i : Input) :
    (handle cfg desk s fd off clientSeq clientId c rest i).pc.command? = none := by
  simp only [handle]
  split
  · rfl
  · cases desk.process s.core.gate c with
    | none => rfl
    | some r =>
        simp only
        split
        · split <;> rfl
        · rfl

theorem step_command (desk : Desk G) (s : State G) (i : Input) :
    (step cfg desk s i).pc.command? = none ∨
    ∃ fd off rest c cmd n, s.pc = .reading fd off rest ∧ s.sessions.conns fd = some c ∧
      Wire.next c.inp off = .command cmd n ∧ step cfg desk s i = stamp cfg s fd c.owner
        (off + n) cmd rest i := by
  rw [step]
  cases hpc : s.pc with
  | poll =>
      left
      simp only
      split <;> rfl
  | batch ready =>
      left
      cases ready with
      | nil =>
          simp only [commit]
          split
          · split
            · split
              · rfl
              · split <;> split <;> rfl
            · rfl
          · rfl
      | cons r rest =>
          cases r with
          | listener => rfl
          | control => rfl
          | conn fd w r =>
              simp only [onReady]
              split
              · rfl
              split
              · rfl
              split
              · rfl
              cases i.received <;> rfl
  | reading fd off rest =>
      simp only [read]
      cases hc : s.sessions.conns fd with
      | none => exact .inl rfl
      | some c =>
          simp only
          cases hnext : Wire.next c.inp off with
          | wait => exact .inl rfl
          | lost => exact .inl rfl
          | skip n => exact .inl rfl
          | command cmd n => exact .inr ⟨fd, off, rest, c, cmd, n, rfl, hc, hnext, rfl⟩
  | logged fd off clientSeq clientId c rest =>
      exact .inl (handle_command desk s fd off clientSeq clientId c rest i)
  | waiting since =>
      left
      simp only [waitPass]
      split
      · rfl
      split
      · rfl
      split
      · rfl
      split <;> rfl
  | expiring =>
      left
      simp only [expire]
      split
      · rfl
      split <;> rfl
  | release =>
      left
      simp only [release]
      split <;> rfl
  | shutdown => exact .inl rfl
  | stopped => exact .inl (by rw [hpc]; rfl)
  | crashed => exact .inl (by rw [hpc]; rfl)

/-! ### What every step leaves in the log -/

theorem appendReport_owner (conns : Fd → Option Conn) (fd : Fd) (item : Item) (f : Fd) :
    (appendReport conns fd item f).map Conn.owner = (conns f).map Conn.owner := by
  rw [appendReport]
  cases hc : conns fd with
  | none => rfl
  | some c =>
      have hsame : Conn.owner { c with out := c.out ++ [item] } = c.owner := rfl
      exact update_owner hc hsame f

theorem foldl_onEvent_owner (k : Sink) (events : List Event) (w : Written) (f : Fd) :
    ((events.foldl k.onEvent w).conns f).map Conn.owner = (w.conns f).map Conn.owner := by
  induction events generalizing w with
  | nil => rfl
  | cons e events ih =>
      rw [List.foldl_cons, ih]
      simp only [Sink.onEvent]
      split
      · exact appendReport_owner _ _ _ f
      · split
        · exact appendReport_owner _ _ _ f
        · exact (appendReport_owner _ _ _ f).trans (appendReport_owner _ _ _ f)

variable (cfg)

theorem deliver_logs (desk : Desk G) (s : State G) (fd : Fd) (clientSeq : UInt64)
    (clientId : OrderId) (c : Command) (g : G) (events : List Event) :
    Logs s (deliver cfg desk s fd clientSeq clientId c g events) [.process fd c events] := by
  refine ⟨rfl, ?_⟩
  change _ = s.seats
  refine seats_eq (fun f => ?_) rfl rfl
  exact (appendReport_owner _ _ _ f).trans (foldl_onEvent_owner _ events _ f)

/-- What `stamp` does to a state: the id and the number are taken, and the command is appended to
the journal, or the journal fails. -/
theorem stamp_cases (s : State G) (fd : Fd) (owner : OwnerId) (off : Nat) (c : Command)
    (rest : List Ready) (i : Input) :
    let t := if cfg.trustClientIds then (s.core.ids, c.orderId)
      else if c.type = .newOrder then s.core.ids.forNew ⟨c.orderId, c.symbol, owner⟩
      else (s.core.ids, s.core.ids.find ⟨c.orderId, c.symbol, owner⟩)
    let cmd := { c with orderId := t.2, seq := s.core.seq + 1, owner := owner, ts := i.now }
    let s' := stamp cfg s fd owner off c rest i
    s'.core = { s.core with ids := t.1, seq := s.core.seq + 1 } ∧
      ((s'.repl.journalFailed = true ∧ s'.pc.command? = none ∧
          ∃ acts, Logs s s' acts ∧ ∀ a ∈ acts, a.told = false) ∨
        (s.repl.journalFailed = false ∧ s'.pc = .logged fd off c.seq c.orderId cmd rest ∧
          Logs s s' [.append cmd] ∧
          s'.repl = { s.repl with journal := s.repl.journal.append cmd })) := by
  intro t cmd s'
  simp only [s', stamp]
  split
  · rename_i hf
    exact ⟨rfl, .inl ⟨hf, rfl, [], ⟨(List.append_nil _).symm, rfl⟩, by simp⟩⟩
  · rename_i hf
    cases i.append with
    | none => exact ⟨rfl, .inr ⟨Bool.eq_false_iff.mpr hf, rfl, ⟨rfl, rfl⟩, rfl⟩⟩
    | some k => exact ⟨rfl, .inl ⟨rfl, rfl, [.halt .journalError], ⟨rfl, rfl⟩, by
        simp [Action.told]⟩⟩

theorem handle_logs (desk : Desk G) (s : State G) (fd : Fd) (off : Nat) (clientSeq : UInt64)
    (clientId : OrderId) (c : Command) (rest : List Ready) (i : Input) :
    ∃ acts, Logs s (handle cfg desk s fd off clientSeq clientId c rest i) acts := by
  rcases (handle_cases desk s fd off clientSeq clientId c rest i :
      (handle cfg desk s fd off clientSeq clientId c rest i).pc = .crashed ∧ _ ∨ _) with
    ⟨-, hidle⟩ | ⟨pub, g, events, hrun, hidle⟩
  · obtain ⟨acts, hlogs, -⟩ := hidle.log
    exact ⟨acts, hlogs⟩
  · obtain ⟨acts, hlogs, -⟩ := hidle.log
    have hdeliver :
      Logs s (deliver cfg desk { s with repl.pub := pub } fd clientSeq clientId c g events)
        [.process fd c events] :=
          deliver_logs cfg desk { s with repl.pub := pub } fd clientSeq clientId c g events
    exact ⟨_, hdeliver.trans hlogs⟩

theorem step_logs (desk : Desk G) (s : State G) (i : Input) :
    ∃ acts, Logs s (step cfg desk s i) acts := by
  rcases (step_cases desk s i : Idle s (step cfg desk s i) ∨ _) with hidle |
    ⟨fd, off, rest, c, cmd, n, -, -, -, heq⟩ |
    ⟨fd, off, clientSeq, clientId, c, rest, -, heq⟩ | ⟨-, hpub⟩
  · obtain ⟨acts, hlogs, -⟩ := hidle.log
    exact ⟨acts, hlogs⟩
  · rw [heq]
    rcases (stamp_cases cfg s fd c.owner (off + n) cmd rest i).2 with ⟨-, -, acts, hlogs, -⟩ |
      ⟨-, -, hlogs, -⟩
    · exact ⟨acts, hlogs⟩
    · exact ⟨_, hlogs⟩
  · rw [heq]
    exact handle_logs cfg desk s fd off clientSeq clientId c rest i
  · obtain ⟨before, after, hlogs, -⟩ := hpub.log
    exact ⟨_, hlogs⟩

end ExchangeSim.Gateway
