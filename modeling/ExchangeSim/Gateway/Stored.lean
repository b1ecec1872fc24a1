/- digest: What the loop does to the journal: a command is appended, or bytes only go from the
   buffer to the file. -/

import ExchangeSim.Gateway.Commit
import ExchangeSim.Gateway.Core

set_option autoImplicit false
set_option relaxedAutoImplicit false

namespace ExchangeSim.Gateway

open ExchangeSim.Stream (Publisher Sent Datagram)

variable {G : Type} {cfg : GatewayConfig} {s s' s'' : State G}

/-- All bytes of the journal, flushed or not. -/
def State.stored (s : State G) : Lib.Bytes := s.repl.journal.file ++ s.repl.journal.buffer

structure Stores (s s' : State G) : Prop where
  stored : s'.stored = s.stored
  file : s.repl.journal.file <+: s'.repl.journal.file
  failed : s.repl.journalFailed = true → s'.repl.journalFailed = true
  appended : (record s'.log).appended = (record s.log).appended
  covered : (record s'.log).covered = (record s.log).covered ∨
    s.repl.journalFailed = false ∧ (record s'.log).covered = (record s.log).appended ∧
    s.stored <+: s'.repl.journal.file

theorem Stores.trans (h : Stores s s') (h' : Stores s' s'') : Stores s s'' where
  stored := h'.stored.trans h.stored
  file := h.file.trans h'.file
  failed hf := h'.failed (h.failed hf)
  appended := h'.appended.trans h.appended
  covered := by
    rcases h'.covered with hsame | ⟨hok, hcov, hfile⟩
    · rcases h.covered with hsame₀ | ⟨hok₀, hcov₀, hfile₀⟩
      · exact .inl (hsame.trans hsame₀)
      · exact .inr ⟨hok₀, hsame.trans hcov₀, hfile₀.trans h'.file⟩
    · refine .inr ⟨?_, hcov.trans h.appended, by rwa [h.stored] at hfile⟩
      cases hf : s.repl.journalFailed with
      | false => rfl
      | true =>
          rw [h.failed hf] at hok
          cases hok

/-- An action that neither appends nor flushes. -/
def Action.files : Action → Bool
  | .append _ | .flush => true
  | _ => false

theorem record_unfiled (log : List Action) {acts : List Action} (h : ∀ a ∈ acts, a.files = false) :
    (record (log ++ acts)).covered = (record log).covered ∧
    (record (log ++ acts)).pending = (record log).pending := by
  rw [record_append]
  generalize record log = r
  induction acts generalizing r with
  | nil => exact ⟨rfl, rfl⟩
  | cons a acts ih =>
      have hone : (r.step a).covered = r.covered ∧ (r.step a).pending = r.pending := by
        have ha := h a List.mem_cons_self
        cases a <;> first | exact ⟨rfl, rfl⟩ | cases ha
      obtain ⟨hcov, hpend⟩ := ih (fun b hb => h b (List.mem_cons_of_mem a hb)) (r.step a)
      exact ⟨hcov.trans hone.1, hpend.trans hone.2⟩

structure Unfiled (s s' : State G) : Prop where
  journal : s'.repl.journal = s.repl.journal
  failed : s'.repl.journalFailed = s.repl.journalFailed
  log : ∃ acts, s'.log = s.log ++ acts ∧ ∀ a ∈ acts, a.files = false

theorem Unfiled.refl (s : State G) : Unfiled s s :=
  ⟨rfl, rfl, [], (List.append_nil _).symm, by simp⟩

theorem Unfiled.trans (h : Unfiled s s') (h' : Unfiled s' s'') : Unfiled s s'' := by
  obtain ⟨acts, hlog, hacts⟩ := h.log
  obtain ⟨acts', hlog', hacts'⟩ := h'.log
  refine ⟨h'.journal.trans h.journal, h'.failed.trans h.failed,
    acts ++ acts', by rw [hlog', hlog, List.append_assoc], ?_⟩
  intro a ha
  rcases List.mem_append.mp ha with ha | ha
  · exact hacts a ha
  · exact hacts' a ha

theorem Unfiled.stores (h : Unfiled s s') : Stores s s' := by
  obtain ⟨acts, hlog, hacts⟩ := h.log
  obtain ⟨hcov, hpend⟩ := record_unfiled s.log hacts
  rw [← hlog] at hcov hpend
  refine ⟨by rw [State.stored, State.stored, h.journal], by rw [h.journal],
    fun hf => h.failed.trans hf, ?_, .inl hcov⟩
  rw [Record.appended, Record.appended, hcov, hpend]

theorem Stores.refl (s : State G) : Stores s s := (Unfiled.refl s).stores

theorem Unfiled.at (h : Unfiled s s') (pc : Pc) : Unfiled s (s'.at pc) :=
  ⟨h.journal, h.failed, h.log⟩

theorem Stores.at (h : Stores s s') (pc : Pc) : Stores s (s'.at pc) :=
  ⟨h.stored, h.file, h.failed, h.appended, h.covered⟩

theorem unfiled_emit {a : Action} (ha : a.files = false)
    (hjournal : s'.repl.journal = s.repl.journal)
    (hfailed : s'.repl.journalFailed = s.repl.journalFailed) (hlog : s'.log = s.log ++ [a]) :
    Unfiled s s' := by
  refine ⟨hjournal, hfailed, [a], hlog, fun b hb => ?_⟩
  rw [List.mem_singleton.mp hb]
  exact ha

theorem unfiled_silent (hjournal : s'.repl.journal = s.repl.journal)
    (hfailed : s'.repl.journalFailed = s.repl.journalFailed) (hlog : s'.log = s.log) :
    Unfiled s s' := ⟨hjournal, hfailed, [], by rw [hlog, List.append_nil], by simp⟩

/-! ### The parts of the loop -/

theorem unfiled_accept (s : State G) (fds : List Fd) : Unfiled s (accept s fds) := by
  induction fds generalizing s with
  | nil => exact .refl s
  | cons fd fds ih =>
      rw [accept]
      refine Unfiled.trans ?_ (ih _)
      exact unfiled_emit (a := .accept fd s.sessions.nextOwner) rfl rfl rfl rfl

theorem unfiled_closeConn (s : State G) (fd : Fd) : Unfiled s (closeConn s fd) :=
  unfiled_emit (a := .close fd) rfl rfl rfl rfl

theorem unfiled_tryWrite (s : State G) (fd : Fd) (answers : List SendResult) :
    Unfiled s (tryWrite s fd answers) := by
  rw [tryWrite]
  cases s.sessions.conns fd with
  | none => exact .refl s
  | some c =>
      have hsend :
          Unfiled s (s.emit ((sendLoop c answers).2.map fun items =>
            .send fd items s.repl.acked s.repl.replicaLost)) := by
        refine ⟨rfl, rfl, _, rfl, fun a ha => ?_⟩
        obtain ⟨items, -, rfl⟩ := List.mem_map.mp ha
        rfl
      simp only
      cases (sendLoop c answers).1 with
      | none => exact hsend.trans (unfiled_closeConn _ fd)
      | some c' => exact hsend.trans (unfiled_silent rfl rfl rfl)

theorem unfiled_writeTouched (s : State G) (fds : List Fd) (answers : List (List SendResult)) :
    Unfiled s (writeTouched s fds answers) := by
  induction fds generalizing s answers with
  | nil => exact .refl s
  | cons fd fds ih => exact (unfiled_tryWrite s fd _).trans (ih _ _)

theorem unfiled_haltWith (s : State G) (why : Halt) : Unfiled s (haltWith s why) :=
  unfiled_emit (a := .halt why) rfl rfl rfl rfl

theorem unfiled_publisherCall (s : State G) (f : Publisher → Publisher × List Sent) :
    Unfiled s (publisherCall s f) := by
  rw [publisherCall]
  cases s.repl.pub with
  | none => exact .refl s
  | some p =>
      refine ⟨rfl, rfl, _, rfl, fun a ha => ?_⟩
      obtain ⟨x, -, rfl⟩ := List.mem_map.mp ha
      rfl

theorem unfiled_fenceCheck (s : State G) : Unfiled s (fenceCheck s) := by
  rcases fenceCheck_cases s with he | ⟨-, he⟩
  · rw [he]
    exact .refl s
  · rw [he]
    exact unfiled_haltWith s .fenced

theorem unfiled_serviceAndCheck (s : State G) (group : List Datagram)
    (control : List (Nat × Datagram)) :
    Unfiled s (serviceAndCheck s group control) :=
  (unfiled_publisherCall s _).trans (unfiled_fenceCheck _)

theorem unfiled_onReady (s : State G) (fd : Fd) (w r : Bool) (rest : List Ready) (i : Input) :
    Unfiled s (onReady s fd w r rest i) := by
  rw [onReady]
  split
  · exact (Unfiled.refl s).at _
  have hw : Unfiled s (if w = true then tryWrite s fd i.sends else s) := by
    split
    · exact unfiled_tryWrite s fd i.sends
    · exact .refl s
  generalize (if w = true then tryWrite s fd i.sends else s) = s₁ at hw
  refine hw.trans ?_
  simp only
  cases s₁.sessions.conns fd with
  | none => exact (Unfiled.refl s₁).at _
  | some c =>
      simp only
      split
      · exact (Unfiled.refl s₁).at _
      · cases i.received with
        | closed => exact (unfiled_closeConn s₁ fd).at _
        | again => exact (Unfiled.refl s₁).at _
        | data p => exact unfiled_silent rfl rfl rfl

theorem stores_journalFlush (s : State G) (failed : Option Nat) :
    Stores s (journalFlush s failed).1 := by
  simp only [journalFlush]
  split
  · exact .refl s
  · rename_i hok
    cases failed with
    | none =>
        have hrec : record (s.log ++ [.flush]) =
            { record s.log with
              covered := (record s.log).covered ++ (record s.log).pending, pending := [] } :=
                record_snoc s.log _
        refine ⟨List.append_nil _, List.prefix_append _ _, fun hf => hf, ?_,
          .inr ⟨Bool.eq_false_iff.mpr hok, ?_, ?_⟩⟩
        · change (record (s.log ++ [.flush])).appended = _
          rw [hrec, Record.appended, List.append_nil]
          rfl
        · exact congrArg Record.covered hrec
        · exact List.prefix_rfl
    | some k =>
        have hrec : record (s.log ++ [.halt .journalError]) = record s.log := record_snoc s.log _
        refine ⟨?_, List.prefix_append _ _, fun _ => rfl, congrArg Record.appended hrec,
          .inl (congrArg Record.covered hrec)⟩
        change s.repl.journal.file ++ s.repl.journal.buffer.take k ++
          s.repl.journal.buffer.drop k = _
        rw [List.append_assoc, List.take_append_drop]
        rfl

theorem stores_journalSync (s : State G) (failed : Option Nat) (fsync : Bool) :
    Stores s (journalSync s failed fsync).1 := by
  have hflush := stores_journalFlush s failed
  simp only [journalSync]
  split
  · refine hflush.trans ?_
    have hrec :=
      record_haltWith { (journalFlush s failed).1 with repl.journalFailed := true } .journalError
    exact ⟨rfl, List.prefix_rfl, fun _ => rfl, congrArg Record.appended hrec,
      .inl (congrArg Record.covered hrec)⟩
  · exact hflush

theorem stores_commit (s : State G) (i : Input) : Stores s (commit cfg s i) := by
  have hflush := stores_journalFlush s i.flush
  simp only [commit]
  split
  · generalize (journalFlush s i.flush).1 = s₁ at hflush
    split
    · cases s₁.repl.pub with
      | none => exact hflush.at _
      | some p =>
          have hcall :
              Unfiled s₁ (if p.fenced = true then s₁ else publisherCall s₁ fun p =>
                p.flush i.flushNow) := by
            split
            · exact .refl s₁
            · exact unfiled_publisherCall s₁ _
          simp only
          generalize (if p.fenced = true then s₁ else publisherCall s₁ fun p =>
            p.flush i.flushNow) = s₂ at hcall
          split
          · exact (hflush.trans hcall.stores).at _
          · exact (hflush.trans hcall.stores).at _
    · exact hflush.at _
  · exact (Stores.refl s).at _

theorem unfiled_waitPass (s : State G) (since : UInt64) (i : Input) :
    Unfiled s (waitPass cfg s since i) := by
  rw [waitPass]
  split
  · exact (Unfiled.refl s).at _
  have hservice := unfiled_publisherCall s fun p => p.service i.group i.control
  generalize (publisherCall s fun p => p.service i.group i.control) = s₁ at hservice
  simp only
  split
  · exact hservice.at _
  have hfence := hservice.trans (unfiled_fenceCheck s₁)
  split
  · exact hfence.at _
  split
  · exact hfence.at _
  · exact (hfence.trans (unfiled_publisherCall _ _)).at _

theorem unfiled_expire (s : State G) (i : Input) : Unfiled s (expire cfg s i) := by
  have hservice := unfiled_serviceAndCheck s i.group i.control
  rw [expire]
  generalize serviceAndCheck s i.group i.control = s₁ at hservice
  simp only
  split
  · exact hservice.at _
  split
  · exact (hservice.trans (unfiled_haltWith s₁ .replicaLost)).at _
  · have hlost : Unfiled s₁ (State.emit { s₁ with repl.replicaLost := true } [.replicaLost]) :=
      unfiled_emit (a := .replicaLost) rfl rfl rfl rfl
    exact (hservice.trans hlost).at _

theorem unfiled_publishMd (cfg : GatewayConfig) (desk : Desk G) (s : State G) :
    Unfiled s (publishMd cfg desk s) := by
  rw [publishMd]
  split
  · exact unfiled_emit rfl rfl rfl rfl
  · exact .refl s

theorem unfiled_release (desk : Desk G) (s : State G) (i : Input) :
    Unfiled s (release cfg desk s i) := by
  rw [release]
  split
  · exact unfiled_emit (a := .closeAll) rfl rfl rfl rfl
  · have hcommit : Unfiled s (State.emit { s with released := s.core.seq } [.commit]) :=
      unfiled_emit (a := .commit) rfl rfl rfl rfl
    have hmd := hcommit.trans (unfiled_publishMd cfg desk _)
    have hbeat := hmd.trans (unfiled_publisherCall _ fun p => p.heartbeatIfIdle i.now 20000000)
    exact (hbeat.trans (unfiled_writeTouched _ _ _)).at _

theorem stores_shutdown (s : State G) (i : Input) : Stores s (shutdown s i) :=
  ((stores_journalSync s i.flush i.fsync).trans (unfiled_publisherCall _ _).stores).at _

theorem stores_handle (cfg : GatewayConfig) (desk : Desk G) (s : State G) (fd : Fd) (off : Nat)
    (clientSeq : UInt64) (clientId : OrderId) (c : Command) (rest : List Ready) (i : Input) :
    Stores s (handle cfg desk s fd off clientSeq clientId c rest i) := by
  simp only [handle]
  split
  · exact (Stores.refl s).at _
  · rename_i pub _
    cases desk.process s.core.gate c with
    | none =>
        have hpub : Unfiled s (State.at { s with repl.pub := pub } .crashed) :=
          unfiled_silent rfl rfl rfl
        exact hpub.stores
    | some r =>
        obtain ⟨g, events⟩ := r
        have hdeliver :
            Unfiled s (deliver cfg desk { s with repl.pub := pub } fd clientSeq
              clientId c g events) :=
          unfiled_emit (a := .process fd c events) rfl rfl rfl rfl
        simp only
        generalize deliver cfg desk { s with repl.pub := pub } fd clientSeq clientId c g
          events = s₁ at hdeliver
        have hsince : Unfiled s { s₁ with repl.sinceSync := (syncDue cfg s₁.repl.sinceSync).2 } :=
          hdeliver.trans (unfiled_silent rfl rfl rfl)
        split
        · split
          · exact (hsince.stores.trans (stores_journalSync _ _ _)).at _
          · exact (hsince.stores.trans (stores_journalSync _ _ _)).at _
        · exact hsince.stores.at _

theorem step_stores (cfg : GatewayConfig) (desk : Desk G) (s : State G) (i : Input) :
    Stores s (step cfg desk s i) ∨
    ∃ fd off rest c cmd n, s.pc = .reading fd off rest ∧ s.sessions.conns fd = some c ∧
      Wire.next c.inp off = .command cmd n ∧ step cfg desk s i = stamp cfg s fd c.owner
        (off + n) cmd rest i := by
  rw [step]
  cases hpc : s.pc with
  | poll =>
      left
      simp only
      split
      · exact (Stores.refl s).at _
      · refine Unfiled.stores ?_
        exact unfiled_emit (a := .poll) rfl rfl rfl rfl
  | batch ready =>
      left
      cases ready with
      | nil => exact stores_commit s i
      | cons r rest =>
          cases r with
          | listener => exact ((unfiled_accept s i.accepted).at _).stores
          | control => exact ((unfiled_serviceAndCheck s i.group i.control).at _).stores
          | conn fd w r => exact (unfiled_onReady s fd w r rest i).stores
  | reading fd off rest =>
      simp only [read]
      cases hc : s.sessions.conns fd with
      | none => exact .inl ((Stores.refl s).at _)
      | some c =>
          simp only
          cases hnext : Wire.next c.inp off with
          | wait =>
              refine .inl (Unfiled.stores ?_)
              exact unfiled_silent rfl rfl rfl
          | lost => exact .inl ((unfiled_closeConn s fd).at _).stores
          | skip n => exact .inl ((Stores.refl s).at _)
          | command cmd n => exact .inr ⟨fd, off, rest, c, cmd, n, rfl, hc, hnext, rfl⟩
  | logged fd off clientSeq clientId c rest =>
      exact .inl (stores_handle cfg desk s fd off clientSeq clientId c rest i)
  | waiting since => exact .inl (unfiled_waitPass s since i).stores
  | expiring => exact .inl (unfiled_expire s i).stores
  | release => exact .inl (unfiled_release desk s i).stores
  | shutdown => exact .inl (stores_shutdown s i)
  | stopped => exact .inl (.refl s)
  | crashed => exact .inl (.refl s)

end ExchangeSim.Gateway
