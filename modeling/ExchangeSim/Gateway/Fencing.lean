/- digest: A primary that has read a newer epoch sends, journals and processes nothing more. -/

import ExchangeSim.Gateway.Commit

set_option autoImplicit false
set_option relaxedAutoImplicit false

namespace ExchangeSim.Stream.Publisher

theorem onGroup_epoch (p : Publisher) (d : Datagram) : (p.onGroup d).epoch = p.epoch := by
  rw [onGroup]
  split <;> rfl

theorem onGroup_fenced {p : Publisher} (h : p.fenced = true) (d : Datagram) :
    (p.onGroup d).fenced = true := by
  rw [onGroup]
  split
  · rename_i hnew
    have : d.header.epoch ≠ 0 := fun h0 => UInt32.not_lt_zero (h0 ▸ hnew.2.1)
    simpa [fenced] using this
  · exact h

theorem groupLoop_fenced {p : Publisher} (h : p.fenced = true) (ds : List Datagram) :
    (ds.foldl onGroup p).fenced = true := by
  induction ds generalizing p with
  | nil => exact h
  | cons d ds ih => exact ih (onGroup_fenced h d)

theorem groupLoop_fences (p : Publisher) {ds : List Datagram} {d : Datagram} (hd : d ∈ ds)
    (hmagic : d.header.magic = kMagic) (hnew : p.epoch < d.header.epoch) :
    (ds.foldl onGroup p).fenced = true := by
  induction ds generalizing p with
  | nil => cases hd
  | cons x ds ih =>
      rw [List.foldl_cons]
      rcases List.mem_cons.mp hd with rfl | hd
      · refine groupLoop_fenced ?_ ds
        rw [onGroup]
        have hne : d.header.epoch ≠ 0 := fun h0 => UInt32.not_lt_zero (h0 ▸ hnew)
        split
        · simpa [fenced] using hne
        · rename_i hold
          have hle : ¬ p.fencedBy < d.header.epoch := fun hlt => hold ⟨hmagic, hnew, hlt⟩
          have : p.fencedBy ≠ 0 := fun h0 => hle (h0 ▸ UInt32.pos_iff_ne_zero.mpr hne)
          simpa [fenced] using this
      · exact ih (p.onGroup x) hd (by rw [onGroup_epoch]; exact hnew)

theorem groupLoop_acked (p : Publisher) (ds : List Datagram) :
    (ds.foldl onGroup p).acked = p.acked := by
  induction ds generalizing p with
  | nil => rfl
  | cons d ds ih => rw [List.foldl_cons, ih, onGroup_acked]

theorem controlLoop_fenced {p : Publisher} (h : p.fenced = true) (ds : List (Nat × Datagram)) :
    p.controlLoop ds = (p, []) := by
  induction ds with
  | nil => rfl
  | cons x ds ih =>
      have hone : p.onControl x.1 x.2 = (p, []) := by simp [onControl, h]
      simp [controlLoop, hone, ih]

theorem service_fenced {p : Publisher} {group : List Datagram}
    (h : (group.foldl onGroup p).fenced = true) (control : List (Nat × Datagram)) :
    (p.service group control).2 = [] ∧ (p.service group control).1.acked = p.acked ∧
      (p.service group control).1.fenced = true := by
  rw [service, controlLoop_fenced h]
  exact ⟨rfl, groupLoop_acked p group, h⟩

end ExchangeSim.Stream.Publisher

namespace ExchangeSim.Gateway

open ExchangeSim.Stream (Publisher Datagram Sent kMagic)

variable {G : Type} {s s' s'' : State G}

/-- The step calls the publisher's `service`: for an event of its sockets, in a pass of the wait for
the replica, or for the last look before the replica is given up. -/
def services (s : State G) : Bool :=
  match s.pc with
  | .batch (.control :: _) => true
  | .waiting _ => ¬ s.core.seq ≤ s.repl.acked
  | .expiring => true
  | _ => false

/-- In this step `service` reads from the group a datagram whose epoch is above the publisher's
own. -/
def Fences (s : State G) (i : Input) : Prop :=
  services s = true ∧ ∃ p, s.repl.pub = some p ∧ ∃ d ∈ i.group, d.header.magic = kMagic ∧
    p.epoch < d.header.epoch

/-- An action by which no client, replica or subscriber hears of the gateway, and no command is
taken up. -/
def Action.hushed : Action → Bool
  | .poll | .accept .. | .close _ | .closeAll | .flush | .halt _ => true
  | .append _ | .process .. | .commit | .datagram _ | .send .. | .replicaLost | .marketData .. =>
      false

structure Hush (s s' : State G) : Prop where
  acked : s'.repl.acked = s.repl.acked
  log : ∃ acts, s'.log = s.log ++ acts ∧ ∀ a ∈ acts, a.hushed = true

theorem Hush.refl (s : State G) : Hush s s := ⟨rfl, [], by simp, by simp⟩

theorem Hush.trans (h : Hush s s') (h' : Hush s' s'') : Hush s s'' := by
  obtain ⟨acts, hlog, hacts⟩ := h.log
  obtain ⟨acts', hlog', hacts'⟩ := h'.log
  refine ⟨h'.acked.trans h.acked,
    acts ++ acts', by rw [hlog', hlog, List.append_assoc], fun a ha => ?_⟩
  rcases List.mem_append.mp ha with ha | ha
  · exact hacts a ha
  · exact hacts' a ha

theorem Hush.of_acts (hpub : s'.repl.pub = s.repl.pub) (acts : List Action)
    (hlog : s'.log = s.log ++ acts) (hacts : ∀ a ∈ acts, a.hushed = true) : Hush s s' :=
  ⟨by rw [Replication.acked, hpub, Replication.acked], acts, hlog, hacts⟩

structure Fenced (s : State G) : Prop where
  pub : ∃ p, s.repl.pub = some p ∧ p.fenced = true
  halted : s.repl.halted ≠ none

/-- The places from which a halted gateway only goes on to its end: the rest of the batch, the
closing of the sessions, the shutdown. -/
def Pc.leaving : Pc → Bool
  | .batch _ | .release | .shutdown | .stopped => true
  | _ => false

structure Silenced (s : State G) : Prop extends Fenced s where
  leaving : s.pc.leaving = true

theorem Fenced.keep (h : Fenced s) (hpub : s'.repl.pub = s.repl.pub)
    (hhalted : s'.repl.halted ≠ none) : Fenced s' :=
  ⟨by rw [hpub]; exact h.pub, hhalted⟩

theorem publisherCall_hush {p : Publisher} (hp : s.repl.pub = some p)
    {f : Publisher → Publisher × List Sent} (hsent : (f p).2 = [])
    (hacked : (f p).1.acked = p.acked) :
    Hush s (publisherCall s f) ∧ (publisherCall s f).repl.pub = some (f p).1 ∧
      (publisherCall s f).repl.halted = s.repl.halted := by
  have hcall : publisherCall s f = { s with repl.pub := some (f p).1 } := by
    simp [publisherCall, hp, hsent, State.emit]
  rw [hcall]
  refine ⟨⟨?_, [], by simp, by simp⟩, rfl, rfl⟩
  simp [Replication.acked, hp, hacked]

theorem fenceCheck_hush {p : Publisher} (hp : s.repl.pub = some p) (hfenced : p.fenced = true) :
    Hush s (fenceCheck s) ∧ (fenceCheck s).repl.pub = some p ∧
    (fenceCheck s).repl.halted ≠ none := by
  simp only [fenceCheck, hp, hfenced, true_and]
  split
  · exact ⟨.of_acts rfl [.halt .fenced] rfl (by simp [Action.hushed]), hp, by
      simp [haltWith, State.emit]⟩
  · rename_i hhalted
    exact ⟨.refl s, hp, hhalted⟩

theorem serviceAndCheck_hush {p : Publisher} (hp : s.repl.pub = some p) {group : List Datagram}
    (hfenced : (group.foldl Publisher.onGroup p).fenced = true) (control : List (Nat × Datagram)) :
    Hush s (serviceAndCheck s group control) ∧ Fenced (serviceAndCheck s group control) := by
  obtain ⟨hsent, hacked, hfen⟩ := Publisher.service_fenced hfenced control
  obtain ⟨hhush, hpub, _⟩ :=
    publisherCall_hush hp (f := fun p => p.service group control) hsent hacked
  obtain ⟨hhush', hpub', hhalted⟩ := fenceCheck_hush hpub hfen
  exact ⟨hhush.trans hhush', ⟨_, hpub', hfen⟩, hhalted⟩

theorem journalFlush_hush (h : Fenced s) (failed : Option Nat) :
    Hush s (journalFlush s failed).1 ∧ Fenced (journalFlush s failed).1 := by
  simp only [journalFlush]
  split
  · exact ⟨.refl s, h⟩
  · cases failed with
    | none => exact ⟨.of_acts rfl [.flush] rfl (by simp [Action.hushed]), h.keep rfl h.halted⟩
    | some k =>
        exact ⟨.of_acts rfl [.halt .journalError] rfl (by simp [Action.hushed]),
          h.keep rfl (by simp [haltWith, State.emit])⟩

theorem journalSync_hush (h : Fenced s) (failed : Option Nat) (fsync : Bool) :
    Hush s (journalSync s failed fsync).1 ∧ Fenced (journalSync s failed fsync).1 := by
  obtain ⟨hhush, hfen⟩ := journalFlush_hush h failed
  simp only [journalSync]
  split
  · refine ⟨hhush.trans (.of_acts rfl [.halt .journalError] rfl (by simp [Action.hushed])),
      hfen.keep rfl ?_⟩
    simp [haltWith, State.emit]
  · exact ⟨hhush, hfen⟩

theorem accept_hush (h : Fenced s) (fds : List Fd) : Hush s (accept s fds) ∧
    Fenced (accept s fds) := by
  induction fds generalizing s with
  | nil => exact ⟨.refl s, h⟩
  | cons fd fds ih =>
      rw [accept]
      have hone : ∀ n :
          Sessions, Hush s (State.emit { s with sessions := n }
            [.accept fd s.sessions.nextOwner]) :=
        fun n => .of_acts rfl [.accept fd s.sessions.nextOwner] rfl (by simp [Action.hushed])
      have hkeep : ∀ n :
          Sessions, Fenced (State.emit { s with sessions := n }
            [.accept fd s.sessions.nextOwner]) :=
        fun n => h.keep rfl h.halted
      obtain ⟨hhush, hfen⟩ := ih (hkeep ⟨if (s.sessions.conns fd).isSome then s.sessions.conns
        else Function.update s.sessions.conns fd (some { owner := s.sessions.nextOwner }),
        Function.update s.sessions.ownerFd s.sessions.nextOwner (some fd),
        s.sessions.nextOwner + 1⟩)
      exact ⟨(hone _).trans hhush, hfen⟩

theorem Fenced.at (h : Fenced s) (pc : Pc) : Fenced (s.at pc) := h.keep rfl h.halted

theorem Hush.at (h : Hush s s') (pc : Pc) : Hush s (s'.at pc) := ⟨h.acked, h.log⟩

section Steps

variable (cfg : GatewayConfig) (desk : Desk G)

/-- The end of a fenced batch: the journal is flushed, nothing goes to the replicas and nothing is
waited for. -/
theorem commit_hush (h : Fenced s) (i : Input) :
    Hush s (commit cfg s i) ∧ Fenced (commit cfg s i) ∧ (commit cfg s i).pc = .release := by
  obtain ⟨hhush, hfen⟩ := journalFlush_hush h i.flush
  simp only [commit]
  split
  · split
    · obtain ⟨p, hp, hpf⟩ := hfen.pub
      have hno : ¬ (cfg.waitReplica = true ∧ ¬ (journalFlush s i.flush).1.repl.replicaLost = true ∧
          (journalFlush s i.flush).1.repl.halted = none) := fun hw => hfen.halted hw.2.2
      simp only [hp, hpf, if_true, if_neg hno]
      exact ⟨hhush.at _, hfen.at _, rfl⟩
    · exact ⟨hhush.at _, hfen.at _, rfl⟩
  · exact ⟨(Hush.refl s).at _, h.at _, rfl⟩

theorem shutdown_hush (h : Fenced s) (i : Input) :
    Hush s (shutdown s i) ∧ Fenced (shutdown s i) ∧ (shutdown s i).pc = .stopped := by
  obtain ⟨hhush, hfen⟩ := journalSync_hush h i.flush i.fsync
  obtain ⟨p, hp, hpf⟩ := hfen.pub
  have hend : p.finish i.now = (p, []) := by simp [Publisher.finish, hpf]
  obtain ⟨hcall, hpub, hhalted⟩ := publisherCall_hush hp (f := fun p => p.finish i.now)
    (by rw [hend]) (by rw [hend])
  rw [hend] at hpub
  refine ⟨(hhush.trans hcall).at _, Fenced.at ⟨⟨p, hpub, hpf⟩, ?_⟩ _, rfl⟩
  rw [hhalted]
  exact hfen.halted

theorem Silenced.step (h : Silenced s) (i : Input) :
    Silenced (step cfg desk s i) ∧ Hush s (step cfg desk s i) := by
  have hfen := h.toFenced
  have hpc := h.leaving
  rw [Gateway.step]
  cases hs : s.pc with
  | batch rest =>
      cases rest with
      | nil =>
          obtain ⟨hhush, hfen', hpc'⟩ := commit_hush cfg hfen i
          exact ⟨⟨hfen', by rw [hpc']; rfl⟩, hhush⟩
      | cons r rest =>
          cases r with
          | listener =>
              obtain ⟨hhush, hfen'⟩ := accept_hush hfen i.accepted
              exact ⟨⟨hfen'.at _, rfl⟩, hhush.at _⟩
          | control =>
              obtain ⟨p, hp, hpf⟩ := hfen.pub
              obtain ⟨hhush, hfen'⟩ :=
                serviceAndCheck_hush hp (Publisher.groupLoop_fenced hpf i.group) i.control
              exact ⟨⟨hfen'.at _, rfl⟩, hhush.at _⟩
          | conn fd w r =>
              have hskip : onReady s fd w r rest i = s.at (.batch rest) := by
                rw [onReady, if_pos hfen.halted]
              simp only [hskip]
              exact ⟨⟨hfen.at _, rfl⟩, (Hush.refl s).at _⟩
  | release =>
      simp only [release, if_pos hfen.halted]
      exact ⟨⟨hfen.keep rfl hfen.halted, rfl⟩,
        .of_acts rfl [.closeAll] rfl (by simp [Action.hushed])⟩
  | shutdown =>
      obtain ⟨hhush, hfen', hpc'⟩ := shutdown_hush hfen i
      exact ⟨⟨hfen', by rw [hpc']; rfl⟩, hhush⟩
  | stopped => exact ⟨h, .refl s⟩
  | poll => rw [hs] at hpc; cases hpc
  | reading fd off rest => rw [hs] at hpc; cases hpc
  | logged fd off clientSeq clientId c rest => rw [hs] at hpc; cases hpc
  | waiting since => rw [hs] at hpc; cases hpc
  | expiring => rw [hs] at hpc; cases hpc
  | crashed => rw [hs] at hpc; cases hpc

theorem Silenced.run (h : Silenced s) (is : List Input) : Hush s (run cfg desk s is) := by
  induction is generalizing s with
  | nil => exact .refl s
  | cons i is ih =>
      obtain ⟨h', hhush⟩ := h.step cfg desk i
      exact hhush.trans (ih h')

/-- The step that reads the newer epoch is silent and silences the gateway, wherever the loop is. -/
theorem Fences.step {i : Input} (h : Fences s i) : Silenced (step cfg desk s i) ∧
    Hush s (step cfg desk s i) := by
  obtain ⟨hserve, p, hp, d, hd, hmagic, hnew⟩ := h
  have hgroup := Publisher.groupLoop_fences p hd hmagic hnew
  obtain ⟨hhush, hfen⟩ := serviceAndCheck_hush hp hgroup i.control
  rw [Gateway.step]
  rw [services] at hserve
  cases hpc : s.pc with
  | batch rest =>
      rw [hpc] at hserve
      cases rest with
      | nil => cases hserve
      | cons r rest =>
          cases r with
          | control => exact ⟨⟨hfen.at _, rfl⟩, hhush.at _⟩
          | listener => cases hserve
          | conn fd w r => cases hserve
  | waiting since =>
      -- the acknowledgement cannot have come with the same call, so the wait ends at the fence
      -- check
      have hwait : ¬ s.core.seq ≤ s.repl.acked := by
        rw [hpc] at hserve
        exact of_decide_eq_true hserve
      obtain ⟨hsent, hacked, hpf⟩ := Publisher.service_fenced hgroup i.control
      obtain ⟨hcall, _, _⟩ :=
        publisherCall_hush hp (f := fun p => p.service i.group i.control) hsent hacked
      have hstill : ¬ (publisherCall s fun p => p.service i.group i.control).core.seq ≤
          (publisherCall s fun p => p.service i.group i.control).repl.acked := by
        rw [publisherCall_core, hcall.acked]
        exact hwait
      have hhalted :
          (fenceCheck (publisherCall s fun p => p.service i.group i.control)).repl.halted ≠ none :=
        hfen.halted
      simp only [waitPass, if_neg hwait, if_neg hstill, if_pos hhalted]
      exact ⟨⟨hfen.at _, rfl⟩, hhush.at _⟩
  | expiring =>
      simp only [expire]
      rw [if_pos hfen.halted]
      exact ⟨⟨hfen.at _, rfl⟩, hhush.at _⟩
  | poll => rw [hpc] at hserve; cases hserve
  | reading fd off rest => rw [hpc] at hserve; cases hserve
  | logged fd off clientSeq clientId c rest => rw [hpc] at hserve; cases hserve
  | release => rw [hpc] at hserve; cases hserve
  | shutdown => rw [hpc] at hserve; cases hserve
  | stopped => rw [hpc] at hserve; cases hserve
  | crashed => rw [hpc] at hserve; cases hserve

end Steps

/-- Once `service` has read a datagram of a newer epoch, in the main loop, while waiting for the
replica or before giving it up, no report, no datagram and no market data is sent, no command is
journaled or processed, and `acked` stands. -/
theorem fenced_primary_silent (cfg : GatewayConfig) (desk : Desk G) (gate : G)
    (journal : Journal.JournalWriter) (pub : Publisher) (digest : List Event) (seq : UInt64)
    (nextOwner : OwnerId) (firstExchangeId : OrderId) (before : List Input) (i : Input)
    (after : List Input) :
    let s := run cfg desk (start gate journal (some pub) digest seq nextOwner firstExchangeId)
      before
    let s' := run cfg desk (start gate journal (some pub) digest seq nextOwner firstExchangeId)
      (before ++ i :: after)
    Fences s i → s'.repl.acked = s.repl.acked ∧ ∃ acts, s'.log = s.log ++ acts ∧
        ∀ a ∈ acts, a.hushed = true := by
  intro s s' hfences
  obtain ⟨hsilenced, hhush⟩ := hfences.step cfg desk
  have hrest := hsilenced.run cfg desk after
  have hs' : s' = run cfg desk (step cfg desk s i) after := by
    simp only [s', s, run, List.foldl_append, List.foldl_cons]
  rw [hs']
  exact ⟨(hhush.trans hrest).acked, (hhush.trans hrest).log⟩

/-- A session enters an order, and the gateway waits for its replica. -/
def untilWait : List Input :=
  [{ ready := [.listener] }, { accepted := [3] }, idle, idle, { ready := [.conn 3 false true] },
    { received := .data (Wire.encode (smallOrder 7 .sell 2)) }, idle, idle, idle, idle]

/-- The acknowledgement waits on the control socket, and a heartbeat of a newer epoch on the
group. -/
def newerEpoch : Input :=
  { group := [⟨Stream.header .heartbeat 2 1 0, []⟩]
    control := [(9, ⟨Stream.header .ack 1 1 0, []⟩)] }

def waitedPublisher : Publisher := .make 2 (fun _ => false) 1 1

theorem fenced_primary_silent_waiting :
    let s := run { waitReplica := true } Gateway.desk
      (start smallGate .create (some waitedPublisher) [] 0 1 1) untilWait
    let s' := run { waitReplica := true } Gateway.desk
      (start smallGate .create (some waitedPublisher) [] 0 1 1)
      (untilWait ++ newerEpoch :: [idle, idle])
    s.pc = .waiting 0 ∧ s'.pc = .stopped ∧ s'.repl.acked = s.repl.acked ∧
      ∃ acts, s'.log = s.log ++ acts ∧ ∀ a ∈ acts, a.hushed = true := by
  intro s s'
  have hpub : s.repl.pub.any (fun p => p.epoch < 2) = true := by decide +kernel
  have hserve : services s = true := by decide +kernel
  have hfences : Fences s newerEpoch := by
    cases hp : s.repl.pub with
    | none => rw [hp] at hpub; cases hpub
    | some p =>
        rw [hp] at hpub
        exact ⟨hserve, p, hp, _, List.mem_singleton.mpr rfl, rfl, of_decide_eq_true hpub⟩
  refine ⟨by decide +kernel, by decide +kernel, ?_⟩
  exact fenced_primary_silent { waitReplica := true } Gateway.desk smallGate .create waitedPublisher
    [] 0 1 1 untilWait
    newerEpoch [idle, idle] hfences

end ExchangeSim.Gateway
