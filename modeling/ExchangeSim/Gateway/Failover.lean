/- digest: A primary and its replica over a network that loses, repeats and reorders: what the
   primary has committed is in the journal of the replica that promotes itself. -/

import ExchangeSim.Gateway.Replica

set_option autoImplicit false
set_option relaxedAutoImplicit false

namespace ExchangeSim.Gateway

open Journal (JournalWriter)
open Book (OrderBook AosStore)
open Engine (RiskGate)
open ExchangeSim.Stream (Publisher Sent Datagram Within)
open Replica (nth Numbered Tells Tracks Genuine Follows Honest)

variable {G : Type} {cfg : GatewayConfig} {s s' : State G}

/-! ### What a step of the primary leaves alone -/

structure Steady (succeed : Prop) (s s' : State G) : Prop where
  log : s.log <+: s'.log
  failed : succeed → s'.repl.journalFailed = s.repl.journalFailed
  lost : s'.repl.replicaLost = s.repl.replicaLost

variable {succeed : Prop}

theorem Steady.refl (s : State G) : Steady succeed s s := ⟨List.prefix_refl _, fun _ => rfl, rfl⟩

theorem Steady.trans {s'' : State G} (h : Steady succeed s s') (h' : Steady succeed s' s'') :
    Steady succeed s s'' :=
  ⟨h.log.trans h'.log, fun ok => (h'.failed ok).trans (h.failed ok), h'.lost.trans h.lost⟩

theorem Steady.at (h : Steady succeed s s') (pc : Pc) : Steady succeed s (s'.at pc) :=
  ⟨h.log, h.failed, h.lost⟩

theorem steady_emit (s : State G) (acts : List Action) : Steady succeed s (s.emit acts) :=
  ⟨List.prefix_append _ _, fun _ => rfl, rfl⟩

theorem steady_accept (s : State G) (fds : List Fd) : Steady succeed s (accept s fds) := by
  induction fds generalizing s with
  | nil => exact .refl s
  | cons fd fds ih =>
      rw [accept]
      refine Steady.trans ?_ (ih _)
      exact ⟨List.prefix_append _ _, fun _ => rfl, rfl⟩

theorem steady_closeConn (s : State G) (fd : Fd) : Steady succeed s (closeConn s fd) :=
  ⟨List.prefix_append _ _, fun _ => rfl, rfl⟩

theorem steady_tryWrite (s : State G) (fd : Fd) (answers : List SendResult) :
    Steady succeed s (tryWrite s fd answers) := by
  rw [tryWrite]
  cases s.sessions.conns fd with
  | none => exact .refl s
  | some c =>
      simp only
      cases (sendLoop c answers).1 with
      | none => exact (steady_emit s _).trans (steady_closeConn _ fd)
      | some c' => exact ⟨List.prefix_append _ _, fun _ => rfl, rfl⟩

theorem steady_writeTouched (s : State G) (fds : List Fd) (answers : List (List SendResult)) :
    Steady succeed s (writeTouched s fds answers) := by
  induction fds generalizing s answers with
  | nil => exact .refl s
  | cons fd fds ih => exact (steady_tryWrite s fd _).trans (ih _ _)

theorem steady_haltWith (s : State G) (why : Halt) : Steady succeed s (haltWith s why) :=
  ⟨List.prefix_append _ _, fun _ => rfl, rfl⟩

theorem steady_journalFlush (s : State G) {failed : Option Nat} (hi : succeed → failed = none) :
    Steady succeed s (journalFlush s failed).1 := by
  simp only [journalFlush]
  split
  · exact .refl s
  · cases failed with
    | none => exact ⟨List.prefix_append _ _, fun _ => rfl, rfl⟩
    | some k =>
        exact ⟨List.prefix_append _ _, fun ok => absurd (hi ok) (Option.some_ne_none k), rfl⟩

theorem steady_journalSync (s : State G) {failed : Option Nat} {fsync : Bool}
    (hi : succeed → failed = none ∧ fsync = true) :
    Steady succeed s (journalSync s failed fsync).1 := by
  have h := steady_journalFlush s fun ok => (hi ok).1
  simp only [journalSync]
  split
  · rename_i hbad
    exact h.trans ⟨List.prefix_append _ _, fun ok => absurd (hi ok).2 hbad.2, rfl⟩
  · exact h

theorem steady_publisherCall (s : State G) (f : Publisher → Publisher × List Sent) :
    Steady succeed s (publisherCall s f) := by
  rw [publisherCall]
  cases s.repl.pub with
  | none => exact .refl s
  | some p => exact ⟨List.prefix_append _ _, fun _ => rfl, rfl⟩

theorem steady_fenceCheck (s : State G) : Steady succeed s (fenceCheck s) := by
  rcases fenceCheck_cases s with he | ⟨_, he⟩
  · rw [he]
    exact .refl s
  · rw [he]
    exact steady_haltWith s .fenced

theorem steady_onReady (s : State G) (fd : Fd) (w r : Bool) (rest : List Ready) (i : Input) :
    Steady succeed s (onReady s fd w r rest i) := by
  rw [onReady]
  split
  · exact (Steady.refl s).at _
  have hw : Steady succeed s (if w = true then tryWrite s fd i.sends else s) := by
    split
    · exact steady_tryWrite s fd i.sends
    · exact .refl s
  generalize (if w = true then tryWrite s fd i.sends else s) = s1 at hw
  refine hw.trans ?_
  simp only
  cases s1.sessions.conns fd with
  | none => exact (Steady.refl s1).at _
  | some c =>
      simp only
      split
      · exact (Steady.refl s1).at _
      · cases i.received with
        | closed => exact (steady_closeConn s1 fd).at _
        | again => exact (Steady.refl s1).at _
        | data p => exact ⟨List.prefix_refl _, fun _ => rfl, rfl⟩

theorem steady_read (s : State G) (fd : Fd) (off : Nat) (rest : List Ready) {i : Input}
    (hi : succeed → i.append = none) :
    Steady succeed s (read cfg s fd off rest i) := by
  rw [read]
  cases s.sessions.conns fd with
  | none => exact (Steady.refl s).at _
  | some c =>
      simp only
      cases Wire.next c.inp off with
      | wait => exact ⟨List.prefix_refl _, fun _ => rfl, rfl⟩
      | lost => exact (steady_closeConn s fd).at _
      | skip n => exact (Steady.refl s).at _
      | command cmd n =>
          simp only [stamp]
          split
          · exact ⟨List.prefix_refl _, fun _ => rfl, rfl⟩
          · cases happ : i.append with
            | none => exact ⟨List.prefix_append _ _, fun _ => rfl, rfl⟩
            | some k =>
                have hfails : i.append ≠ none := happ ▸ Option.some_ne_none k
                exact ⟨List.prefix_append _ _, fun ok => absurd (hi ok) hfails, rfl⟩

theorem steady_handle {desk : Desk G} (s : State G) (fd : Fd) (off : Nat) (clientSeq : UInt64)
    (clientId : OrderId) (c : Command) (rest : List Ready) {i : Input}
    (hi : succeed → i.flush = none ∧ i.fsync = true) :
    Steady succeed s (handle cfg desk s fd off clientSeq clientId c rest i) := by
  simp only [handle]
  split
  · exact (Steady.refl s).at _
  split
  · exact ⟨List.prefix_refl _, fun _ => rfl, rfl⟩
  rename_i pub _ _ g events _
  have hdone :
      Steady succeed s (deliver cfg desk { s with repl.pub := pub } fd clientSeq
        clientId c g events) :=
    ⟨List.prefix_append _ _, fun _ => rfl, rfl⟩
  generalize deliver cfg desk { s with repl.pub := pub } fd clientSeq clientId c g
    events = s2 at hdone
  have hsince : Steady succeed s { s2 with repl.sinceSync := (syncDue cfg s2.repl.sinceSync).2 } :=
    ⟨hdone.log, hdone.failed, hdone.lost⟩
  generalize ({ s2 with repl.sinceSync := (syncDue cfg s2.repl.sinceSync).2 } : State G) =
    s3 at hsince
  split
  · have hsync := hsince.trans (steady_journalSync s3 hi)
    split
    · exact hsync.at _
    · exact hsync.at _
  · exact hsince.at _

theorem steady_commit (s : State G) {i : Input} (hi : succeed → i.flush = none) :
    Steady succeed s (commit cfg s i) := by
  simp only [commit]
  split
  swap
  · exact (Steady.refl s).at _
  have h1 := steady_journalFlush s hi
  generalize journalFlush s i.flush = x at h1
  obtain ⟨s1, ok⟩ := x
  simp only at h1 ⊢
  split
  swap
  · exact h1.at _
  cases s1.repl.pub with
  | none => exact h1.at _
  | some p =>
      simp only
      have h2 : Steady succeed s (if p.fenced = true then s1 else publisherCall s1 fun p =>
        p.flush i.flushNow) := by
        split
        · exact h1
        · exact h1.trans (steady_publisherCall s1 _)
      generalize (if p.fenced = true then s1 else publisherCall s1 fun p => p.flush i.flushNow) =
        s2 at h2
      split
      · exact h2.at _
      · exact h2.at _

theorem steady_waitPass (s : State G) (since : UInt64) (i : Input) :
    Steady succeed s (waitPass cfg s since i) := by
  rw [waitPass]
  split
  · exact (Steady.refl s).at _
  have h1 : Steady succeed s (publisherCall s fun p => p.service i.group i.control) :=
    steady_publisherCall s _
  generalize (publisherCall s fun p => p.service i.group i.control) = s1 at h1
  simp only
  split
  · exact h1.at _
  have h2 := h1.trans (steady_fenceCheck s1)
  generalize fenceCheck s1 = s2 at h2
  split
  · exact h2.at _
  split
  · exact h2.at _
  · exact (h2.trans (steady_publisherCall s2 _)).at _

theorem steady_expire (s : State G) (hcfg : cfg.haltOnReplicaLoss = true) (i : Input) :
    Steady succeed s (expire cfg s i) := by
  have h1 : Steady succeed s (serviceAndCheck s i.group i.control) :=
    (steady_publisherCall s _).trans (steady_fenceCheck _)
  simp only [expire, hcfg, if_true]
  generalize serviceAndCheck s i.group i.control = s1 at h1
  split
  · exact h1.at _
  · exact (h1.trans (steady_haltWith s1 .replicaLost)).at _

theorem steady_release (desk : Desk G) (s : State G) (i : Input) :
    Steady succeed s (release cfg desk s i) := by
  rw [release]
  split
  · exact ⟨List.prefix_append _ _, fun _ => rfl, rfl⟩
  have h1 : Steady succeed s (State.emit { s with released := s.core.seq } [.commit]) :=
    ⟨List.prefix_append _ _, fun _ => rfl, rfl⟩
  generalize State.emit { s with released := s.core.seq } [.commit] = s1 at h1
  have h2 : Steady succeed s (publishMd cfg desk s1) := by
    refine h1.trans ?_
    rw [publishMd]
    split
    · exact ⟨List.prefix_append _ _, fun _ => rfl, rfl⟩
    · exact .refl s1
  simp only
  generalize publishMd cfg desk s1 = s2 at h2
  have h3 := h2.trans (steady_publisherCall s2 fun p => p.heartbeatIfIdle i.now 20000000)
  generalize (publisherCall s2 fun p => p.heartbeatIfIdle i.now 20000000) = s3 at h3
  exact (h3.trans (steady_writeTouched s3 _ i.writes)).at _

structure Unfailing (i : Input) : Prop where
  append : i.append = none
  flush : i.flush = none
  fsync : i.fsync = true

theorem steady_step (desk : Desk G) (s : State G) (hcfg : cfg.haltOnReplicaLoss = true) {i : Input}
    (hi : succeed → Unfailing i) :
    Steady succeed s (step cfg desk s i) := by
  rw [step]
  split
  · split
    · exact (Steady.refl s).at _
    · exact ⟨List.prefix_append _ _, fun _ => rfl, rfl⟩
  · exact steady_commit s fun ok => (hi ok).flush
  · exact (steady_accept s _).at _
  · exact ((steady_publisherCall s _).trans (steady_fenceCheck _)).at _
  · exact steady_onReady s _ _ _ _ i
  · exact steady_read s _ _ _ fun ok => (hi ok).append
  · exact steady_handle s _ _ _ _ _ _ fun ok => ⟨(hi ok).flush, (hi ok).fsync⟩
  · exact steady_waitPass s _ i
  · exact steady_expire s hcfg i
  · exact steady_release desk s i
  · rw [shutdown]
    exact ((steady_journalSync s fun ok => ⟨(hi ok).flush, (hi ok).fsync⟩).trans
      (steady_publisherCall _ _)).at _
  · exact .refl s
  · exact .refl s

/-! ### The primary's journal -/

/-- The commands of the primary's journal that have been flushed: those it started from and those a
successful flush covers. -/
def flushedJournal (initial : List Command) (s : State G) : List Command :=
  initial ++ (record s.log).covered

/-- The commands of the primary's journal that may have left. -/
def knownJournal (failing : Bool) (initial : List Command) (s : State G) : List Command :=
  initial ++ sendable failing s.log

theorem sendable_grows (failing : Bool) (log more : List Action) :
    sendable failing log <+: sendable failing (log ++ more) := by
  induction more generalizing log with
  | nil => rw [List.append_nil]
  | cons a more ih =>
      have hone : sendable failing log <+: sendable failing (log ++ [a]) := by
        rw [sendable, sendable, record_snoc]
        cases failing with
        | false =>
            cases a with
            | flush => exact List.prefix_append _ _
            | _ => exact List.prefix_refl _
        | true =>
            cases a with
            | append c =>
                rw [if_pos rfl, if_pos rfl, Record.appended, Record.appended, Record.step,
                  ← List.append_assoc]
                exact List.prefix_append _ _
            | flush =>
                rw [if_pos rfl, if_pos rfl, Record.appended, Record.appended, Record.step,
                  List.append_nil]
            | _ => exact List.prefix_refl _
      rw [List.append_cons]
      exact hone.trans (ih _)

theorem Steady.known {succeed : Prop} (h : Steady succeed s s') (failing : Bool)
    (initial : List Command) :
    knownJournal failing initial s <+: knownJournal failing initial s' := by
  obtain ⟨more, hmore⟩ := h.log
  rw [knownJournal, knownJournal, List.prefix_append_right_inj, ← hmore]
  exact sendable_grows failing s.log more

theorem known_appended (failing : Bool) (initial : List Command) (s : State G) :
    knownJournal failing initial s <+: initial ++ (record s.log).appended := by
  rw [knownJournal, List.prefix_append_right_inj]
  cases failing with
  | false => exact List.prefix_append _ _
  | true => exact List.prefix_refl _

theorem numbered_flushed {P : Prop} {base : UInt64} {initial : List Command} (h : Held cfg P base s)
    (hinit : Numbered initial) (hlen : initial.length = base.toNat) :
    Numbered (initial ++ (record s.log).appended) := by
  intro i c hc
  by_cases hi : i < initial.length
  · rw [List.getElem?_append_left hi] at hc
    exact hinit i c hc
  · rw [List.getElem?_append_right (by omega)] at hc
    have := h.sequenced.consecutive _ c hc
    omega

theorem Replica.Numbered.get {J : List Command} (h : Numbered J) {c : Command} (hc : c ∈ J) :
    J[c.seq.toNat - 1]? = some c := by
  obtain ⟨i, hi⟩ := List.mem_iff_getElem?.mp hc
  rw [h i c hi, Nat.add_sub_cancel]
  exact hi

section Datagrams

variable {S : Stage} {all : List Command} {p : Publisher} {initial : List Command}

/-- The seeded history is a part of the initial journal. -/
def Seeded (S : Stage) (initial : List Command) : Prop := ∀ c ∈ S.seeds, c ∈ initial

theorem Backed.pending_le_length (h : Backed S all p s.log) (hseed : Seeded S initial)
    (hlo : S.lo ≤ initial.length + 1) (hn : Numbered (knownJournal S.failing initial s)) :
    p.pendingFirst.toNat ≤ (knownJournal S.failing initial s).length + 1 := by
  by_cases hlt : S.lo < p.pendingFirst.toNat
  · have hle := h.keeps.pending_le
    obtain ⟨hmem, hseq⟩ := h.keeps.get (s := p.pendingFirst.toNat - 1) (by omega) (by omega)
    have hin : Publisher.entryAt all S.lo
        (p.pendingFirst.toNat - 1) ∈ knownJournal S.failing initial s := by
      rcases h.sentBefore _ hmem (by omega) with hs | hc
      · exact List.mem_append_left _ (hseed _ hs)
      · exact List.mem_append_right _ hc
    obtain ⟨hi, _⟩ := List.getElem?_eq_some_iff.mp (hn.get hin)
    omega
  · rw [knownJournal, List.length_append]
    omega

theorem Backed.genuine (h : Backed S all p s.log) (hring : S.ring) (hseed : Seeded S initial)
    (hn : Numbered (knownJournal S.failing initial s)) {x : Sent} (hx : .datagram x ∈ s.log) :
    Genuine S.epoch (knownJournal S.failing initial s) p.pendingFirst.toNat x.datagram := by
  obtain ⟨hepoch, hwithin⟩ := h.announced x hx
  refine ⟨hepoch, hwithin, fun hk => ?_⟩
  obtain ⟨hlen, hget⟩ := h.named hring x hx hk
  have hbound := h.keeps.bounded
  have hpend := h.keeps.pending_le
  simp only [Within, hk] at hwithin
  refine ⟨List.ext_getElem? fun i => ?_, by omega⟩
  rw [Stream.Subscriber.slice, List.getElem?_map]
  by_cases hi : i < x.datagram.header.count.toNat
  swap
  · rw [List.getElem?_eq_none (by omega), List.getElem?_eq_none (by simpa using hi)]
    rfl
  have hsome : x.datagram.cmds[i]? = some (x.datagram.cmds[i]) :=
    List.getElem?_eq_getElem (by omega)
  obtain ⟨_, hseq⟩ := hget i _ hsome
  obtain ⟨pre, post, hlog⟩ := List.append_of_mem hx
  have hin : x.datagram.cmds[i] ∈ knownJournal S.failing initial s := by
    rcases h.carried pre (.datagram x) post hlog hk _ (List.getElem_mem _) with hs | hc
    · exact List.mem_append_left _ (hseed _ hs)
    · refine List.mem_append_right _ ?_
      rw [hlog]
      exact sendable_mono _ pre _ hc
  have hnth := hn.get hin
  obtain ⟨j, hj⟩ := List.mem_iff_getElem?.mp hin
  have hpos := hn j _ hj
  rw [hsome, List.getElem?_range hi, Option.map_some, ← hseq]
  rw [hpos, Nat.add_sub_cancel] at hnth
  rw [hpos, nth, List.getD, hnth]
  rfl

end Datagrams

/-! ### The world -/

structure World (G : Type) where
  primary : State G
  replica : Replica G
  control : List Datagram := []

/-- One of the parties takes a turn. Whatever either side has ever sent may be read by the other at
any time, any number of times and in any order, or never. The primary's sequence counter is far from
its end, the commands it has staged fit the ring, and unless the journal is `failing` it takes every
write. -/
inductive World.Step (cfg : GatewayConfig) (rcfg : ReplicaConfig) (desk : Desk G) (failing : Bool) :
    World G → World G → Prop where
  | primary {w : World G} (i : Input) (room : w.primary.core.seq.toNat + 1 < 2 ^ 63)
      (fits : RingFits True w.primary)
      (writes : failing = false → Unfailing i) (heard : ∀ x ∈ i.control, x.2 ∈ w.control) :
      World.Step cfg rcfg desk failing w { w with primary := step cfg desk w.primary i }
  | replica {w : World G} (i : ReplicaInput)
      (heard : ∀ x ∈ i.datagrams, ∃ dest, .datagram ⟨dest, x.2⟩ ∈ w.primary.log) :
      World.Step cfg rcfg desk failing w { w with
        replica := (w.replica.step rcfg desk i).1
        control := w.control ++ (w.replica.step rcfg desk i).2 }
  /-- The silence that makes a replica promote itself may be of any length. -/
  | promote {w : World G} (h : w.replica.following = true) :
      World.Step cfg rcfg desk failing w { w with replica := w.replica.promote rcfg }

/-- The primary has just been started on the journal `initial`, and publishes under `epoch`; its
ring holds the journal from `first` on. The replica has just been started on a copy of the journal's
beginning. -/
structure World.Starts (desk : Desk G) (epoch : UInt32) (initial copy : List Command) (first : Nat)
    (w : World G) : Prop where
  numbered : Numbered initial
  small : initial.length + 1 < 2 ^ 63
  history : 1 ≤ first ∧ first ≤ initial.length + 1
  primary : ∃ gate journal ringLog2 coins pub digest nextOwner firstExchangeId,
    (Publisher.make ringLog2 coins (UInt64.ofNat initial.length + 1) epoch).seedAll
      (initial.drop (first - 1)) = some pub ∧
    w.primary = start gate journal (some pub) digest
      (UInt64.ofNat initial.length) nextOwner firstExchangeId
  copied : copy <+: initial
  replica : ∃ gate, Replica.start desk gate copy = some w.replica
  control : w.control = []

/-- An acknowledgement of the epoch. -/
def acks (e : UInt32) (d : Datagram) : Bool := d.header.kind = .ack ∧ d.header.epoch = e

/-- How far replicas have acknowledged, from `lo` on. -/
def ackTop (e : UInt32) (lo : Nat) (control : List Datagram) : Nat :=
  ((control.filter (acks e)).map fun d => d.header.firstSeq.toNat).foldr max lo

theorem le_ackTop (e : UInt32) (lo : Nat) {control : List Datagram} {d : Datagram}
    (hd : d ∈ control) (hk : d.header.kind = .ack) (he : d.header.epoch = e) :
    d.header.firstSeq.toNat ≤ ackTop e lo control := by
  induction control with
  | nil => cases hd
  | cons x xs ih =>
      rw [ackTop, List.filter_cons]
      rcases List.mem_cons.mp hd with rfl | hd
      · rw [if_pos (by simp [acks, hk, he]), List.map_cons, List.foldr_cons]
        exact Nat.le_max_left _ _
      · split
        · rw [List.map_cons, List.foldr_cons]
          exact Nat.le_trans (ih hd) (Nat.le_max_right _ _)
        · exact ih hd

theorem ackTop_le {e : UInt32} {lo n : Nat} {control : List Datagram} (hlo : lo ≤ n)
    (h : ∀ d ∈ control, d.header.kind = .ack → d.header.epoch = e → d.header.firstSeq.toNat ≤ n) :
    ackTop e lo control ≤ n := by
  induction control with
  | nil => exact hlo
  | cons x xs ih =>
      have hrest := ih fun d hd => h d (List.mem_cons_of_mem _ hd)
      rw [ackTop, List.filter_cons]
      split
      · rename_i hx
        simp only [acks, decide_eq_true_eq] at hx
        rw [List.map_cons, List.foldr_cons]
        exact Nat.max_le.mpr ⟨h x List.mem_cons_self hx.1 hx.2, hrest⟩
      · exact hrest

theorem lo_le_ackTop (e : UInt32) (lo : Nat) (control : List Datagram) :
    lo ≤ ackTop e lo control := by
  rw [ackTop]
  induction ((control.filter (acks e)).map fun d => d.header.firstSeq.toNat) with
  | nil => exact Nat.le_refl _
  | cons x xs ih => exact Nat.le_trans ih (Nat.le_max_right _ _)

theorem ackTop_mono (e : UInt32) (lo : Nat) (control more : List Datagram) :
    ackTop e lo control ≤ ackTop e lo (control ++ more) :=
  ackTop_le (lo_le_ackTop e lo _) fun _ hd hk he => le_ackTop e lo (List.mem_append_left _ hd) hk he

/-! ### The invariant of the world -/

/-- What the primary's publisher is compared with. -/
def stageOf (failing : Bool) (e : UInt32) (initial : List Command) (first : Nat) (start : Nat)
    (control : List Datagram) : Stage :=
  ⟨True, failing, e, first, start, initial.drop (first - 1), ackTop e initial.length control⟩

structure Joined (failing : Bool) (e : UInt32) (initial : List Command) (first : Nat)
    (w : World G) (p : Publisher) (all : List Command) : Prop where
  pub : w.primary.repl.pub = some p
  backed : Backed (stageOf failing e initial first (initial.length + 1) w.control)
    all p w.primary.log
  follows : Follows e (knownJournal failing initial w.primary) p.pendingFirst.toNat w.replica
  asked : ∀ d ∈ w.control, d.header.kind = .retransmit → d.header.epoch = e →
    d.header.firstSeq.toNat + d.header.count.toNat ≤ p.pendingFirst.toNat

structure Linked (cfg : GatewayConfig) (failing : Bool) (P : Prop) (e : UInt32)
    (initial : List Command) (first : Nat) (w : World G) : Prop where
  inv : Inv cfg P (UInt64.ofNat initial.length) w.primary
  failed : failing = false → w.primary.repl.journalFailed = false
  lost : w.primary.repl.replicaLost = false
  joined : ∃ p all, Joined failing e initial first w p all

section World

variable {failing : Bool} {P : Prop} {e : UInt32} {initial copy : List Command} {first : Nat}
    {w w' : World G} {rcfg : ReplicaConfig}
  {desk : Desk G}

theorem World.Starts.base (h : w.Starts desk e initial copy first) :
    (UInt64.ofNat initial.length).toNat = initial.length := by
  have := h.small
  rw [UInt64.toNat_ofNat']
  omega

/-- The journal of a world that has been started properly is numbered, also where it is not
known. -/
theorem Linked.numbered (h : Linked cfg failing P e initial first w) (hinit : Numbered initial)
    (hbase : (UInt64.ofNat initial.length).toNat = initial.length) :
    Numbered (initial ++ (record w.primary.log).appended) ∧
    Numbered (knownJournal failing initial w.primary) := by
  have hall := numbered_flushed h.inv.1 hinit hbase.symm
  refine ⟨hall, ?_⟩
  obtain ⟨more, hmore⟩ := known_appended failing initial w.primary
  rw [← hmore] at hall
  exact hall.front

theorem Joined.pending_le {p : Publisher} {all : List Command}
    (h : Joined failing e initial first w p all) (hfirst : first ≤ initial.length + 1)
    (hn : Numbered (knownJournal failing initial w.primary)) :
    p.pendingFirst.toNat ≤ (knownJournal failing initial w.primary).length + 1 :=
  h.backed.pending_le_length (fun _ hc => List.mem_of_mem_drop hc) hfirst hn

theorem Linked.primary (h : Linked cfg failing P e initial first w) (hinit : Numbered initial)
    (hbase : (UInt64.ofNat initial.length).toNat = initial.length)
    (hfirst : first ≤ initial.length + 1) (hcfg : cfg.haltOnReplicaLoss = true) {i : Input}
    (room : w.primary.core.seq.toNat + 1 < 2 ^ 63) (fits : RingFits True w.primary)
    (writes : failing = false → Unfailing i) (heard : ∀ x ∈ i.control, x.2 ∈ w.control)
    (calm : P → Calm w.primary) :
    Linked cfg failing P e initial first { w with primary := step cfg desk w.primary i } := by
  obtain ⟨p, all, hj⟩ := h.joined
  have hsteady := steady_step desk w.primary hcfg writes
  have hn := (h.numbered hinit hbase).2
  -- With the publisher's position as the start, the step also says that it only moves on.
  have hb : Backed (stageOf failing e initial first p.pendingFirst.toNat w.control)
      all p w.primary.log :=
    ⟨hj.backed.same, hj.backed.keeps, Nat.le_refl _, hj.backed.given, hj.backed.sentBefore,
      hj.backed.carried, hj.backed.announced, hj.backed.named, hj.backed.acked_le⟩
  have sound :
      Sound (stageOf failing e initial first p.pendingFirst.toNat w.control) w.primary i := by
    refine ⟨room, ⟨fun p' hp' x hx hk he => ?_, fun x hx hk he => ?_⟩, fun hf _ hbad => ?_⟩
    · obtain rfl : p = p' := Option.some.inj (hj.pub.symm.trans hp')
      exact hj.asked x.2 (heard x hx) hk (he.trans hj.backed.same)
    · exact le_ackTop e _ (heard x hx) hk he
    · rcases hbad with hbad | hbad
      · rw [h.failed hf] at hbad
        cases hbad
      · exact absurd (writes hf).flush hbad
  obtain ⟨p', all', hp', hb'⟩ := BackedUp.step desk h.inv ⟨p, all, hj.pub, hb⟩ fits sound
  refine ⟨h.inv.step desk (Nat.lt_trans room (by decide)) calm i,
    fun hf => (hsteady.failed hf).trans (h.failed hf),
    hsteady.lost.trans h.lost, p', all', hp', ?_, ?_, fun d hd hk he => ?_⟩
  · exact ⟨hb'.same, hb'.keeps, Nat.le_trans hj.backed.start_le hb'.start_le, hb'.given,
      hb'.sentBefore, hb'.carried, hb'.announced, hb'.named, hb'.acked_le⟩
  · exact hj.follows.grow (hj.pending_le hfirst hn) (hsteady.known failing initial) hb'.start_le
  · exact Nat.le_trans (hj.asked d hd hk he) hb'.start_le

theorem Joined.replica {p : Publisher} {all : List Command}
    (h : Joined failing e initial first w p all) {r : Replica G}
    (hf : Follows e (knownJournal failing initial w.primary) p.pendingFirst.toNat r) {top : Nat}
    {sent : List Datagram} (hsent : ∀ d ∈ sent, Honest e p.pendingFirst.toNat top d) :
    Joined failing e initial first { w with replica := r, control := w.control ++ sent } p all := by
  refine ⟨h.pub, ?_, hf, fun d hd hk he => ?_⟩
  · have hb := h.backed
    exact ⟨hb.same, hb.keeps, hb.start_le, hb.given, hb.sentBefore, hb.carried,
      hb.announced, hb.named, Nat.le_trans hb.acked_le (ackTop_mono e _ _ _)⟩
  · rcases List.mem_append.mp hd with hd | hd
    · exact h.asked d hd hk he
    · exact (hsent d hd).asks hk he

theorem Linked.replica (rcfg : ReplicaConfig) (desk : Desk G)
    (h : Linked cfg failing P e initial first w) (hinit : Numbered initial)
    (hbase : (UInt64.ofNat initial.length).toNat = initial.length)
    (hfirst : first ≤ initial.length + 1) {i : ReplicaInput}
    (heard : ∀ x ∈ i.datagrams, ∃ dest, .datagram ⟨dest, x.2⟩ ∈ w.primary.log) :
    Linked cfg failing P e initial first { w with
      replica := (w.replica.step rcfg desk i).1
      control := w.control ++ (w.replica.step rcfg desk i).2 } ∧
      ∃ p all, Joined failing e initial first w p all ∧
        Replica.Advance e (knownJournal failing initial w.primary) p.pendingFirst.toNat w.replica
          (w.replica.step rcfg desk i) := by
  obtain ⟨p, all, hj⟩ := h.joined
  have hn := (h.numbered hinit hbase).2
  have hb := Nat.lt_of_le_of_lt hj.backed.keeps.pending_le hj.backed.keeps.bounded
  have hadv := hj.follows.step rcfg desk hn hb (hj.pending_le hfirst hn) (i := i) fun x hx => by
    obtain ⟨dest, hlog⟩ := heard x hx
    exact hj.backed.genuine (x := ⟨dest, x.2⟩) trivial (fun _ hc => List.mem_of_mem_drop hc) hn hlog
  exact ⟨⟨h.inv, h.failed, h.lost, p, all, hj.replica hadv.follows hadv.honest⟩, p, all, hj, hadv⟩

theorem Linked.promote (h : Linked cfg failing P e initial first w) :
    Linked cfg failing P e initial first { w with replica := w.replica.promote rcfg } := by
  obtain ⟨p, all, hj⟩ := h.joined
  have hf := (hj.follows.promote rcfg).1
  exact ⟨h.inv, h.failed, h.lost, p, all, hj.pub, hj.backed, hf, hj.asked⟩

theorem World.Starts.linked (h : w.Starts desk e initial copy first) :
    Linked cfg failing P e initial first w := by
  obtain ⟨gate, journal, ringLog2, coins, pub, digest, nextOwner, firstExchangeId, hpub, hw⟩ :=
    h.primary
  obtain ⟨rgate, hr⟩ := h.replica
  have hsmall := h.small
  obtain ⟨hpos, hle⟩ := h.history
  have hseeds : ∀ i c, (initial.drop (first - 1))[i]? = some c → c.seq.toNat = first + i := by
    intro i c hc
    rw [List.getElem?_drop] at hc
    have := h.numbered _ c hc
    omega
  have htop : (UInt64.ofNat initial.length).toNat ≤ ackTop e initial.length [] :=
    Nat.le_of_eq h.base
  have hlen : (UInt64.ofNat initial.length).toNat + 1 = first +
      (initial.drop (first - 1)).length := by
    rw [h.base, List.length_drop]
    omega
  have hback := backedUp_start True failing gate journal hpos hlen
    (by rw [h.base]; exact hsmall) hseeds hpub htop digest
    nextOwner firstExchangeId
  obtain ⟨p, all, hp, hb⟩ := hback
  rw [h.base, ← hw] at hb
  have hjournal : knownJournal failing initial w.primary = initial := by
    rw [hw]
    cases failing <;> exact List.append_nil _
  have hf := Replica.follows_start desk e p.pendingFirst.toNat rgate h.copied h.numbered hsmall hr
  refine ⟨?_, fun _ => by rw [hw]; rfl, by rw [hw]; rfl, p, all, by rw [hw]; exact hp, ?_, ?_, ?_⟩
  · rw [hw]
    exact Inv.start gate journal digest _ nextOwner firstExchangeId fun _ => rfl
  · rw [h.control]
    exact hb
  · rw [hjournal]
    exact hf.1
  · rw [h.control]
    exact fun d hd => nomatch hd

theorem Linked.committed (h : Linked cfg failing P e initial first w)
    (hwait : cfg.waitReplica = true) {c : Command} (hc : c ∈ (record w.primary.log).appended)
    (hle : c.seq ≤ w.primary.released) :
    c.seq.toNat ≤ ackTop e initial.length w.control := by
  obtain ⟨p, all, hj⟩ := h.joined
  have hack := h.inv.1.acked hwait h.lost c hc hle
  rw [Replication.acked, hj.pub] at hack
  exact Nat.le_trans (UInt64.le_iff_toNat_le.mp hack) hj.backed.acked_le

theorem Linked.retained (h : Linked cfg failing P e initial first w) (hinit : Numbered initial)
    (hbase : (UInt64.ofNat initial.length).toNat = initial.length) {c : Command}
    (hc : c ∈ (record w.primary.log).appended) (hle : c.seq.toNat ≤ w.replica.flushed) :
    (w.replica.journaled.take w.replica.flushed)[c.seq.toNat - 1]? = some c := by
  obtain ⟨p, all, hj⟩ := h.joined
  have hall := (h.numbered hinit hbase).1
  have hin : c ∈ initial ++ (record w.primary.log).appended := List.mem_append_right _ hc
  have hget := hall.get hin
  obtain ⟨j, hj'⟩ := List.mem_iff_getElem?.mp hin
  have hpos := hall j c hj'
  have hfl := hj.follows.filed.flushed_le
  obtain ⟨more, hmore⟩ := hj.follows.applied.trans (known_appended failing initial w.primary)
  rw [← hmore, List.getElem?_append_left (by omega)] at hget
  obtain ⟨own, hown⟩ : w.replica.applied <+: w.replica.journaled := by
    rw [Replica.journaled]
    split
    · exact List.prefix_append _ _
    · exact List.prefix_refl _
  rw [List.getElem?_take, if_pos (by omega), ← hown, List.getElem?_append_left (by omega)]
  exact hget

theorem Linked.step (hinit : Numbered initial)
    (hbase : (UInt64.ofNat initial.length).toNat = initial.length)
    (hfirst : first ≤ initial.length + 1) (hcfg : cfg.haltOnReplicaLoss = true)
    (hs : World.Step cfg rcfg desk failing w w') (calm : P → Calm w.primary)
    (h : Linked cfg failing P e initial first w) :
    Linked cfg failing P e initial first w' ∧ w.replica.applied <+: w'.replica.applied ∧
      w.replica.flushed ≤ w'.replica.flushed ∧
      ∀ d ∈ w'.control, d ∈ w.control ∨ (d.header.kind = .ack → d.header.epoch = e →
        d.header.firstSeq.toNat ≤ w'.replica.flushed) := by
  cases hs with
  | primary i room fits writes heard =>
      exact ⟨h.primary hinit hbase hfirst hcfg room fits writes heard calm, List.prefix_refl _,
        Nat.le_refl _, fun d hd => .inl hd⟩
  | replica i heard =>
      obtain ⟨h', p, all, hj, hadv⟩ := h.replica rcfg desk hinit hbase hfirst heard
      refine ⟨h', hadv.applied, hadv.flushed, fun d hd => ?_⟩
      rcases List.mem_append.mp hd with hd | hd
      · exact .inl hd
      · exact .inr (hadv.honest d hd).acks
  | promote _ =>
      obtain ⟨p, all, hj⟩ := h.joined
      obtain ⟨_, happ, hfl⟩ := hj.follows.promote rcfg
      refine ⟨h.promote, ?_, ?_, fun d hd => .inl hd⟩
      · rw [happ]
      rw [hfl]
      exact hj.follows.filed.flushed_le

theorem Linked.applied_le (h : Linked cfg failing P e initial first w)
    (h' : Linked cfg failing P e initial first w') (hle : w.replica.applied <+: w'.replica.applied)
    (hp : w'.replica.isPromoted = true) :
    w.replica.seq.toNat ≤ w'.replica.flushed := by
  obtain ⟨_, _, hj⟩ := h.joined
  obtain ⟨_, _, hj'⟩ := h'.joined
  have hset : w'.replica.settled = true := by
    rw [Replica.isPromoted] at hp
    rw [Replica.settled]
    split at hp
    · rename_i hph
      rw [hph]
    · cases hp
  rw [hj.follows.filed.seq, hj'.follows.settled hset]
  exact hle.length_le

/-- Every command of a committed batch is in the replica's flushed journal, with the same number,
and as long as the replica has not promoted itself its journal is the beginning of the primary's. -/
theorem failover_loses_nothing (cfg : GatewayConfig) (rcfg : ReplicaConfig)
    (desk : Desk G) (e : UInt32) (initial : List Command) (first : Nat) (w₀ w : World G)
    (hwait : cfg.waitReplica = true) (hhalt : cfg.haltOnReplicaLoss = true)
    (starts : w₀.Starts desk e initial initial first)
    (reached : Relation.ReflTransGen (World.Step cfg rcfg desk false) w₀ w) :
    (∀ pre post, w.primary.log = pre ++ .commit :: post → ∀ c ∈ (record pre).appended,
      (w.replica.journaled.take w.replica.flushed)[c.seq.toNat - 1]? = some c) ∧
    (w.replica.isPromoted = false → w.replica.journaled <+: flushedJournal initial w.primary) := by
  have hinv : Linked cfg false False e initial first w ∧
      ackTop e initial.length w.control ≤ w.replica.flushed := by
    induction reached with
    | refl =>
        refine ⟨starts.linked, ?_⟩
        obtain ⟨gate, hr⟩ := starts.replica
        obtain ⟨_, _, hfl, _⟩ :=
          Replica.follows_start desk e 0 gate starts.copied starts.numbered starts.small hr
        rw [starts.control, hfl]
        exact Nat.le_refl _
    | tail _ hs ih =>
        obtain ⟨h, hle⟩ := ih
        obtain ⟨h', _, hmono, hnew⟩ :=
          Linked.step starts.numbered starts.base starts.history.2 hhalt hs (fun hf => nomatch hf) h
        refine ⟨h', ackTop_le ?_ fun d hd hk he => ?_⟩
        · exact Nat.le_trans (Nat.le_trans (lo_le_ackTop e _ _) hle) hmono
        · rcases hnew d hd with hold | hnew
          · exact Nat.le_trans (Nat.le_trans (le_ackTop e _ hold hk he) hle) hmono
          · exact hnew hk he
  obtain ⟨h, hle⟩ := hinv
  constructor
  · intro pre post hlog c hc
    have hmem : c ∈ (record w.primary.log).appended := by
      rw [hlog]
      exact (record_mono pre _).2 c hc
    have hrel := h.inv.1.commits pre post hlog c hc
    exact h.retained starts.numbered starts.base hmem
      (Nat.le_trans (h.committed hwait hmem hrel) hle)
  · intro hp
    obtain ⟨p, all, hj⟩ := h.joined
    rw [Replica.journaled]
    rw [Replica.isPromoted] at hp
    split
    · rename_i hph
      rw [hph] at hp
      cases hp
    · exact hj.follows.applied

/-! ### A succession of replicas -/

/-- A turn of one of the parties, where the primary's journal may fail, or another replica process
takes the replica's place; it starts from a copy of the primary's journal, or from none of it. -/
inductive World.Handover (cfg : GatewayConfig) (rcfg : ReplicaConfig) (desk : Desk G)
    (initial : List Command) :
    World G → World G → Prop where
  | step {w w' : World G} (h : World.Step cfg rcfg desk true w w') :
      World.Handover cfg rcfg desk initial w w'
  | replace {w : World G} (alive : w.replica.isPromoted = false)
      (room : w.primary.core.seq.toNat + 1 < 2 ^ 63) (gate : G)
      {copy : List Command} (copied : copy <+: knownJournal true initial w.primary) {r : Replica G}
      (started : Replica.start desk gate copy = some r) : World.Handover cfg rcfg desk initial w
        { w with replica := r }

/-- The promoted replica has every command of which the primary has passed a report to `send`. -/
def World.Retains (w : World G) : Prop :=
  w.replica.isPromoted = true → ∀ fd items acked lost,
    .send fd items acked lost ∈ w.primary.log → ∀ item ∈ items,
    ∃ c ∈ (record w.primary.log).appended, c.seq = item.seq ∧
      (w.replica.journaled.take w.replica.flushed)[c.seq.toNat - 1]? = some c

/-- A replica that promotes itself in this step has everything that any replica process has
acknowledged. -/
def World.CaughtUp (e : UInt32) (w w' : World G) : Prop :=
  w.replica.isPromoted = false → w'.replica.isPromoted = true →
    ∀ d ∈ w.control, d.header.kind = .ack → d.header.epoch = e → d.header.firstSeq ≤ w.replica.seq

theorem Linked.length_le (h : Linked cfg failing P e initial first w)
    (hbase : (UInt64.ofNat initial.length).toNat = initial.length) :
    (initial ++ (record w.primary.log).appended).length ≤
    max initial.length w.primary.core.seq.toNat := by
  rw [List.length_append]
  cases hlen : (record w.primary.log).appended.length with
  | zero => exact Nat.le_max_left _ _
  | succ n =>
      obtain ⟨c, hlast⟩ : ∃ c, (record w.primary.log).appended[n]? = some c :=
        ⟨_, List.getElem?_eq_getElem (by omega)⟩
      have hpos := h.inv.1.sequenced.consecutive n c hlast
      have hle := UInt64.le_iff_toNat_le.mp (h.inv.1.numbered c (List.mem_of_getElem? hlast))
      rw [hpos, hbase] at hle
      omega

theorem Linked.replace (h : Linked cfg failing P e initial first w) (hinit : Numbered initial)
    (hbase : (UInt64.ofNat initial.length).toNat = initial.length)
    (hsmall : initial.length + 1 < 2 ^ 63) (room : w.primary.core.seq.toNat + 1 < 2 ^ 63) {gate : G}
    (copied : copy <+: knownJournal failing initial w.primary) {r : Replica G}
    (started : Replica.start desk gate copy = some r) :
    Linked cfg failing P e initial first { w with replica := r } ∧ r.isPromoted = false := by
  obtain ⟨p, all, hj⟩ := h.joined
  obtain ⟨hall, hknown⟩ := h.numbered hinit hbase
  have hlen : (knownJournal failing initial w.primary).length + 1 < 2 ^ 63 := by
    have hle := (known_appended failing initial w.primary).length_le
    have := h.length_le hbase
    omega
  obtain ⟨hf, _, _, hp⟩ :=
    Replica.follows_start desk e p.pendingFirst.toNat gate copied hknown hlen started
  exact ⟨⟨h.inv, h.failed, h.lost, p, all, hj.pub, hj.backed, hf, hj.asked⟩, hp⟩

/-- The promoted replica has flushed everything that has been acknowledged. -/
def World.Covers (e : UInt32) (w : World G) : Prop :=
  w.replica.isPromoted = true → ∀ d ∈ w.control, d.header.kind = .ack → d.header.epoch = e →
    d.header.firstSeq.toNat ≤ w.replica.flushed

theorem Linked.handover (hinit : Numbered initial)
    (hbase : (UInt64.ofNat initial.length).toNat = initial.length)
    (hsmall : initial.length + 1 < 2 ^ 63) (hfirst : first ≤ initial.length + 1)
    (hcfg : cfg.haltOnReplicaLoss = true) (hs : World.Handover cfg rcfg desk initial w w')
    (calm : P → Calm w.primary) (caught : World.CaughtUp e w w')
    (h : Linked cfg true P e initial first w) (hcov : w.Covers e) :
    Linked cfg true P e initial first w' ∧ w'.Covers e := by
  cases hs with
  | step hs =>
      obtain ⟨h', happ, hmono, hnew⟩ := Linked.step hinit hbase hfirst hcfg hs calm h
      refine ⟨h', fun hp d hd hk he => ?_⟩
      rcases hnew d hd with hold | hnew
      · cases hbefore : w.replica.isPromoted with
        | true => exact Nat.le_trans (hcov hbefore d hold hk he) hmono
        | false =>
            have hle := UInt64.le_iff_toNat_le.mp (caught hbefore hp d hold hk he)
            have hpromoted := h.applied_le h' happ hp
            omega
      · exact hnew hk he
  | replace alive room gate copied started =>
      obtain ⟨h', hp⟩ := h.replace hinit hbase hsmall room copied started
      refine ⟨h', fun hp' => ?_⟩
      rw [hp] at hp'
      cases hp'

/-- In a run in which every replica that promotes itself has caught up with every acknowledgement
ever sent, and in which no session is written to in the middle of a batch that it has a report of,
the promoted replica has every command that the primary has responded to. -/
theorem caught_up_replica_retains (cfg : GatewayConfig) (rcfg : ReplicaConfig)
    (desk : Desk G) (e : UInt32) (initial copy : List Command) (first : Nat) (w₀ w : World G)
    (hwait : cfg.waitReplica = true) (hhalt : cfg.haltOnReplicaLoss = true)
    (starts : w₀.Starts desk e initial copy first) (reached : Relation.ReflTransGen
      (fun w w' => World.Handover cfg rcfg desk initial w w' ∧ Calm w.primary ∧
        World.CaughtUp e w w') w₀ w) :
    w.Retains := by
  have hinv : Linked cfg true True e initial first w ∧ w.Covers e := by
    induction reached with
    | refl =>
        refine ⟨starts.linked, fun hp => ?_⟩
        rw [starts.control]
        exact fun d hd => nomatch hd
    | tail _ hs ih =>
        exact Linked.handover starts.numbered starts.base starts.small starts.history.2 hhalt hs.1
          (fun _ => hs.2.1) hs.2.2 ih.1 ih.2
  obtain ⟨h, hcov⟩ := hinv
  intro hp fd items acked lost hsend item hitem
  have told := h.inv.1.told trivial
  have hrel := told.sent fd items acked lost hsend item hitem
  obtain ⟨pre, post, hlog⟩ := List.append_of_mem hsend
  obtain ⟨⟨c, hc, hseq⟩, _⟩ := told.sends pre _ post hlog item hitem
  have hmem : c ∈ (record w.primary.log).appended := by
    rw [hlog]
    exact List.mem_append_left _ ((record_mono pre _).1 c hc)
  refine ⟨c, hmem, hseq, h.retained starts.numbered starts.base hmem ?_⟩
  -- The command is this primary's own, so that it is an acknowledgement that released it.
  have hack := h.committed hwait hmem (by rw [hseq]; exact hrel)
  have htop : ackTop e initial.length w.control ≤ max initial.length w.replica.flushed :=
    ackTop_le (Nat.le_max_left _ _) fun d hd hk he => Nat.le_trans (hcov hp d hd hk he)
      (Nat.le_max_right _ _)
  obtain ⟨i, hi⟩ := List.mem_iff_getElem?.mp hmem
  have hnum := h.inv.1.sequenced.consecutive i c hi
  rw [starts.base] at hnum
  omega

/-! ### Two worlds played out -/

/-- A turn in which everything is read that has been sent; the replica has lost the first
datagrams. -/
inductive Turn where
  | primary (i : Input)
  | replica (missed : Nat) (i : ReplicaInput)

/-- The datagrams the primary has sent. -/
def State.sent (s : State G) : List Datagram :=
  s.log.filterMap fun
    | .datagram x => some x.datagram
    | _ => none

def World.afterTurn (cfg : GatewayConfig) (rcfg : ReplicaConfig) (desk : Desk G)
    (w : World G) : Turn → World G
  | .primary i =>
    { w with primary := Gateway.step cfg desk w.primary { i with
      control := w.control.map (Prod.mk 0) } }
  | .replica missed i =>
      let x := w.replica.step rcfg desk
        { i with datagrams := (w.primary.sent.drop missed).map (Prod.mk i.now) }
      { w with replica := x.1, control := w.control ++ x.2 }

/-- The turn is one that `World.Step` has. -/
def World.allows (w : World G) : Turn → Bool
  | .primary i => w.primary.core.seq.toNat + 1 < 2 ^ 63 && (match w.primary.repl.pub with
      | none => true
      | some p => p.staged ≤ p.ringSize) && i.append.isNone && i.flush.isNone && i.fsync
  | .replica _ _ => true

theorem World.allows_step {t : Turn} (h : w.allows t = true) :
    World.Step cfg rcfg desk failing w (w.afterTurn cfg rcfg desk t) := by
  cases t with
  | primary i =>
      simp only [World.allows, Bool.and_eq_true, Option.isNone_iff_eq_none, decide_eq_true_eq] at h
      obtain ⟨⟨⟨⟨hroom, hfits⟩, happ⟩, hflush⟩, hsync⟩ := h
      refine .primary _ hroom (fun _ p hp => ?_) (fun _ => ⟨happ, hflush, hsync⟩) fun x hx => ?_
      · rw [hp] at hfits
        exact of_decide_eq_true hfits
      · obtain ⟨d, hd, rfl⟩ := List.mem_map.mp hx
        exact hd
  | replica missed i =>
      refine .replica _ fun x hx => ?_
      obtain ⟨d, hd, rfl⟩ := List.mem_map.mp hx
      obtain ⟨a, ha, hsome⟩ := List.mem_filterMap.mp (List.mem_of_mem_drop hd)
      cases a with
      | datagram y =>
          cases hsome
          exact ⟨y.dest, ha⟩
      | _ => cases hsome

/-- Turns in a row, as long as each is allowed and `ok`. -/
def World.play (cfg : GatewayConfig) (rcfg : ReplicaConfig) (desk : Desk G)
    (ok : World G → World G → Bool) (w : World G) :
    List Turn → Option (World G)
  | [] => some w
  | t :: ts =>
      let w' := w.afterTurn cfg rcfg desk t
      if w.allows t && ok w w' then w'.play cfg rcfg desk ok ts else none

theorem World.play_reachable {ok : World G → World G → Bool} {ts : List Turn}
    (h : w.play cfg rcfg desk ok ts = some w') :
    Relation.ReflTransGen (fun w w' => World.Step cfg rcfg desk failing w w' ∧
      ok w w' = true) w w' := by
  induction ts generalizing w with
  | nil =>
      cases h
      exact .refl
  | cons t ts ih =>
      rw [World.play] at h
      split at h
      · rename_i hok
        rw [Bool.and_eq_true] at hok
        exact .head ⟨World.allows_step hok.1, hok.2⟩ (ih h)
      · cases h

end World

def waits : GatewayConfig := { waitReplica := true }

def silent : ReplicaConfig := { publishes := false }

def smallWorld : World (RiskGate (OrderBook AosStore)) where
  primary := start smallGate .create (some smallPublisher) [] 0 1 1
  replica := ({ sub := .make 1 1, gate := smallGate, journal := .create } : Replica _).flush

theorem smallWorld_starts : smallWorld.Starts desk 1 [] [] 1 where
  numbered _ _ hc := nomatch hc
  small := by decide
  history := by decide
  primary := ⟨smallGate, .create, 2, fun _ => false, smallPublisher, [], 1, 1, rfl, rfl⟩
  copied := List.prefix_refl _
  replica := ⟨smallGate, rfl⟩
  control := rfl

/-- A session enters an order, and the primary waits for its replica. -/
def orderEntered : List Turn :=
  [.primary { ready := [.listener] }, .primary { accepted := [3] }, .primary idle, .primary idle,
    .primary { ready := [.conn 3 false true] },
    .primary { received := .data (Wire.encode (smallOrder 7 .sell 2)) },
    .primary idle, .primary idle, .primary idle, .primary idle]

/-- The replica has it, and the response leaves. -/
def orderReplicated : List Turn := orderEntered ++
  [.replica 0 { now := 5 }, .replica 0 { now := 10 }, .primary idle,
    .primary { writes := [[.sent 1000]] }]

/-- The primary falls silent, and the replica promotes itself. -/
def fallenSilent : List Turn := [.replica 1 { now := 1000000000 }, .replica 1 { now := 2000000000 }]

theorem World.play_any {cfg : GatewayConfig} {rcfg : ReplicaConfig} {desk : Desk G} {failing : Bool}
    {ok : World G → World G → Bool} {w : World G} {ts : List Turn} {check : World G → Bool}
    (h : (w.play cfg rcfg desk ok ts).any check = true) :
    ∃ w', Relation.ReflTransGen (fun w w' => World.Step cfg rcfg desk failing w w' ∧ ok w w' = true)
      w w' ∧ check w' = true := by
  cases hp : w.play cfg rcfg desk ok ts with
  | none =>
      rw [hp] at h
      cases h
  | some w' =>
      rw [hp] at h
      exact ⟨w', World.play_reachable hp, h⟩

theorem failover_loses_nothing_small : smallWorld.Starts desk 1 [] [] 1 ∧
    ∃ w, Relation.ReflTransGen (World.Step waits silent desk false) smallWorld w ∧
    w.replica.isPromoted = true ∧
      (∃ pre post, w.primary.log = pre ++ .commit :: post ∧ (record pre).appended ≠ []) ∧
      (∀ pre post, w.primary.log = pre ++ .commit :: post → ∀ c ∈ (record pre).appended,
        (w.replica.journaled.take w.replica.flushed)[c.seq.toNat - 1]? = some c) := by
  have hrun : (smallWorld.play waits silent desk (fun _ _ => true)
      (orderReplicated ++ fallenSilent)).any (fun w =>
      w.replica.isPromoted && decide
        (w.primary.log = w.primary.log.take 8 ++ .commit :: w.primary.log.drop 9) &&
        decide ((record (w.primary.log.take 8)).appended ≠ [])) = true := by
    decide +kernel
  obtain ⟨w, hreach, hcheck⟩ := World.play_any hrun
  simp only [Bool.and_eq_true, decide_eq_true_eq] at hcheck
  obtain ⟨⟨hp, hlog⟩, hne⟩ := hcheck
  have hreached : Relation.ReflTransGen (World.Step waits silent desk false) smallWorld w :=
    hreach.lift id fun _ _ h => h.1
  exact ⟨smallWorld_starts, w, hreached, hp, ⟨_, _, hlog, hne⟩,
    (failover_loses_nothing waits silent desk 1 [] 1 smallWorld w rfl rfl
      smallWorld_starts hreached).1⟩

/-- The conditions on a step, where they can be checked. -/
def prudent (w w' : World G) : Bool :=
  decide (Calm w.primary) && (w.replica.isPromoted || !w'.replica.isPromoted ||
    w.control.all fun d => d.header.kind ≠ .ack || d.header.epoch ≠ 1 ||
    d.header.firstSeq ≤ w.replica.seq)

theorem caughtUp_of_prudent {w w' : World G} (h : prudent w w' = true) : Calm w.primary ∧
    World.CaughtUp 1 w w' := by
  simp only [prudent, Bool.and_eq_true, Bool.or_eq_true, decide_eq_true_eq] at h
  refine ⟨h.1, fun hbefore hafter d hd hk he => ?_⟩
  rcases h.2 with (hp | hp) | hp
  · rw [hbefore] at hp
    cases hp
  · rw [hafter] at hp
    cases hp
  · have := List.all_eq_true.mp hp d hd
    simpa [hk, he] using this

/-- The action hands reports to client 3. -/
def sentToClient : Action → Bool
  | .send fd _ _ _ => fd == 3
  | _ => false

/-- The action hands reports to some client. -/
def sentReports : Action → Bool
  | .send _ items _ _ => !items.isEmpty
  | _ => false

theorem of_sentToClient {a : Action} (h : sentToClient a = true) : ∃ items acked lost,
    a = .send 3 items acked lost := by
  cases a with
  | send fd items acked lost => exact ⟨items, acked, lost, by rw [beq_iff_eq.mp h]⟩
  | _ => cases h

theorem of_sentReports {a : Action} (h : sentReports a = true) :
    ∃ fd item items acked lost, a = .send fd (item :: items) acked lost := by
  cases a with
  | send fd items acked lost =>
      cases items with
      | nil => cases h
      | cons item items => exact ⟨fd, item, items, acked, lost, rfl⟩
  | _ => cases h

/-- A handover under the conditions of the theorem. -/
def careful (w w' : World (RiskGate (OrderBook AosStore))) : Prop :=
  World.Handover waits silent desk [] w w' ∧ Calm w.primary ∧ World.CaughtUp 1 w w'

theorem careful_play {w w' : World (RiskGate (OrderBook AosStore))}
    (h : Relation.ReflTransGen (fun w w' => World.Step waits silent desk true w w' ∧
      prudent w w' = true) w w') :
    Relation.ReflTransGen careful w w' :=
  h.lift id fun _ _ h => ⟨.step h.1, caughtUp_of_prudent h.2⟩

/-- The replica that had acknowledged the order is replaced by one that starts empty, reads what the
primary has sent, and promotes itself. -/
theorem caught_up_replica_retains_small : smallWorld.Starts desk 1 [] [] 1 ∧
    ∃ w₁ w, Relation.ReflTransGen careful smallWorld w₁ ∧ w₁.replica.journaled ≠ [] ∧
      Relation.ReflTransGen careful { w₁ with replica := smallWorld.replica } w ∧
      w.replica.isPromoted = true ∧
      (∃ items acked lost, .send 3 items acked lost ∈ w.primary.log) ∧ w.Retains := by
  have hrun : (smallWorld.play waits silent desk prudent orderReplicated).any (fun w =>
      !w.replica.isPromoted && decide (w.primary.core.seq.toNat + 1 < 2 ^ 63) && decide
        (Calm w.primary) &&
        decide (w.replica.journaled ≠ []) &&
      (World.play waits silent desk prudent { w with replica := smallWorld.replica }
        (.replica 0 { now := 5 } :: .replica 0 { now := 10 } :: fallenSilent)).any fun w =>
          w.replica.isPromoted && w.primary.log.any sentToClient) = true := by
    decide +kernel
  obtain ⟨w₁, hfirst, hcheck⟩ := World.play_any hrun
  simp only [Bool.and_eq_true, Bool.not_eq_true', decide_eq_true_eq] at hcheck
  obtain ⟨⟨⟨⟨halive, hroom⟩, hcalm⟩, hheld⟩, hagain⟩ := hcheck
  obtain ⟨w₂, hsecond, hend⟩ := World.play_any hagain
  rw [Bool.and_eq_true] at hend
  obtain ⟨a, ha, hsend⟩ := List.any_eq_true.mp hend.2
  have hmid : careful w₁ { w₁ with replica := smallWorld.replica } :=
    ⟨.replace halive hroom smallGate List.nil_prefix rfl, hcalm, fun _ hp => by cases hp⟩
  have hreached : Relation.ReflTransGen careful smallWorld w₂ :=
    (careful_play hfirst).trans (.head hmid (careful_play hsecond))
  refine ⟨smallWorld_starts, w₁, w₂, careful_play hfirst, hheld, careful_play hsecond, hend.1, ?_,
    caught_up_replica_retains waits silent desk 1 []
      [] 1 smallWorld w₂ rfl rfl smallWorld_starts hreached⟩
  obtain ⟨items, acked, lost, rfl⟩ := of_sentToClient hsend
  exact ⟨items, acked, lost, ha⟩

/-- The primary sends a heartbeat when it has nothing else to send. -/
def heartbeatSent : List Turn := [.primary idle, .primary idle, .primary { now := 50000000 }]

/-- The replica that had acknowledged the order is replaced by one that starts empty; it hears one
heartbeat, and promotes itself with nothing in its journal. -/
theorem late_replica_forgets : smallWorld.Starts desk 1 [] [] 1 ∧
    ∃ w, Relation.ReflTransGen (World.Handover waits silent desk []) smallWorld w ∧
    ¬ w.Retains := by
  refine ⟨smallWorld_starts, ?_⟩
  have hrun : (smallWorld.play waits silent desk (fun _ _ => true)
      (orderReplicated ++ heartbeatSent)).any (fun w =>
      !w.replica.isPromoted && decide (w.primary.core.seq.toNat + 1 < 2 ^ 63) &&
      (World.play waits silent desk (fun _ _ => true) { w with replica := smallWorld.replica }
        fallenSilent).any fun w =>
        w.replica.isPromoted && decide
            (w.replica.journaled = []) && w.primary.log.any sentReports) = true := by
    decide +kernel
  obtain ⟨w₁, hfirst, hcheck⟩ := World.play_any hrun
  simp only [Bool.and_eq_true, Bool.not_eq_true', decide_eq_true_eq] at hcheck
  obtain ⟨⟨halive, hroom⟩, hagain⟩ := hcheck
  obtain ⟨w₂, hsecond, hend⟩ := World.play_any hagain
  simp only [Bool.and_eq_true, decide_eq_true_eq] at hend
  obtain ⟨⟨hp, hnil⟩, hsend⟩ := hend
  have hmid : World.Handover waits silent desk [] w₁ { w₁ with replica := smallWorld.replica } :=
    .replace halive hroom smallGate List.nil_prefix rfl
  refine ⟨w₂, ?_, fun hret => ?_⟩
  · exact (hfirst.lift id fun _ _ h => World.Handover.step h.1).trans
      (.head hmid (hsecond.lift id fun _ _ h => World.Handover.step h.1))
  · obtain ⟨a, ha, hitems⟩ := List.any_eq_true.mp hsend
    obtain ⟨_, _, _, _, _, rfl⟩ := of_sentReports hitems
    obtain ⟨c, _, _, hget⟩ := hret hp _ _ _ _ ha _ List.mem_cons_self
    rw [hnil] at hget
    simp at hget

end ExchangeSim.Gateway
