/- digest: The publisher sends no command that the journal could lose, as long as the gateway does
   not shut down with commands in a journal that has failed. -/

import ExchangeSim.Gateway.Commit
import ExchangeSim.Stream.Requests

set_option autoImplicit false
set_option relaxedAutoImplicit false

namespace ExchangeSim.Gateway

open Lib (Always)
open ExchangeSim.Stream (Publisher Sent Datagram Within)
open ExchangeSim.Stream.Publisher (Keeps Moves Emits Answers Served Named)
open ExchangeSim.Stream.Subscriber (Conforms)

/-- The commands of a data datagram are seeded history or covered by a successful flush. -/
def DataOk (seeds : List Command) (pre : List Action) : Action → Prop
  | .datagram x =>
    x.datagram.header.kind = .data → ∀ c ∈ x.datagram.cmds, c ∈ seeds ∨ c ∈ (record pre).covered
  | _ => True

/-- The commands that may have left: what a successful flush covers, or, where the journal may fail,
everything that was appended. -/
def sendable (failing : Bool) (log : List Action) : List Command :=
  if failing then (record log).appended else (record log).covered

/-- The commands of a data datagram are seeded history or may have left. -/
def DataFrom (failing : Bool) (seeds : List Command) (pre : List Action) : Action → Prop
  | .datagram x =>
    x.datagram.header.kind = .data → ∀ c ∈ x.datagram.cmds, c ∈ seeds ∨ c ∈ sendable failing pre
  | _ => True

theorem DataFrom.ok {seeds : List Command} {pre : List Action} {a : Action}
    (h : DataFrom false seeds pre a) :
    DataOk seeds pre a := by
  cases a with
  | datagram x => exact h
  | _ => trivial

variable {G : Type} {cfg : GatewayConfig} {base : UInt64} {s s' : State G}

/-! ### What a longer log still says -/

theorem Record.step_mono (r : Record) (a : Action) :
    (∀ c ∈ r.covered, c ∈ (r.step a).covered) ∧ ∀ c ∈ r.appended, c ∈ (r.step a).appended := by
  cases a with
  | append x =>
      refine ⟨fun c hc => hc, fun c hc => ?_⟩
      rw [Record.appended, Record.step, ← List.append_assoc]
      exact List.mem_append_left _ hc
  | flush =>
      refine ⟨fun c hc => List.mem_append_left _ hc, fun c hc => ?_⟩
      rw [Record.appended, Record.step, List.append_nil]
      exact hc
  | _ => exact ⟨fun c hc => hc, fun c hc => hc⟩

theorem record_mono (log more : List Action) :
    (∀ c ∈ (record log).covered, c ∈ (record (log ++ more)).covered) ∧
      ∀ c ∈ (record log).appended, c ∈ (record (log ++ more)).appended := by
  induction more generalizing log with
  | nil =>
      rw [List.append_nil]
      exact ⟨fun c hc => hc, fun c hc => hc⟩
  | cons a more ih =>
      obtain ⟨h1, h2⟩ := (record log).step_mono a
      obtain ⟨h3, h4⟩ := ih (log ++ [a])
      rw [record_snoc] at h3 h4
      rw [List.append_assoc, List.singleton_append] at h3 h4
      exact ⟨fun c hc => h3 c (h1 c hc), fun c hc => h4 c (h2 c hc)⟩

theorem sendable_mono (failing : Bool) (log more : List Action) {c : Command}
    (hc : c ∈ sendable failing log) :
    c ∈ sendable failing (log ++ more) := by
  cases failing with
  | false => exact (record_mono log more).1 c hc
  | true => exact (record_mono log more).2 c hc

theorem sendable_of_appended {failing : Bool} {log : List Action}
    (hcov : failing = false → (record log).pending = []) {c : Command}
    (hc : c ∈ (record log).appended) : c ∈ sendable failing log := by
  cases failing with
  | false => rwa [Record.appended, hcov rfl, List.append_nil] at hc
  | true => exact hc

theorem sendable_congr (failing : Bool) {log log' : List Action} (h : record log' = record log) :
    sendable failing log' = sendable failing log := by
  rw [sendable, sendable, h]

theorem record_datagrams (log : List Action) (out : List Sent) :
    record (log ++ out.map .datagram) = record log := by
  refine record_plain log fun a ha => ?_
  obtain ⟨x, _, rfl⟩ := List.mem_map.mp ha
  rfl

/-! ### The invariant of the publisher in the loop -/

/-- What a run of the publisher is compared with: its epoch, the seeded history, numbered from `lo`,
the first sequence number after what was announced before the run, and how far replicas may have
acknowledged. If `ring` holds, the staged commands always fit the ring; unless `failing`, nothing is
sent that the journal could lose. -/
structure Stage where
  ring : Prop
  failing : Bool
  epoch : UInt32
  lo : Nat
  start : Nat
  seeds : List Command
  top : Nat

structure Backed (S : Stage) (all : List Command) (p : Publisher) (log : List Action) : Prop where
  same : p.epoch = S.epoch
  keeps : Keeps p S.lo all
  start_le : S.start ≤ p.pendingFirst.toNat
  given : ∀ c ∈ all, c ∈ S.seeds ∨ c ∈ (record log).appended
  sentBefore : ∀ c ∈ all, c.seq.toNat < p.pendingFirst.toNat → c ∈ S.seeds ∨
    c ∈ sendable S.failing log
  carried : Always (DataFrom S.failing S.seeds) log
  announced : ∀ x, .datagram x ∈ log → x.datagram.header.epoch = S.epoch ∧
    Within p.pendingFirst.toNat x.datagram
  named : S.ring → ∀ x, .datagram x ∈ log → x.datagram.header.kind = .data → Named all x.datagram
  acked_le : p.acked.toNat ≤ S.top

section Publisher

variable {S : Stage} {all : List Command} {p p' : Publisher} {log : List Action}

theorem Backed.quiet (h : Backed S all p log) {acts : List Action}
    (hacts : ∀ a ∈ acts, ∀ x, a ≠ .datagram x) : Backed S all p (log ++ acts) where
  same := h.same
  keeps := h.keeps
  start_le := h.start_le
  given c hc := (h.given c hc).imp_right ((record_mono log acts).2 c)
  sentBefore c hc hlt := (h.sentBefore c hc hlt).imp_right (sendable_mono _ log acts)
  carried := by
    refine h.carried.append fun pre a ha => ?_
    have := hacts a ha
    cases a with
    | datagram x => exact absurd rfl (this x)
    | _ => trivial
  announced x hx := by
    rcases List.mem_append.mp hx with hx | hx
    · exact h.announced x hx
    · exact absurd rfl (hacts _ hx x)
  named hr x hx hk := by
    rcases List.mem_append.mp hx with hx | hx
    · exact h.named hr x hx hk
    · exact absurd rfl (hacts _ hx x)
  acked_le := h.acked_le

private theorem always_datagrams {failing : Bool} {seeds : List Command} {out : List Sent}
    (h : Always (DataFrom failing seeds) log)
    (hout : ∀ x ∈ out, x.datagram.header.kind = .data → ∀ c ∈ x.datagram.cmds,
      c ∈ seeds ∨ c ∈ sendable failing log) :
    Always (DataFrom failing seeds) (log ++ out.map .datagram) := by
  induction out generalizing log with
  | nil =>
      rw [List.map_nil, List.append_nil]
      exact h
  | cons x out ih =>
      have hrec : sendable failing (log ++ [Action.datagram x]) = sendable failing log :=
        sendable_congr failing (record_snoc log _)
      have hone : DataFrom failing seeds log (.datagram x) := hout x List.mem_cons_self
      have := ih (h.snoc hone) fun y hy => by
        rw [hrec]
        exact hout y (List.mem_cons_of_mem _ hy)
      rw [List.append_assoc] at this
      exact this

theorem Backed.flushed (h : Backed S all p log)
    (hcov : S.failing = false → (record log).pending = []) (hm : Moves p p')
    (hring : S.ring → p.staged ≤ p.ringSize) {out : List Sent}
    (hout : ∀ x ∈ out, Emits p all p.nextSeq.toNat x)
    (hend : out = [] ∨ p'.pendingFirst = p.nextSeq) :
    Backed S all p' (log ++ out.map .datagram) := by
  have hall : ∀ c ∈ all, c ∈ S.seeds ∨ c ∈ sendable S.failing log := fun c hc =>
    (h.given c hc).imp_right (sendable_of_appended hcov)
  have hpend := UInt64.le_iff_toNat_le.mp hm.pending
  refine ⟨hm.epoch.trans h.same, h.keeps.moved hm, Nat.le_trans h.start_le hpend,
    ?_, ?_, ?_, ?_, ?_, by rw [hm.acked]; exact h.acked_le⟩
  · rw [record_datagrams]
    exact h.given
  · rw [sendable_congr S.failing (record_datagrams log out)]
    exact fun c hc _ => hall c hc
  · exact always_datagrams h.carried fun x hx hk c hc => hall c ((hout x hx).cmds hk c hc)
  · intro x hx
    rcases List.mem_append.mp hx with hx | hx
    · obtain ⟨h1, h2⟩ := h.announced x hx
      exact ⟨h1, h2.mono hpend⟩
    · obtain ⟨y, hy, he⟩ := List.mem_map.mp hx
      cases he
      rcases hend with rfl | hend
      · cases hy
      · rw [hend]
        exact ⟨(hout x hy).epoch.trans h.same, (hout x hy).within⟩
  · intro hr x hx hk
    rcases List.mem_append.mp hx with hx | hx
    · exact h.named hr x hx hk
    · obtain ⟨y, hy, he⟩ := List.mem_map.mp hx
      cases he
      exact (hout x hy).named (hring hr) hk

theorem Backed.served (h : Backed S all p log) (hk : Keeps p' S.lo all) (hs : Served p p')
    (hack : p'.acked.toNat ≤ S.top) {out : List Sent}
    (hout : ∀ x ∈ out, Answers p all p.pendingFirst.toNat x) :
    Backed S all p' (log ++ out.map .datagram) := by
  refine ⟨hs.epoch.trans h.same, hk, ?_, ?_, ?_, ?_, ?_, ?_, hack⟩
  · rw [hs.pendingFirst]
    exact h.start_le
  · rw [record_datagrams]
    exact h.given
  · rw [sendable_congr S.failing (record_datagrams log out), hs.pendingFirst]
    exact h.sentBefore
  · refine always_datagrams h.carried fun x hx hk c hc => ?_
    obtain ⟨hmem, hlt⟩ := (hout x hx).before hk c hc
    exact h.sentBefore c hmem hlt
  · rw [hs.pendingFirst]
    intro x hx
    rcases List.mem_append.mp hx with hx | hx
    · exact h.announced x hx
    · obtain ⟨y, hy, he⟩ := List.mem_map.mp hx
      cases he
      exact ⟨(hout x hy).1.epoch.trans h.same, (hout x hy).1.within⟩
  · intro hr x hx hkind
    rcases List.mem_append.mp hx with hx | hx
    · exact h.named hr x hx hkind
    · obtain ⟨y, hy, he⟩ := List.mem_map.mp hx
      cases he
      exact (hout x hy).2 hkind

theorem Backed.staged (h : Backed S all p log) {c : Command} (hp : p.publish c = some p')
    (hb : c.seq.toNat + 1 < 2 ^ 63) (hc : c ∈ (record log).appended) :
    Backed S (all ++ [c]) p' log := by
  have hseq : c.seq = p.nextSeq := by
    by_contra hne
    rw [Publisher.publish, if_pos hne] at hp
    cases hp
  have hsame : p'.epoch = p.epoch ∧ p'.pendingFirst = p.pendingFirst := by
    rw [Publisher.publish, if_neg (not_not.mpr hseq)] at hp
    cases hp
    exact ⟨rfl, rfl⟩
  have hpend := h.keeps.pending_le
  refine ⟨hsame.1.trans h.same, h.keeps.published hp (by rw [← hseq]; exact hb), ?_, ?_, ?_,
    h.carried, ?_, ?_, by rw [Publisher.publish_acked hp]; exact h.acked_le⟩
  · rw [hsame.2]
    exact h.start_le
  · intro x hx
    rcases List.mem_append.mp hx with hx | hx
    · exact h.given x hx
    · rw [List.mem_singleton.mp hx]
      exact .inr hc
  · rw [hsame.2]
    intro x hx hlt
    rcases List.mem_append.mp hx with hx | hx
    · exact h.sentBefore x hx hlt
    · rw [List.mem_singleton.mp hx, hseq] at hlt
      omega
  · rw [hsame.2]
    exact h.announced
  · intro hr x hx hk
    obtain ⟨hlen, hget⟩ := h.named hr x hx hk
    refine ⟨hlen, fun i d hd => ?_⟩
    obtain ⟨hmem, hnum⟩ := hget i d hd
    exact ⟨List.mem_append_left _ hmem, hnum⟩

/-- A subscriber that has read what was sent so far, and of earlier days what the history holds,
asks for nothing beyond it. -/
theorem Backed.asks (h : Backed S all p log) {ds : List (Nat × Datagram)}
    (hconf : ∀ x ∈ ds, x.2.header.kind = .retransmit → x.2.header.epoch = S.epoch →
      Conforms S.epoch (fun d => (∃ dest, .datagram ⟨dest, d⟩ ∈ log) ∨ Within S.start d) x.2) :
    p.Asks p.pendingFirst.toNat ds := by
  have hb := Nat.lt_of_le_of_lt h.keeps.pending_le h.keeps.bounded
  intro x hx hk he
  rw [h.same] at he
  refine Conforms.within hb (fun d hd _ => ?_) (hconf x hx hk he) he
  rcases hd with ⟨dest, hd⟩ | hd
  · exact (h.announced _ hd).2
  · exact hd.mono h.start_le

end Publisher

/-! ### The publisher in the loop -/

structure Apart (s s' : State G) : Prop where
  pub : s'.repl.pub = s.repl.pub
  log : ∃ acts, s'.log = s.log ++ acts ∧ ∀ a ∈ acts, ∀ x, a ≠ .datagram x

theorem Apart.refl (s : State G) : Apart s s :=
  ⟨rfl, [], (List.append_nil _).symm, fun _ h => nomatch h⟩

theorem Apart.trans {s'' : State G} (h : Apart s s') (h' : Apart s' s'') : Apart s s'' := by
  obtain ⟨acts, hlog, hacts⟩ := h.log
  obtain ⟨acts', hlog', hacts'⟩ := h'.log
  refine ⟨h'.pub.trans h.pub, acts ++ acts', by rw [hlog', hlog, List.append_assoc], fun a ha => ?_⟩
  rcases List.mem_append.mp ha with ha | ha
  · exact hacts a ha
  · exact hacts' a ha

theorem apart_emit {a : Action} (ha : ∀ x, a ≠ .datagram x) (hpub : s'.repl.pub = s.repl.pub)
    (hlog : s'.log = s.log ++ [a]) : Apart s s' := by
  refine ⟨hpub, [a], hlog, fun b hb => ?_⟩
  rw [List.mem_singleton.mp hb]
  exact ha

theorem apart_silent (hpub : s'.repl.pub = s.repl.pub) (hlog : s'.log = s.log) : Apart s s' :=
  ⟨hpub, [], by rw [hlog, List.append_nil], fun _ h => nomatch h⟩

theorem apart_at (s : State G) (pc : Pc) : Apart s (s.at pc) := apart_silent rfl rfl

theorem apart_accept (s : State G) (fds : List Fd) : Apart s (accept s fds) := by
  induction fds generalizing s with
  | nil => exact .refl s
  | cons fd fds ih =>
      rw [accept]
      refine Apart.trans ?_ (ih _)
      exact apart_emit (a := .accept fd s.sessions.nextOwner) (by simp) rfl rfl

theorem apart_closeConn (s : State G) (fd : Fd) : Apart s (closeConn s fd) :=
  apart_emit (by simp) rfl rfl

theorem apart_tryWrite (s : State G) (fd : Fd) (answers : List SendResult) :
    Apart s (tryWrite s fd answers) := by
  rw [tryWrite]
  cases hc : s.sessions.conns fd with
  | none => exact .refl s
  | some c =>
      have hsend :
          Apart s (s.emit ((sendLoop c answers).2.map fun items =>
            .send fd items s.repl.acked s.repl.replicaLost)) := by
        refine ⟨rfl, _, rfl, fun a ha x hx => ?_⟩
        obtain ⟨items, _, rfl⟩ := List.mem_map.mp ha
        cases hx
      simp only
      cases (sendLoop c answers).1 with
      | none => exact hsend.trans (apart_closeConn _ fd)
      | some c' => exact hsend.trans (apart_silent rfl rfl)

theorem apart_writeTouched (s : State G) (fds : List Fd) (answers : List (List SendResult)) :
    Apart s (writeTouched s fds answers) := by
  induction fds generalizing s answers with
  | nil => exact .refl s
  | cons fd fds ih => exact (apart_tryWrite s fd _).trans (ih _ _)

theorem apart_haltWith (s : State G) (why : Halt) : Apart s (haltWith s why) :=
  apart_emit (by simp) rfl rfl

theorem apart_journalFlush (s : State G) (failed : Option Nat) :
    Apart s (journalFlush s failed).1 := by
  simp only [journalFlush]
  split
  · exact .refl s
  · cases failed with
    | none => exact apart_emit (a := .flush) (by simp) rfl rfl
    | some k => exact apart_emit (a := .halt .journalError) (by simp) rfl rfl

theorem apart_journalSync (s : State G) (failed : Option Nat) (fsync : Bool) :
    Apart s (journalSync s failed fsync).1 := by
  have hflush := apart_journalFlush s failed
  simp only [journalSync]
  split
  · exact hflush.trans (apart_emit (by simp) rfl rfl)
  · exact hflush

theorem apart_fenceCheck (s : State G) : Apart s (fenceCheck s) := by
  rcases fenceCheck_cases s with he | ⟨_, he⟩
  · rw [he]
    exact .refl s
  · rw [he]
    exact apart_haltWith s .fenced

theorem apart_onReady (s : State G) (fd : Fd) (w r : Bool) (rest : List Ready) (i : Input) :
    Apart s (onReady s fd w r rest i) := by
  rw [onReady]
  split
  · exact apart_at s _
  have hw : Apart s (if w = true then tryWrite s fd i.sends else s) := by
    split
    · exact apart_tryWrite s fd i.sends
    · exact .refl s
  generalize (if w = true then tryWrite s fd i.sends else s) = s1 at hw
  refine hw.trans ?_
  simp only
  cases s1.sessions.conns fd with
  | none => exact apart_at s1 _
  | some c =>
      simp only
      split
      · exact apart_at s1 _
      · cases i.received with
        | closed => exact (apart_closeConn s1 fd).trans (apart_at _ _)
        | again => exact apart_at s1 _
        | data p => exact apart_silent rfl rfl

theorem apart_stamp (s : State G) (fd : Fd) (owner : OwnerId) (off : Nat) (c : Command)
    (rest : List Ready) (i : Input) :
    Apart s (stamp cfg s fd owner off c rest i) := by
  simp only [stamp]
  split
  · exact apart_silent rfl rfl
  · cases i.append with
    | none => exact apart_emit (by simp) rfl rfl
    | some k => exact apart_emit (by simp) rfl rfl

theorem apart_read (s : State G) (fd : Fd) (off : Nat) (rest : List Ready) (i : Input) :
    Apart s (read cfg s fd off rest i) := by
  rw [read]
  cases s.sessions.conns fd with
  | none => exact apart_at s _
  | some c =>
      simp only
      cases Wire.next c.inp off with
      | wait => exact apart_silent rfl rfl
      | lost => exact (apart_closeConn s fd).trans (apart_at _ _)
      | skip n => exact apart_at s _
      | command cmd n => exact apart_stamp s fd c.owner (off + n) cmd rest i

theorem apart_publishMd (cfg : GatewayConfig) (desk : Desk G) (s : State G) :
    Apart s (publishMd cfg desk s) := by
  rw [publishMd]
  split
  · exact apart_emit (by simp) rfl rfl
  · exact .refl s

section Loop

variable {S : Stage}

/-- The staged commands fit the ring, if that is asked for. -/
def RingFits (ring : Prop) (s : State G) : Prop := ring → ∀ p, s.repl.pub = some p →
    p.staged ≤ p.ringSize

theorem RingFits.apart {ring : Prop} (h : RingFits ring s) (ha : Apart s s') :
    RingFits ring s' := by
  intro hr p hp
  rw [ha.pub] at hp
  exact h hr p hp

/-- The state of the loop has a publisher that is backed by the journal. -/
def BackedUp (S : Stage) (s : State G) : Prop :=
  ∃ p all, s.repl.pub = some p ∧ Backed S all p s.log

theorem BackedUp.apart (h : BackedUp S s) (ha : Apart s s') : BackedUp S s' := by
  obtain ⟨p, all, hp, hb⟩ := h
  obtain ⟨acts, hlog, hacts⟩ := ha.log
  refine ⟨p, all, by rw [ha.pub, hp], ?_⟩
  rw [hlog]
  exact hb.quiet hacts

theorem BackedUp.flush (h : BackedUp S s) (hring : RingFits S.ring s)
    (hcov : (record s.log).pending = []) (now : UInt64) :
    BackedUp S (publisherCall s fun p => p.flush now) := by
  obtain ⟨p, all, hp, hb⟩ := h
  obtain ⟨hm, _, hend⟩ := Publisher.flush_spec hb.keeps.pending_le now
  rw [publisherCall, hp]
  exact ⟨_, all, rfl, hb.flushed (fun _ => hcov) hm (fun hr => hring hr p hp)
    (hb.keeps.emits_flush now) (.inr hend)⟩

theorem BackedUp.heartbeat (h : BackedUp S s) (hring : RingFits S.ring s)
    (hcov : (record s.log).pending = []) (now interval : UInt64) :
    BackedUp S (publisherCall s fun p => p.heartbeatIfIdle now interval) := by
  obtain ⟨p, all, hp, hb⟩ := h
  obtain ⟨hm, hidle, hgo⟩ := Publisher.heartbeatIfIdle_spec hb.keeps.pending_le now interval
  rw [publisherCall, hp]
  refine ⟨_, all, rfl, hb.flushed (fun _ => hcov) hm (fun hr => hring hr p hp)
    (hb.keeps.emits_heartbeat now interval) ?_⟩
  cases hf : p.flushes (.heartbeat now interval) with
  | false => exact .inl (by rw [hidle hf])
  | true => exact .inr (hgo hf).1

theorem BackedUp.finish (h : BackedUp S s) (hring : RingFits S.ring s)
    (hcov : S.failing = false → (∀ p, s.repl.pub = some p → p.fenced = false) →
      (record s.log).pending = [])
    (now : UInt64) : BackedUp S (publisherCall s fun p => p.finish now) := by
  obtain ⟨p, all, hp, hb⟩ := h
  obtain ⟨hm, hidle, hgo⟩ := Publisher.finish_spec hb.keeps.pending_le now
  rw [publisherCall, hp]
  cases hfen : p.fenced with
  | true =>
      have hout : p.finish now = (p, []) := hidle (by simp [Publisher.flushes, hfen])
      simp only [hout, List.map_nil, State.emit, List.append_nil]
      exact ⟨p, all, rfl, hb⟩
  | false =>
      have hnone : S.failing = false → (record s.log).pending = [] :=
        fun hf => hcov hf fun p' hp' => by
        rw [hp] at hp'
        cases hp'
        exact hfen
      refine ⟨_, all, rfl, hb.flushed hnone hm (fun hr => hring hr p hp) (hb.keeps.emits_finish now)
        (.inr (hgo ?_).1)⟩
      simp [Publisher.flushes, hfen]

/-- What a replica may have read of this epoch: what the log says was sent, and earlier what the
history already holds. -/
def Heard (start : Nat) (log : List Action) (d : Datagram) : Prop :=
  (∃ dest, .datagram ⟨dest, d⟩ ∈ log) ∨ Within start d

/-- The retransmission requests among the control datagrams come from conforming subscribers. -/
def Asked (epoch : UInt32) (start : Nat) (log : List Action) (ds : List (Nat × Datagram)) : Prop :=
  ∀ x ∈ ds, x.2.header.kind = .retransmit → x.2.header.epoch = epoch →
    Conforms epoch (Heard start log) x.2

structure Listens (S : Stage) (s : State G) (control : List (Nat × Datagram)) : Prop where
  asks : ∀ p, s.repl.pub = some p → p.Asks p.pendingFirst.toNat control
  acks : ∀ x ∈ control, x.2.header.kind = .ack → x.2.header.epoch = S.epoch →
    x.2.header.firstSeq.toNat ≤ S.top

theorem BackedUp.service (h : BackedUp S s) (group : List Datagram)
    {control : List (Nat × Datagram)} (ok : Listens S s control) :
    BackedUp S (publisherCall s fun p => p.service group control) := by
  obtain ⟨p, all, hp, hb⟩ := h
  obtain ⟨hs, hout⟩ := hb.keeps.service_answers hb.keeps.pending_le group (ok.asks p hp)
  have hack := Publisher.service_acked_le group hb.acked_le fun x hx hk he => ok.acks x hx hk
    (he.trans hb.same)
  rw [publisherCall, hp]
  exact ⟨_, all, rfl, hb.served (hb.keeps.service group control).1 hs hack hout⟩

/-- What a step asks of the world around the gateway: the sequence counter is far from its end,
requests come from conforming subscribers, and the gateway does not shut down with commands in a
journal that has failed. -/
structure Orderly (epoch : UInt32) (start : Nat) (s : State G) (i : Input) : Prop where
  unwrapped : s.core.seq.toNat + 1 < 2 ^ 63
  control : Asked epoch start s.log i.control
  shutdown : s.pc = .shutdown → s.repl.journalFailed = true ∨ i.flush ≠ none →
    (∀ p, s.repl.pub = some p → p.fenced = false) → (record s.log).pending = []

structure Sound (S : Stage) (s : State G) (i : Input) : Prop where
  unwrapped : s.core.seq.toNat + 1 < 2 ^ 63
  control : Listens S s i.control
  shutdown : S.failing = false → s.pc = .shutdown → s.repl.journalFailed = true ∨ i.flush ≠ none →
    (∀ p, s.repl.pub = some p → p.fenced = false) → (record s.log).pending = []

theorem Orderly.sound {i : Input} (h : Orderly S.epoch S.start s i) (hback : BackedUp S s)
    (htop : 2 ^ 64 ≤ S.top) :
    Sound S s i := by
  obtain ⟨p, all, hp, hb⟩ := hback
  refine ⟨h.unwrapped, ⟨fun p' hp' => ?_, fun x _ _ _ => ?_⟩, fun _ => h.shutdown⟩
  · obtain rfl : p = p' := Option.some.inj (hp.symm.trans hp')
    exact hb.asks h.control
  · exact Nat.le_trans (Nat.le_of_lt (UInt64.toNat_lt _)) htop

theorem BackedUp.handle {desk : Desk G} (h : BackedUp S s) {c : Command}
    (hc : c ∈ (record s.log).appended) (hb : c.seq.toNat + 1 < 2 ^ 63) (fd : Fd) (off : Nat)
    (clientSeq : UInt64) (clientId : OrderId) (rest : List Ready) (i : Input) :
    BackedUp S (handle cfg desk s fd off clientSeq clientId c rest i) := by
  obtain ⟨p, all, hp, hback⟩ := h
  simp only [Gateway.handle, hp]
  cases hpub : p.publish c with
  | none => exact ⟨p, all, hp, hback⟩
  | some p' =>
      have hstaged : BackedUp S { s with repl.pub := some p' } :=
        ⟨p', all ++ [c], rfl, hback.staged hpub hb hc⟩
      simp only [Option.map_some]
      cases desk.process s.core.gate c with
      | none => exact hstaged.apart (apart_at _ _)
      | some r =>
          obtain ⟨g, events⟩ := r
          simp only
          have hdone : BackedUp S
              (deliver cfg desk { s with repl.pub := some p' } fd clientSeq clientId c g events) :=
            hstaged.apart (apart_emit (a := .process fd c events) (by simp) rfl rfl)
          generalize deliver cfg desk { s with repl.pub := some p' } fd clientSeq clientId c g
            events = s2 at hdone
          have hsince :
              BackedUp S { s2 with repl.sinceSync := (syncDue cfg s2.repl.sinceSync).2 } :=
            hdone.apart (apart_silent rfl rfl)
          generalize ({ s2 with repl.sinceSync := (syncDue cfg s2.repl.sinceSync).2 } : State G) =
            s3 at hsince
          split
          · have hsync := hsince.apart (apart_journalSync s3 i.flush i.fsync)
            split
            · exact hsync.apart (apart_at _ _)
            · exact hsync.apart (apart_at _ _)
          · exact hsince.apart (apart_at _ _)

theorem BackedUp.commit {P : Prop} (h : BackedUp S s) (hring : RingFits S.ring s)
    (held : Held cfg P base s) (i : Input) :
    BackedUp S (commit cfg s i) := by
  simp only [Gateway.commit]
  split
  swap
  · exact h.apart (apart_at _ _)
  have h1 := h.apart (apart_journalFlush s i.flush)
  have hring1 := hring.apart (apart_journalFlush s i.flush)
  obtain ⟨_, _, _, hdone, _⟩ := held.journalFlush i.flush
  split
  swap
  · exact h1.apart (apart_at _ _)
  rename_i hok
  obtain ⟨hpending, _⟩ := hdone hok
  generalize (journalFlush s i.flush).1 = s1 at h1 hring1 hpending
  cases s1.repl.pub with
  | none => exact h1.apart (apart_at _ _)
  | some p =>
      simp only
      have h2 : BackedUp S (if p.fenced = true then s1 else publisherCall s1 fun p =>
        p.flush i.flushNow) := by
        split
        · exact h1
        · exact h1.flush hring1 hpending i.flushNow
      generalize (if p.fenced = true then s1 else publisherCall s1 fun p => p.flush i.flushNow) =
        s2 at h2
      split
      · exact h2.apart (apart_at _ _)
      · exact h2.apart (apart_at _ _)

theorem BackedUp.expire (h : BackedUp S s) {i : Input} (ok : Listens S s i.control) :
    BackedUp S (expire cfg s i) := by
  have h1 : BackedUp S (serviceAndCheck s i.group i.control) :=
    (h.service i.group ok).apart (apart_fenceCheck _)
  rw [Gateway.expire]
  generalize serviceAndCheck s i.group i.control = s1 at h1
  simp only
  split
  · exact h1.apart (apart_at _ _)
  split
  · exact h1.apart ((apart_haltWith s1 .replicaLost).trans (apart_at _ _))
  · exact h1.apart (apart_emit (a := .replicaLost) (by simp) rfl rfl)

theorem RingFits.service {ring : Prop} (h : RingFits ring s) (hback : BackedUp S s)
    (group : List Datagram) {control : List (Nat × Datagram)} (ok : Listens S s control) :
    RingFits ring (publisherCall s fun p => p.service group control) := by
  obtain ⟨p, all, hp, hb⟩ := hback
  obtain ⟨hs, _⟩ := hb.keeps.service_answers hb.keeps.pending_le group (ok.asks p hp)
  intro hr p' hp'
  simp only [publisherCall, hp, State.emit, Option.some.injEq] at hp'
  rw [← hp', Publisher.staged, Publisher.ringSize, hs.nextSeq, hs.pendingFirst, hs.ringLog2]
  exact h hr p hp

theorem BackedUp.waitPass (h : BackedUp S s) (hring : RingFits S.ring s)
    (hpending : (record s.log).pending = []) {i : Input} (ok : Sound S s i) (since : UInt64) :
    BackedUp S (waitPass cfg s since i) := by
  rw [Gateway.waitPass]
  split
  · exact h.apart (apart_at _ _)
  have h1 := h.service i.group ok.control
  have hring1 := hring.service h i.group ok.control
  have q := service_quietly s i.group i.control
  have hpending1 := (congrArg Record.pending q.record).trans hpending
  generalize (publisherCall s fun p => p.service i.group i.control) = s1 at h1 hring1 hpending1
  simp only
  split
  · exact h1.apart (apart_at _ _)
  have hcheck := apart_fenceCheck s1
  have h2 := h1.apart hcheck
  have hring2 := hring1.apart hcheck
  have hpending2 : (record (fenceCheck s1).log).pending = [] := by
    rcases fenceCheck_cases s1 with he | ⟨_, he⟩
    · rw [he]
      exact hpending1
    · rw [he, record_haltWith]
      exact hpending1
  generalize fenceCheck s1 = s2 at h2 hring2 hpending2
  split
  · exact h2.apart (apart_at _ _)
  split
  · exact h2.apart (apart_at _ _)
  · exact (h2.heartbeat hring2 hpending2 i.now 2000000).apart (apart_at _ _)

theorem BackedUp.release (desk : Desk G) (h : BackedUp S s) (hring : RingFits S.ring s)
    (hpending : s.repl.halted = none → (record s.log).pending = []) (i : Input) :
    BackedUp S (release cfg desk s i) := by
  rw [Gateway.release]
  split
  · exact h.apart (apart_emit (a := .closeAll) (by simp) rfl rfl)
  rename_i hrun
  rw [not_not] at hrun
  have hone : Apart s (State.emit { s with released := s.core.seq } [.commit]) :=
    apart_emit (a := .commit) (by simp) rfl rfl
  have h1 := h.apart hone
  have hring1 := hring.apart hone
  have hpending1 :
      (record (State.emit { s with released := s.core.seq } [.commit]).log).pending = [] := by
    change (record (s.log ++ [_])).pending = []
    rw [record_snoc]
    exact hpending hrun
  generalize State.emit { s with released := s.core.seq } [.commit] = s1 at h1 hring1 hpending1
  have h2 := h1.apart (apart_publishMd cfg desk s1)
  have hring2 := hring1.apart (apart_publishMd cfg desk s1)
  have hpending2 :=
    (congrArg Record.pending (publishMd_quietly cfg desk s1).1.record).trans hpending1
  simp only
  generalize publishMd cfg desk s1 = s2 at h2 hring2 hpending2
  have h3 := h2.heartbeat hring2 hpending2 i.now 20000000
  generalize (publisherCall s2 fun p => p.heartbeatIfIdle i.now 20000000) = s3 at h3
  exact (h3.apart (apart_writeTouched s3 _ i.writes)).apart (apart_at _ _)

theorem journalSync_pending (s : State G) (failed : Option Nat) (fsync : Bool) :
    (record (journalSync s failed fsync).1.log).pending = [] ∨
      ((s.repl.journalFailed = true ∨ failed ≠ none) ∧
        record (journalSync s failed fsync).1.log = record s.log) := by
  by_cases hfail : s.repl.journalFailed = true
  · have hdef : journalSync s failed fsync = (s, false) := by
      simp [journalSync, journalFlush, hfail]
    rw [hdef]
    exact .inr ⟨.inl hfail, rfl⟩
  · cases failed with
    | some k =>
        refine .inr ⟨.inr (by simp), ?_⟩
        simp only [journalSync, journalFlush, hfail, Bool.false_eq_true, if_false, false_and]
        exact record_haltWith _ .journalError
    | none =>
        left
        have hflushed : (record (s.log ++ [Action.flush])).pending = [] := by
          rw [record_snoc]
          rfl
        simp only [journalSync, journalFlush, hfail, Bool.false_eq_true, if_false]
        split
        · rw [record_haltWith]
          exact hflushed
        · exact hflushed

theorem BackedUp.shutdown (h : BackedUp S s) (hring : RingFits S.ring s) {i : Input}
    (hpc : s.pc = .shutdown) (ok : Sound S s i) : BackedUp S (shutdown s i) := by
  have ha := apart_journalSync s i.flush i.fsync
  have h1 := h.apart ha
  rw [Gateway.shutdown]
  refine (h1.finish (hring.apart ha) (fun hf hfen => ?_) i.now).apart (apart_at _ _)
  rcases journalSync_pending s i.flush i.fsync with hnone | ⟨hbad, hsame⟩
  · exact hnone
  · rw [hsame]
    refine ok.shutdown hf hpc hbad fun p hp => hfen p ?_
    rw [ha.pub]
    exact hp

theorem BackedUp.step {P : Prop} (desk : Desk G) (inv : Inv cfg P base s) (h : BackedUp S s)
    (hring : RingFits S.ring s) {i : Input} (ok : Sound S s i) :
    BackedUp S (step cfg desk s i) := by
  obtain ⟨held, placed⟩ := inv
  rw [Placed] at placed
  rw [Gateway.step]
  cases hpc : s.pc with
  | poll =>
      simp only
      split
      · exact h.apart (apart_at _ _)
      · exact h.apart (apart_emit (a := .poll) (by simp) rfl rfl)
  | batch rest =>
      cases rest with
      | nil => exact h.commit hring held i
      | cons e rest =>
          cases e with
          | listener => exact h.apart ((apart_accept s i.accepted).trans (apart_at _ _))
          | control =>
              exact (h.service i.group ok.control).apart ((apart_fenceCheck _).trans (apart_at _ _))
          | conn fd w r => exact h.apart (apart_onReady s fd w r rest i)
  | reading fd off rest => exact h.apart (apart_read s fd off rest i)
  | logged fd off clientSeq clientId c rest =>
      rw [hpc] at placed
      have hc := record_batch_subset s.log c placed
      have hseq := UInt64.le_iff_toNat_le.mp (held.numbered c hc)
      have hb : c.seq.toNat + 1 < 2 ^ 63 := Nat.lt_of_le_of_lt (Nat.succ_le_succ hseq) ok.unwrapped
      exact h.handle hc hb fd off clientSeq clientId rest i
  | waiting since =>
      rw [hpc] at placed
      exact h.waitPass hring placed ok since
  | expiring => exact h.expire ok.control
  | release =>
      rw [hpc] at placed
      exact h.release desk hring (fun hrun => (placed hrun).1) i
  | shutdown => exact h.shutdown hring hpc ok
  | stopped => exact h
  | crashed => exact h

theorem BackedUp.run (desk : Desk G) (inv : Inv cfg False base s) (h : BackedUp S s)
    (hring : S.ring = False) (htop : 2 ^ 64 ≤ S.top) (is : List Input)
    (ok : ∀ pre i, pre ++ [i] <+: is → Orderly S.epoch S.start (run cfg desk s pre) i) :
    Inv cfg False base (run cfg desk s is) ∧ BackedUp S (run cfg desk s is) := by
  induction is generalizing s with
  | nil => exact ⟨inv, h⟩
  | cons i is ih =>
      have hok := ok [] i (by simp)
      have inv' := inv.step desk (Nat.lt_trans hok.unwrapped (by decide)) (fun hf => nomatch hf) i
      refine ih inv' (h.step desk inv (fun hf => absurd hf (by simp [hring])) (hok.sound h htop))
        fun pre j hpre => ?_
      exact ok (i :: pre) j (List.cons_prefix_cons.mpr ⟨rfl, hpre⟩)

end Loop

theorem backedUp_start (ring : Prop) (failing : Bool) {top : Nat} (gate : G)
    (journal : Journal.JournalWriter) {ringLog2 : Nat} {coins : Nat → Bool} {epoch : UInt32}
    {seq : UInt64} {first : Nat} (hfirst : 1 ≤ first) {seeds : List Command}
    (hnext : seq.toNat + 1 = first + seeds.length) (hsmall : seq.toNat + 1 < 2 ^ 63)
    (hseeds : ∀ i c, seeds[i]? = some c → c.seq.toNat = first + i) {pub : Publisher}
    (hpub : (Publisher.make ringLog2 coins (seq + 1) epoch).seedAll seeds = some pub)
    (htop : seq.toNat ≤ top) (digest : List Event) (nextOwner : OwnerId)
    (firstExchangeId : OrderId) :
    BackedUp ⟨ring, failing, epoch, first, seq.toNat + 1, seeds, top⟩
      (Gateway.start gate journal (some pub) digest seq nextOwner firstExchangeId) := by
  have hsucc : (seq + 1).toNat = seq.toNat + 1 := by
    rw [UInt64.toNat_add, UInt64.toNat_one]
    omega
  obtain ⟨p, hp, hkeep, _⟩ :=
    Publisher.seedAll_spec (p := Publisher.make ringLog2 coins (seq + 1) epoch) hfirst
    hseeds [] rfl (by change (seq + 1).toNat = _; omega)
      (by change (seq + 1).toNat < _; omega) rfl rfl
    (Lib.Ring.holds_empty _ _ _ _)
  obtain rfl : pub = p := Option.some.inj (hpub.symm.trans hp)
  obtain ⟨hepoch, hpend, hacked⟩ := Publisher.seedAll_same hpub
  have hack : pub.acked = seq := by
    rw [hacked]
    change seq + 1 - 1 = seq
    grind
  refine ⟨pub, seeds, rfl, hepoch, hkeep, ?_, fun c hc => .inl hc, fun c hc _ =>
    .inl hc, Lib.always_nil,
    fun x hx => (nomatch hx), fun _ x hx => (nomatch hx), by rw [hack]; exact htop⟩
  rw [hpend]
  exact Nat.le_of_eq hsucc.symm

/-- In every orderly run each command of a data datagram is seeded history, which the journal held
at the start, or has been covered by a successful flush before the datagram is sent. -/
theorem backup_holds_only_journaled (cfg : GatewayConfig) (desk : Desk G) (gate : G)
    (journal : Journal.JournalWriter) (ringLog2 : Nat) (coins : Nat → Bool) (epoch : UInt32)
    (seq : UInt64) (first : Nat) (seeds : List Command) (hfirst : 1 ≤ first)
    (hnext : seq.toNat + 1 = first + seeds.length)
    (hseeds : ∀ i c, seeds[i]? = some c → c.seq.toNat = first + i) (pub : Publisher)
    (hpub : (Publisher.make ringLog2 coins (seq + 1) epoch).seedAll seeds = some pub)
    (digest : List Event) (nextOwner : OwnerId) (firstExchangeId : OrderId) (is : List Input)
    (hsmall : seq.toNat + 1 < 2 ^ 63)
    (orderly : ∀ pre i, pre ++ [i] <+: is → Orderly epoch (seq.toNat + 1)
      (run cfg desk (start gate journal (some pub) digest seq nextOwner firstExchangeId) pre) i) :
    Always (DataOk seeds)
      (run cfg desk (start gate journal (some pub) digest seq nextOwner firstExchangeId)
        is).log := by
  have hinv : Inv cfg False seq
      (start gate journal (some pub) digest seq nextOwner firstExchangeId) :=
    Inv.start gate journal digest seq nextOwner firstExchangeId fun _ => rfl
  have htop : seq.toNat ≤ 2 ^ 64 := Nat.le_of_lt seq.toNat_lt
  have hback :=
    backedUp_start False false gate journal hfirst hnext hsmall hseeds hpub htop digest
      nextOwner firstExchangeId
  obtain ⟨_, p, all, _, hb⟩ := hback.run desk hinv rfl (Nat.le_refl _) is orderly
  exact fun pre a post hlog => (hb.carried pre a post hlog).ok

/-! ### A journal that fails -/

def smallPublisher : Publisher := .make 2 (fun _ => false) 1 1

/-- A session enters an order; the batch is committed and the gateway is stopped. -/
def oneOrder : List Input :=
  [{ ready := [.listener] }, { accepted := [3] }, idle, idle, { ready := [.conn 3 false true] },
    { received := .data (Wire.encode (smallOrder 7 .sell 2)) }, idle, idle, idle, idle,
    { writes := [[.sent 1000]] },
    { stop := true }, idle]

/-- The retransmission requests are absent, and what `Orderly` says about a shutdown can be
checked. -/
def orderlyHere (s : State G) (i : Input) : Bool :=
  s.core.seq.toNat + 1 < 2 ^ 63 && i.control.isEmpty &&
    (decide (s.pc ≠ .shutdown) || (!s.repl.journalFailed && i.flush.isNone) ||
      (record s.log).pending.isEmpty)

theorem orderly_of_here {epoch : UInt32} {start : Nat} {s : State G} {i : Input}
    (h : orderlyHere s i = true) :
    Orderly epoch start s i := by
  simp only [orderlyHere, Bool.and_eq_true, Bool.or_eq_true, decide_eq_true_eq,
    List.isEmpty_iff] at h
  obtain ⟨⟨h1, h2⟩, h4⟩ := h
  refine ⟨h1, ?_, fun hpc hbad _ => ?_⟩
  · rw [h2]
    exact fun x hx => nomatch hx
  · rcases h4 with (h4 | h4) | h4
    · exact absurd hpc h4
    · simp at h4
      rcases hbad with hbad | hbad
      · rw [h4.1] at hbad
        cases hbad
      · exact absurd h4.2 hbad
    · exact h4

theorem backup_holds_only_journaled_small :
    (∀ pre i, pre ++ [i] <+: oneOrder → Orderly 1 1
      (run {} desk (start smallGate .create (some smallPublisher) [] 0 1 1) pre) i) ∧
      Always (DataOk []) (run {} desk
        (start smallGate .create (some smallPublisher) [] 0 1 1) oneOrder).log := by
  have orderly : ∀ pre i, pre ++ [i] <+: oneOrder → Orderly 1 1
      (run {} desk (start smallGate .create (some smallPublisher) [] 0 1 1) pre) i := by
    have hall : ∀ pre ∈ oneOrder.inits, pre = [] ∨ orderlyHere (run {} desk
        (start smallGate .create (some smallPublisher) [] 0 1 1) pre.dropLast)
            (pre.getLastD idle) = true := by
      decide +kernel
    intro pre i hpre
    rcases hall (pre ++ [i]) ((List.mem_inits _ _).mpr hpre) with hnil | hok
    · simp at hnil
    · rw [List.dropLast_concat, List.getLastD_concat] at hok
      exact orderly_of_here hok
  exact ⟨orderly, backup_holds_only_journaled {} desk smallGate .create 2 (fun _ => false) 1 0 1 []
    (by decide) (by decide)
    (fun i c hc => nomatch hc) smallPublisher rfl [] 1 1 oneOrder (by decide) orderly⟩

/-- The flush of the commit fails. -/
def failedFlush : List Input :=
  [{ ready := [.listener] }, { accepted := [3] }, idle, idle, { ready := [.conn 3 false true] },
    { received := .data (Wire.encode (smallOrder 7 .sell 2)) }, idle, idle, idle,
    { flush := some 0 }, idle, idle]

/-- The end of the stream sends the command that is not in the journal. -/
theorem sends_unjournaled :
    ¬ Always (DataOk []) (run {} desk (start smallGate .create (some smallPublisher) [] 0 1 1)
      failedFlush).log := by
  intro h
  have hsent :
    ∃ c pre post, (run {} desk (start smallGate .create (some smallPublisher) [] 0 1 1)
      failedFlush).log =
      pre ++ .datagram ⟨.group, ⟨Stream.header .data 1 1 1, [c]⟩⟩ :: post ∧
      (record pre).covered = [] := by
    let log := (run {} desk (start smallGate .create (some smallPublisher) [] 0 1 1)
      failedFlush).log
    exact ⟨{ smallOrder 7 .sell 2 with orderId := 1, owner := 1 }, log.take 8,
      log.drop 9, by decide +kernel, by decide +kernel⟩
  obtain ⟨c, pre, post, hlog, hnone⟩ := hsent
  have hcov : c ∈ [] ∨ c ∈ (record pre).covered := h pre _ post hlog rfl c List.mem_cons_self
  rw [hnone] at hcov
  simp at hcov

end ExchangeSim.Gateway
