/- digest: A hot backup: it follows the stream into its own journal, acknowledges what is flushed,
   and may promote itself to a primary. -/

import ExchangeSim.Gateway.Backup

set_option autoImplicit false
set_option relaxedAutoImplicit false

namespace ExchangeSim.Gateway

open Journal (JournalWriter)
open ExchangeSim.Stream (Publisher Subscriber Datagram Within)
open ExchangeSim.Stream.Subscriber (InStep Informed slice)

structure ReplicaConfig where
  /-- There is a port to serve on after a promotion. -/
  standby : Bool := true
  silenceNs : UInt64 := 300000000
  /-- There is a control port to publish from after a promotion. -/
  publishes : Bool := true
  ringLog2 : Nat := 20
  /-- The gateway's options after a promotion. -/
  promoted : GatewayConfig := {}

/-- Where the replica's loop is. -/
inductive Phase (G : Type) where
  | following
  /-- It has polled and got some commands. -/
  | settling (got : Nat)
  | stopped
  | promoted (s : State G)

/-- `applied` and `flushed` are not part of the program: the commands of the journal in order, and
how many of them are flushed. -/
structure Replica (G : Type) where
  sub : Subscriber
  gate : G
  digest : List Event := []
  journal : JournalWriter
  seq : UInt64 := 0
  maxOwner : OwnerId := 0
  maxOrderId : OrderId := 0
  lastAck : UInt64 := 0
  phase : Phase G := .following
  applied : List Command := []
  flushed : Nat := 0

structure ReplicaInput where
  stop : Bool := false
  datagrams : List (UInt64 × Datagram) := []
  asked : UInt64 := 0
  now : UInt64 := 0
  /-- The journal's flush or sync succeeds. -/
  flushes : Bool := true
  /-- What a promoted replica's gateway reads. -/
  gateway : Input := {}

namespace Replica

variable {G : Type} (rcfg : ReplicaConfig) (desk : Desk G)

/-- `apply`; `none` where the engine would break its own invariants. -/
def apply (r : Replica G) (c : Command) : Option (Replica G) :=
  (desk.process r.gate c).map fun (g, events) => { r with
    journal := r.journal.append c
    gate := g
    digest := r.digest ++ events
    seq := c.seq
    maxOwner := if r.maxOwner < c.owner then c.owner else r.maxOwner
    maxOrderId := if r.maxOrderId < c.orderId then c.orderId else r.maxOrderId
    applied := r.applied ++ [c] }

def applyAll (r : Replica G) (cs : List Command) : Option (Replica G) := cs.foldlM (apply desk) r

def flush (r : Replica G) : Replica G :=
  { r with journal := r.journal.flush, flushed := r.applied.length }

/-- A replica that starts from the commands of a copied journal, or from none. -/
def start (gate : G) (copy : List Command) : Option (Replica G) :=
  let empty : Replica G := { sub := .make 1 1, gate := gate, journal := .create }
  (copy.foldlM (fun r c => if c.seq = r.seq + 1 then apply desk r c else some r) empty).map fun r =>
    { r.flush with sub := .make (r.seq + 1) 1 }

/-- Both sockets are drained, and a gap is asked for. -/
def poll (r : Replica G) (i : ReplicaInput) : Replica G × List Datagram :=
  let (sub, cmds) := r.sub.receiveAll i.datagrams
  match applyAll desk { r with sub := sub } cmds with
  | none => ({ r with sub := sub, phase := .stopped }, [])
  | some r =>
      let (sub, req) := r.sub.requestGap i.asked
      ({ r with sub := sub, phase := .settling cmds.length }, req.toList)

/-- The replica becomes a primary with everything it has, under the next epoch. -/
def promote (r : Replica G) : Replica G :=
  let r := r.flush
  let pub := if rcfg.publishes then
      match Journal.journalScan (r.journal.file.length + 1) r.journal.file with
      | some (.ok s) =>
          ((Publisher.make rcfg.ringLog2 (fun _ => false) (r.seq + 1) (r.sub.epoch + 1)).seedAll
            s.delivered).map some
      | _ => none
    else some none
  match pub with
  | none => { r with phase := .stopped }
  | some pub =>
      let s := Gateway.start r.gate r.journal pub r.digest r.seq (r.maxOwner + 1) (r.maxOrderId + 1)
      { r with phase := .promoted s }

/-- What is appended is flushed and acknowledged; then the replica goes on, stops or promotes
itself. -/
def settle (r : Replica G) (got : Nat) (i : ReplicaInput) : Replica G × List Datagram :=
  let due : Bool := 0 < got ∨ 5000000 < i.now - r.lastAck
  if 0 < got ∧ ¬ i.flushes then ({ r with phase := .stopped }, [])
  else
    let r := if 0 < got then r.flush else r
    let acks := if due then (r.sub.ack r.seq).toList else []
    let r := if due then { r with lastAck := i.now } else r
    if r.sub.unavailable ∨ r.sub.superseded ∨ r.sub.hasEnded then
      ({ r with phase := .stopped }, acks)
    else if rcfg.standby ∧ r.sub.epoch ≠ 0 ∧ rcfg.silenceNs < i.now - r.sub.lastHeard then
      (if i.flushes then r.promote rcfg else { r with phase := .stopped }, acks)
    else ({ r with phase := .following }, acks)

/-- A turn; the datagrams go to the primary's control socket. -/
def step (r : Replica G) (i : ReplicaInput) : Replica G × List Datagram :=
  match r.phase with
  | .following => if i.stop then ({ r.flush with phase := .stopped }, []) else poll desk r i
  | .settling got => settle rcfg r got i
  | .stopped => (r, [])
  | .promoted s => ({ r with phase := .promoted (Gateway.step rcfg.promoted desk s i.gateway) }, [])

/-- The commands of the replica's journal, with those it has sequenced itself. -/
def journaled (r : Replica G) : List Command :=
  match r.phase with
  | .promoted s => r.applied ++ (record s.log).appended
  | _ => r.applied

def isPromoted (r : Replica G) : Bool :=
  match r.phase with
  | .promoted _ => true
  | _ => false

/-! ### Following a journal -/

/-- The command with sequence number `n` of a journal that is numbered from 1. -/
def nth (J : List Command) : Nat → Command
  | 0 => Publisher.blank
  | n + 1 => J.getD n Publisher.blank

/-- The commands of a journal are numbered from 1. -/
def Numbered (J : List Command) : Prop := ∀ i c, J[i]? = some c → c.seq.toNat = i + 1

theorem slice_nth {J : List Command} {n : Nat} (h : n ≤ J.length) :
    slice (nth J) 1 n = J.take n := by
  refine List.ext_getElem? fun i => ?_
  rw [slice, List.getElem?_map, List.getElem?_take]
  by_cases hi : i < n
  · rw [List.getElem?_range hi, if_pos hi, Option.map_some, Nat.add_comm, nth]
    simp [Nat.lt_of_lt_of_le hi h]
  · rw [if_neg hi, List.getElem?_eq_none (by simpa using hi)]
    rfl

/-- What a data datagram says about the journal. -/
def Tells (J : List Command) (d : Datagram) : Prop :=
  d.header.kind = .data → d.cmds = slice (nth J) d.header.firstSeq.toNat d.header.count.toNat ∧
    d.header.firstSeq.toNat + d.header.count.toNat ≤ 2 ^ 63

structure Tracks (e : UInt32) (J : List Command) (bound : Nat) (s : Subscriber)
    (out : List Command) : Prop where
  inStep : InStep (nth J) 1 s out
  informed : Informed e bound s
  expected_le : s.expected.toNat ≤ J.length + 1
  epoch : s.epoch = 0 ∨ s.epoch = e

variable {e : UInt32} {J : List Command} {bound : Nat} {s : Subscriber} {out : List Command}
    {r r' : Replica G}

theorem Tracks.length (h : Tracks e J bound s out) : out.length + 1 = s.expected.toNat := by
  have := h.inStep.start_le
  rw [h.inStep.passed, Subscriber.slice_length]
  omega

theorem Tracks.out_prefix (h : Tracks e J bound s out) : out <+: J := by
  have hlen := h.length
  have hle := h.expected_le
  have hpass := h.inStep.passed
  rw [slice_nth (by omega)] at hpass
  rw [hpass]
  exact List.take_prefix _ _

theorem InStep.grow {J' : List Command} (h : InStep (nth J) 1 s out)
    (hexp : s.expected.toNat ≤ J.length + 1)
    (hst : ∀ x ∈ s.stash, x.1.toNat + x.2.length ≤ J.length + 1) (hpre : J <+: J') :
    InStep (nth J') 1 s out := by
  obtain ⟨more, rfl⟩ := hpre
  have hslice : ∀ a n, a + n ≤ J.length + 1 → slice (nth (J ++ more)) a n = slice (nth J) a n := by
    intro a n hle
    refine List.map_congr_left fun i hi => ?_
    rw [List.mem_range] at hi
    cases hn : a + i with
    | zero => rfl
    | succ m =>
        rw [nth, nth, List.getD, List.getD, List.getElem?_append_left (by omega)]
  refine ⟨h.start_le, ?_, fun x hx => ?_⟩
  · have := h.start_le
    rw [hslice _ _ (by omega)]
    exact h.passed
  · obtain ⟨h1, h2⟩ := h.waiting x hx
    exact ⟨by rw [hslice _ _ (hst x hx)]; exact h1, h2⟩

theorem Tracks.grow {bound' : Nat} {J' : List Command} (h : Tracks e J bound s out)
    (hJ : bound ≤ J.length + 1) (hpre : J <+: J') (hle : bound ≤ bound') :
    Tracks e J' bound' s out := by
  have hlen := hpre.length_le
  have hexp := h.expected_le
  refine ⟨?_, h.informed.mono hle, by omega, h.epoch⟩
  refine InStep.grow h.inStep h.expected_le (fun x hx => ?_) hpre
  rcases h.epoch with hz | he
  · rw [(h.informed.fresh hz).2] at hx
    cases hx
  · exact Nat.le_trans ((h.informed.knows he).stash x hx) hJ

theorem heed_expected (s : Subscriber) (d : Datagram) :
    (s.heed d).1.expected = s.expected ∨ (s.heed d).1.expected ≤ (s.heed d).1.knownNext := by
  have hdeliver : ∀ (s : Subscriber) k cmds,
      (s.deliver k cmds).1.expected ≤ (s.deliver k cmds).1.knownNext := by
    intro s k cmds
    rw [UInt64.le_iff_toNat_le]
    simp only [Subscriber.deliver, Stream.toNat_max]
    omega
  have hdrain : ∀ (st : Stream.Stash) (s : Subscriber), s.expected ≤ s.knownNext →
      (s.drainStash st).1.expected ≤ (s.drainStash st).1.knownNext := by
    intro st
    induction st with
    | nil => exact fun s hs => hs
    | cons x rest ih =>
        intro s hs
        obtain ⟨k, cmds⟩ := x
        rw [Subscriber.drainStash]
        split
        · split
          · exact ih _ (hdeliver s k cmds)
          · exact ih s hs
        · exact hs
  rw [Subscriber.heed]
  cases d.header.kind with
  | data =>
      simp only [Subscriber.onData]
      split
      · exact .inl rfl
      split
      · exact .inl rfl
      split
      · exact .inl rfl
      · exact .inr (hdrain _ _ (hdeliver s _ _))
  | heartbeat => exact .inl rfl
  | endOfStream => exact .inl rfl
  | retransmit => exact .inl rfl
  | ack => exact .inl rfl
  | unavailable => exact .inl rfl

structure Genuine (e : UInt32) (J : List Command) (bound : Nat) (d : Datagram) : Prop where
  epoch : d.header.epoch = e
  within : Within bound d
  tells : Tells J d

theorem Tracks.receive (h : Tracks e J bound s out) (hb : bound < 2 ^ 63)
    (hJ : bound ≤ J.length + 1) (now : UInt64) {d : Datagram}
    (hd : Genuine e J bound d) :
    Tracks e J bound (s.receive now d).1 (out ++ (s.receive now d).2) := by
  have hinf := h.informed.receive hb now fun _ => hd.within
  rcases Subscriber.receive_cases s now d with ⟨heq, _⟩ | ⟨_, _, _, _, heq⟩ | ⟨_, _, _, heq⟩
  · rw [heq, List.append_nil]
    exact h
  · rw [heq] at hinf ⊢
    rw [List.append_nil]
    exact ⟨⟨h.inStep.start_le, h.inStep.passed, h.inStep.waiting⟩, hinf, h.expected_le, h.epoch⟩
  · rw [heq] at hinf ⊢
    have hstep :
        InStep (nth J) 1 ({ s with epoch := d.header.epoch, lastHeard := now } : Subscriber) out :=
      ⟨h.inStep.start_le, h.inStep.passed, h.inStep.waiting⟩
    have hsame := Subscriber.heed_same { s with epoch := d.header.epoch, lastHeard := now } d
    have hepoch :
        (({ s with epoch := d.header.epoch, lastHeard := now } : Subscriber).heed d).1.epoch = e :=
      hsame.epoch.trans hd.epoch
    refine ⟨hstep.heed hd.tells, hinf, ?_, .inr hepoch⟩
    rcases heed_expected { s with epoch := d.header.epoch, lastHeard := now } d with hx | hx
    · rw [hx]
      exact h.expected_le
    · exact Nat.le_trans (Nat.le_trans (UInt64.le_iff_toNat_le.mp hx) (hinf.knows hepoch).next) hJ

theorem Tracks.receiveAll (hb : bound < 2 ^ 63) (hJ : bound ≤ J.length + 1)
    {ds : List (UInt64 × Datagram)} (h : Tracks e J bound s out)
    (hd : ∀ x ∈ ds, Genuine e J bound x.2) :
    Tracks e J bound (s.receiveAll ds).1 (out ++ (s.receiveAll ds).2) := by
  induction ds generalizing s out with
  | nil =>
      rw [Subscriber.receiveAll, List.append_nil]
      exact h
  | cons x ds ih =>
      obtain ⟨now, d⟩ := x
      have := ih (h.receive hb hJ now (hd (now, d) List.mem_cons_self)) fun y hy =>
        hd y (List.mem_cons_of_mem _ hy)
      rw [List.append_assoc] at this
      exact this

theorem Tracks.requestGap (h : Tracks e J bound s out) (now : UInt64) :
    Tracks e J bound (s.requestGap now).1 out := by
  have hinf := (h.informed.requestGap now).1
  have hsame : (s.requestGap now).1.expected = s.expected ∧ (s.requestGap now).1.stash = s.stash ∧
      (s.requestGap now).1.epoch = s.epoch := by
    rw [Subscriber.requestGap_eq]
    split
    · exact ⟨rfl, rfl, rfl⟩
    split
    · exact ⟨rfl, rfl, rfl⟩
    · exact ⟨rfl, rfl, rfl⟩
  obtain ⟨h1, h2, h3⟩ := hsame
  refine ⟨⟨?_, ?_, ?_⟩, hinf, ?_, ?_⟩
  · rw [h1]
    exact h.inStep.start_le
  · rw [h1]
    exact h.inStep.passed
  · rw [h2]
    exact h.inStep.waiting
  · rw [h1]
    exact h.expected_le
  · rw [h3]
    exact h.epoch

/-! ### The replica and its journal -/

theorem Numbered.front {more : List Command} (h : Numbered (J ++ more)) : Numbered J := by
  intro i c hc
  obtain ⟨hi, _⟩ := List.getElem?_eq_some_iff.mp hc
  exact h i c (by rw [List.getElem?_append_left hi]; exact hc)

structure Filed (r : Replica G) : Prop where
  file : r.journal.file = Journal.fileHeader ++ Journal.journalBytes (r.applied.take r.flushed)
  buffer : r.journal.buffer = Journal.journalBytes (r.applied.drop r.flushed)
  flushed_le : r.flushed ≤ r.applied.length
  seq : r.seq.toNat = r.applied.length

private theorem journalBytes_append (xs ys : List Command) :
    Journal.journalBytes (xs ++ ys) = Journal.journalBytes xs ++ Journal.journalBytes ys := by
  rw [Journal.journalBytes, List.map_append, List.flatten_append]
  rfl

theorem Filed.flush (h : Filed r) : Filed r.flush where
  file := by
    change r.journal.file ++ r.journal.buffer = _
    rw [h.file, h.buffer, List.append_assoc, ← journalBytes_append, List.take_append_drop]
    exact congrArg _ (congrArg _ (List.take_length).symm)
  buffer := (congrArg Journal.journalBytes List.drop_length).symm
  flushed_le := Nat.le_refl _
  seq := h.seq

theorem apply_spec {c : Command} (h : apply desk r c = some r') (hr : Filed r)
    (hc : c.seq.toNat = r.applied.length + 1) :
    Filed r' ∧ r'.applied = r.applied ++ [c] ∧ r'.sub = r.sub ∧ r'.flushed = r.flushed ∧
    r'.phase = r.phase ∧
      r'.seq = c.seq := by
  rw [apply] at h
  obtain ⟨⟨g, events⟩, _, rfl⟩ := Option.map_eq_some_iff.mp h
  have hle := hr.flushed_le
  refine ⟨⟨?_, ?_, ?_, ?_⟩, rfl, rfl, rfl, rfl, rfl⟩
  · rw [List.take_append_of_le_length hle]
    exact hr.file
  · rw [List.drop_append_of_le_length hle, journalBytes_append, ← hr.buffer]
    exact congrArg _ (List.append_nil _).symm
  · rw [List.length_append]
    exact Nat.le_trans hle (Nat.le_add_right _ _)
  · rw [List.length_append]
    exact hc

theorem applyAll_spec {cs : List Command} (h : applyAll desk r cs = some r')
    (hn : Numbered (r.applied ++ cs)) (hr : Filed r) :
    Filed r' ∧ r'.applied = r.applied ++ cs ∧ r'.sub = r.sub ∧ r'.flushed = r.flushed ∧
    r'.phase = r.phase := by
  induction cs generalizing r with
  | nil =>
      cases h
      exact ⟨hr, (List.append_nil _).symm, rfl, rfl, rfl⟩
  | cons c cs ih =>
      rw [applyAll, List.foldlM_cons] at h
      obtain ⟨r1, hone, hrest⟩ := Option.bind_eq_some_iff.mp h
      obtain ⟨h1, happ, hsub, hfl, hph, _⟩ :=
        apply_spec desk hone hr (hn r.applied.length c (by simp))
      have hn1 : Numbered (r1.applied ++ cs) := by
        rw [happ, List.append_assoc]
        exact hn
      obtain ⟨h2, happ', hsub', hfl', hph'⟩ := ih hrest hn1 h1
      exact ⟨h2, by rw [happ', happ, List.append_assoc]; rfl, hsub'.trans hsub,
        hfl'.trans hfl, hph'.trans hph⟩

/-- It reads the stream. -/
def following (r : Replica G) : Bool :=
  match r.phase with
  | .following | .settling _ => true
  | .stopped | .promoted _ => false

/-- Everything in its journal has been flushed. -/
def settled (r : Replica G) : Bool :=
  match r.phase with
  | .following | .promoted _ => true
  | .settling got => got = 0
  | .stopped => false

structure Follows (e : UInt32) (J : List Command) (bound : Nat) (r : Replica G) : Prop where
  filed : Filed r
  applied : r.applied <+: J
  settled : r.settled = true → r.flushed = r.applied.length
  tracks : r.following = true → Tracks e J bound r.sub r.applied

theorem Follows.grow {bound' : Nat} {J' : List Command} (h : Follows e J bound r)
    (hJ : bound ≤ J.length + 1) (hpre : J <+: J') (hle : bound ≤ bound') :
    Follows e J' bound' r where
  filed := h.filed
  applied := h.applied.trans hpre
  settled := h.settled
  tracks hf := (h.tracks hf).grow hJ hpre hle

structure Honest (e : UInt32) (bound top : Nat) (d : Datagram) : Prop where
  acks : d.header.kind = .ack → d.header.epoch = e → d.header.firstSeq.toNat ≤ top
  asks : d.header.kind = .retransmit → d.header.epoch = e →
    d.header.firstSeq.toNat + d.header.count.toNat ≤ bound

theorem Honest.mono {bound' top top' : Nat} {d : Datagram} (h : Honest e bound top d)
    (hb : bound ≤ bound') (ht : top ≤ top') : Honest e bound' top' d where
  acks hk he := Nat.le_trans (h.acks hk he) ht
  asks hk he := Nat.le_trans (h.asks hk he) hb

structure Advance (e : UInt32) (J : List Command) (bound : Nat) (r : Replica G)
    (x : Replica G × List Datagram) : Prop where
  follows : Follows e J bound x.1
  applied : r.applied <+: x.1.applied
  flushed : r.flushed ≤ x.1.flushed
  honest : ∀ d ∈ x.2, Honest e bound x.1.flushed d

theorem Follows.of_eq (h : Follows e J bound r) (hj : r'.journal = r.journal)
    (ha : r'.applied = r.applied) (hfl : r'.flushed = r.flushed) (hs : r'.seq = r.seq)
    (hset : r'.settled = true → r.flushed = r.applied.length)
    (htr : r'.following = true → Tracks e J bound r'.sub r.applied) : Follows e J bound r' where
  filed := ⟨by rw [hj, ha, hfl]; exact h.filed.file, by rw [hj, ha, hfl]; exact h.filed.buffer,
    by rw [ha, hfl]; exact h.filed.flushed_le, by rw [hs, ha]; exact h.filed.seq⟩
  applied := by
    rw [ha]
    exact h.applied
  settled hx := by
    rw [hfl, ha]
    exact hset hx
  tracks hx := by
    rw [ha]
    exact htr hx

theorem Follows.stopped (h : Follows e J bound r) (sub : Subscriber) (lastAck : UInt64) :
    Follows e J bound { r with sub := sub, lastAck := lastAck, phase := .stopped } :=
  h.of_eq rfl rfl rfl rfl (fun hs => nomatch hs) fun hf => nomatch hf

theorem Follows.poll (h : Follows e J bound r) (hfol : r.phase = .following) (hn : Numbered J)
    (hb : bound < 2 ^ 63) (hJ : bound ≤ J.length + 1) {i : ReplicaInput}
    (hd : ∀ x ∈ i.datagrams, Genuine e J bound x.2) :
    Advance e J bound r (poll desk r i) := by
  have htr := (h.tracks (by rw [following, hfol])).receiveAll hb hJ hd
  simp only [Replica.poll]
  generalize r.sub.receiveAll i.datagrams = x at htr
  obtain ⟨sub, cmds⟩ := x
  simp only at htr ⊢
  have hr : Filed { r with sub := sub } :=
    ⟨h.filed.file, h.filed.buffer, h.filed.flushed_le, h.filed.seq⟩
  cases happ : applyAll desk { r with sub := sub } cmds with
  | none => exact ⟨h.stopped sub r.lastAck, List.prefix_refl _, Nat.le_refl _,
      fun d hd => nomatch hd⟩
  | some r1 =>
      obtain ⟨more, hmore⟩ := htr.out_prefix
      have hn1 : Numbered (r.applied ++ cmds) := by
        rw [← hmore] at hn
        exact hn.front
      obtain ⟨h1, happ1, hsub1, hfl1, _⟩ := applyAll_spec desk happ hn1 hr
      have htr1 : Tracks e J bound r1.sub r1.applied := by
        rw [hsub1, happ1]
        exact htr
      have hgap := htr1.requestGap i.asked
      have hreq := (htr1.informed.requestGap i.asked).2
      have hack : ∀ d, (r1.sub.requestGap i.asked).2 = some d → d.header.kind = .retransmit :=
        fun d hd => Subscriber.requestGap_kind hd
      simp only
      generalize r1.sub.requestGap i.asked = y at hgap hreq hack
      obtain ⟨sub', req⟩ := y
      refine ⟨⟨⟨h1.file, h1.buffer, h1.flushed_le, h1.seq⟩, htr1.out_prefix, fun hs => ?_,
        fun _ => hgap⟩, ?_, ?_, ?_⟩
      · have hnil : cmds = [] := by simpa [Replica.settled] using hs
        subst hnil
        change r1.flushed = r1.applied.length
        rw [hfl1, happ1, List.append_nil]
        exact h.settled (by rw [Replica.settled, hfol])
      · change r.applied <+: r1.applied
        rw [happ1]
        exact List.prefix_append _ _
      · exact Nat.le_of_eq hfl1.symm
      · intro d hd
        have hsome : req = some d := by simpa using hd
        refine ⟨fun hk => ?_, fun _ he => hreq d hsome he⟩
        rw [hack d hsome] at hk
        cases hk

theorem Follows.flush (h : Follows e J bound r) : Follows e J bound r.flush where
  filed := h.filed.flush
  applied := h.applied
  settled _ := rfl
  tracks := h.tracks

theorem promote_phase (r : Replica G) : ∃ ph, r.promote rcfg = { r.flush with phase := ph } ∧
    (ph = .stopped ∨ ∃ s, ph = .promoted s) := by
  simp only [promote]
  split
  · exact ⟨_, rfl, .inl rfl⟩
  · exact ⟨_, rfl, .inr ⟨_, rfl⟩⟩

theorem Follows.promote (h : Follows e J bound r) :
    Follows e J bound (r.promote rcfg) ∧ (r.promote rcfg).applied = r.applied ∧
      (r.promote rcfg).flushed = r.applied.length := by
  obtain ⟨ph, heq, hph⟩ := promote_phase rcfg r
  rw [heq]
  refine ⟨h.flush.of_eq rfl rfl rfl rfl (fun _ => rfl) fun hf => ?_, rfl, rfl⟩
  rcases hph with rfl | ⟨s, rfl⟩
  · cases hf
  · cases hf

theorem Follows.settle (h : Follows e J bound r) {got : Nat} (hph : r.phase = .settling got)
    (i : ReplicaInput) :
    Advance e J bound r (settle rcfg r got i) := by
  have htr := h.tracks (by rw [following, hph])
  simp only [Replica.settle]
  split
  · exact ⟨h.stopped r.sub r.lastAck, List.prefix_refl _, Nat.le_refl _, fun d hd => nomatch hd⟩
  -- Whatever was got is flushed now.
  have h1 : Follows e J bound (if 0 < got then r.flush else r) ∧
      (if 0 < got then r.flush else r).applied = r.applied ∧
      (if 0 < got then r.flush else r).flushed = r.applied.length ∧
      (if 0 < got then r.flush else r).sub = r.sub := by
    split
    · exact ⟨h.flush, rfl, rfl, rfl⟩
    · rename_i hzero
      refine ⟨h, rfl, h.settled ?_, rfl⟩
      rw [Replica.settled, hph]
      exact decide_eq_true (by omega)
  generalize (if 0 < got then r.flush else r) = r1 at h1
  obtain ⟨h1, happ1, hfl1, hsub1⟩ := h1
  have hle : r.flushed ≤ r.applied.length := h.filed.flushed_le
  have hacks : ∀ (b : Bool), ∀ d ∈ (if b = true then (r1.sub.ack r1.seq).toList else []),
      Honest e bound r1.flushed d := by
    intro b d hd
    cases b with
    | false => cases hd
    | true =>
        have hsome : r1.sub.ack r1.seq = some d := by simpa using hd
        rw [Subscriber.ack] at hsome
        split at hsome
        · cases hsome
        · cases hsome
          refine ⟨fun _ _ => ?_, fun hk => nomatch hk⟩
          change r1.seq.toNat ≤ _
          rw [h1.filed.seq, happ1, hfl1]
  generalize decide (0 < got ∨ 5000000 < i.now - r.lastAck) = due
  have h2 : ∃ last, (if due = true then { r1 with lastAck := i.now } else r1) =
      { r1 with lastAck := last } := by
    cases due with
    | true => exact ⟨i.now, rfl⟩
    | false => exact ⟨r1.lastAck, rfl⟩
  obtain ⟨last, heq⟩ := h2
  rw [heq]
  have h3 : Follows e J bound { r1 with lastAck := last } :=
    h1.of_eq rfl rfl rfl rfl h1.settled h1.tracks
  have hstop : Follows e J bound { r1 with lastAck := last, phase := .stopped } :=
    h1.stopped r1.sub last
  have hpre : r.applied <+: r1.applied := by rw [happ1]
  have hflu : r.flushed ≤ r1.flushed := by rw [hfl1]; exact hle
  split
  · exact ⟨hstop, hpre, hflu, hacks due⟩
  split
  · split
    · obtain ⟨hp, hpa, hpf⟩ := h3.promote rcfg
      refine ⟨hp, ?_, ?_, fun d hd => ?_⟩
      · rw [hpa]
        exact hpre
      · rw [hpf]
        exact Nat.le_trans hle hpre.length_le
      · rw [hpf]
        refine (hacks due d hd).mono (Nat.le_refl _) ?_
        rw [hfl1]
        exact hpre.length_le
    · exact ⟨hstop, hpre, hflu, hacks due⟩
  · refine ⟨h1.of_eq rfl rfl rfl rfl (fun _ => ?_) fun _ => ?_, hpre, hflu, hacks due⟩
    · rw [hfl1, happ1]
    · rw [happ1]
      change Tracks e J bound r1.sub _
      rw [hsub1]
      exact htr

theorem Follows.step (h : Follows e J bound r) (hn : Numbered J) (hb : bound < 2 ^ 63)
    (hJ : bound ≤ J.length + 1) {i : ReplicaInput} (hd : ∀ x ∈ i.datagrams, Genuine e J bound x.2) :
    Advance e J bound r (step rcfg desk r i) := by
  rw [Replica.step]
  cases hph : r.phase with
  | following =>
      simp only
      split
      · refine ⟨h.flush.of_eq rfl rfl rfl rfl (fun hs => nomatch hs) (fun hf => nomatch hf),
          List.prefix_refl _, h.filed.flushed_le, fun d hd => nomatch hd⟩
      · exact h.poll desk hph hn hb hJ hd
  | settling got => exact h.settle rcfg hph i
  | stopped => exact ⟨h, List.prefix_refl _, Nat.le_refl _, fun d hd => nomatch hd⟩
  | promoted s =>
      refine ⟨h.of_eq rfl rfl rfl rfl (fun _ => ?_) (fun hf => nomatch hf),
        List.prefix_refl _, Nat.le_refl _, fun d hd => nomatch hd⟩
      exact h.settled (by rw [Replica.settled, hph])

theorem replay_spec {cs : List Command} (hr : Filed r) (hph : r.phase = .following)
    (hn : Numbered (r.applied ++ cs)) (hsmall : (r.applied ++ cs).length + 1 < 2 ^ 63)
    (h : cs.foldlM (fun r c => if c.seq = r.seq + 1 then apply desk r c else some r) r = some r') :
    Filed r' ∧ r'.phase = .following ∧ r'.applied = r.applied ++ cs := by
  induction cs generalizing r with
  | nil =>
      cases h
      exact ⟨hr, hph, (List.append_nil _).symm⟩
  | cons c cs ih =>
      rw [List.foldlM_cons] at h
      obtain ⟨r2, hone, hrest⟩ := Option.bind_eq_some_iff.mp h
      have hc : c.seq.toNat = r.applied.length + 1 := hn r.applied.length c (by simp)
      have hseq := hr.seq
      have hnext : c.seq = r.seq + 1 := by
        rw [List.length_append] at hsmall
        rw [← UInt64.toNat_inj, hc, UInt64.toNat_add, UInt64.toNat_one]
        omega
      rw [if_pos hnext] at hone
      obtain ⟨h2, happ, _, _, hph2, _⟩ := apply_spec desk hone hr hc
      have heq : r2.applied ++ cs = r.applied ++ c :: cs := by
        rw [happ, List.append_assoc]
        rfl
      obtain ⟨h3, h4, h5⟩ :=
        ih h2 (hph2.trans hph) (by rw [heq]; exact hn) (by rw [heq]; exact hsmall) hrest
      exact ⟨h3, h4, h5.trans heq⟩

theorem follows_start (e : UInt32) (bound : Nat) (gate : G) {copy : List Command}
    (hcopy : copy <+: J) (hn : Numbered J) (hlen : J.length + 1 < 2 ^ 63)
    (h : start desk gate copy = some r) :
    Follows e J bound r ∧ r.applied = copy ∧ r.flushed = copy.length ∧ r.isPromoted = false := by
  rw [start] at h
  obtain ⟨r1, hfold, rfl⟩ := Option.map_eq_some_iff.mp h
  obtain ⟨more, rfl⟩ := hcopy
  have hsmall : copy.length + 1 < 2 ^ 63 := by
    rw [List.length_append] at hlen
    omega
  have hempty : Filed ({ sub := .make 1 1, gate := gate, journal := .create } : Replica G) :=
    ⟨rfl, rfl, Nat.le_refl _, rfl⟩
  obtain ⟨h1, hph, happ⟩ := replay_spec desk hempty rfl hn.front hsmall hfold
  rw [List.nil_append] at happ
  have hseq := h1.seq
  rw [List.length_append] at hlen
  have hsucc : (r1.seq + 1).toNat = copy.length + 1 := by
    rw [UInt64.toNat_add, UInt64.toNat_one, hseq, happ]
    omega
  have hfl := h1.flush
  refine ⟨⟨⟨hfl.file, hfl.buffer, hfl.flushed_le, hfl.seq⟩, ?_, fun _ => rfl, fun _ => ?_⟩, happ,
    ?_, ?_⟩
  · change r1.applied <+: _
    rw [happ]
    exact List.prefix_append _ _
  · refine ⟨⟨?_, ?_, fun x hx => nomatch hx⟩,
      Subscriber.informed_make e bound _ (by decide), ?_, .inl rfl⟩
    · change 1 ≤ (r1.seq + 1).toNat
      omega
    · change r1.applied = slice _ 1 ((r1.seq + 1).toNat - 1)
      rw [hsucc, happ, Nat.add_sub_cancel, slice_nth (by simp)]
      exact List.take_left.symm
    · change (r1.seq + 1).toNat ≤ _
      rw [hsucc, List.length_append]
      omega
  · exact congrArg List.length happ
  · change (match r1.phase with | .promoted _ => true | _ => false) = false
    rw [hph]

end Replica
end ExchangeSim.Gateway
