/- digest: The primary's side of the stream: staging, sending and retransmitting from one ring. -/

import ExchangeSim.Stream.Datagram
import ExchangeSim.Lib.Ring
import Mathlib.Order.Bounds.Basic

set_option autoImplicit false
set_option relaxedAutoImplicit false

namespace ExchangeSim.Stream

open ExchangeSim.Lib

/-- Where a datagram is sent: the multicast group, or the sender of a request. -/
inductive Dest where
  | group
  | peer (addr : Nat)
  deriving DecidableEq, Repr

structure Sent where
  dest : Dest
  datagram : Datagram
  deriving DecidableEq, Repr

/-- `coins k` tells whether the `k`-th draw of the fault injection drops the datagram. -/
structure Publisher where
  ringLog2 : Nat
  ring : PageArray Command
  coins : Nat → Bool
  drawn : Nat := 0
  epoch : UInt32
  fencedBy : UInt32 := 0
  nextSeq : UInt64
  pendingFirst : UInt64
  acked : UInt64
  historyFrom : UInt64
  lastSendNs : UInt64 := 0

namespace Publisher

/-- A slot that was never written. -/
def blank : Command := { orderId := 0, type := .newOrder }

def make (ringLog2 : Nat) (coins : Nat → Bool) (nextSeq : UInt64) (epoch : UInt32) : Publisher where
  ringLog2 := ringLog2
  ring := fun _ => blank
  coins := coins
  epoch := epoch
  nextSeq := nextSeq
  pendingFirst := nextSeq
  acked := nextSeq - 1
  historyFrom := nextSeq

def ringSize (p : Publisher) : Nat := 2 ^ p.ringLog2

/-- `ring_[seq & mask_]`. -/
def slot (p : Publisher) (seq : UInt64) : Nat := seq.toNat % p.ringSize

def fenced (p : Publisher) : Bool := p.fencedBy ≠ 0

/-- `none` is the exception for a command beyond `next_seq`. -/
def seedHistory (p : Publisher) (c : Command) : Option Publisher :=
  if p.nextSeq ≤ c.seq then none
  else some { p with
    ring := Function.update p.ring (p.slot c.seq) c
    historyFrom := min p.historyFrom c.seq }

/-- Stages a command. `none` is the exception for one out of sequence. -/
def publish (p : Publisher) (c : Command) : Option Publisher :=
  if c.seq ≠ p.nextSeq then none
  else some { p with
    ring := Function.update p.ring (p.slot c.seq) c
    nextSeq := p.nextSeq + 1 }

def dataOf (p : Publisher) (first : UInt64) (n : Nat) : Datagram where
  header := header .data p.epoch first (UInt16.ofNat n)
  cmds := (List.range n).map fun i => p.ring (p.slot (first + UInt64.ofNat i))

def sendData (p : Publisher) (first : UInt64) (n : Nat) (dest : Dest) : Sent :=
  ⟨dest, p.dataOf first n⟩

def sendControl (p : Publisher) (k : Kind) (first : UInt64) (dest : Dest) : Sent :=
  ⟨dest, ⟨header k p.epoch first 0, []⟩⟩

/-- The loop of `flush`; every pass sends at least one staged command. -/
def flushLoop (now : UInt64) : Nat → Publisher → Publisher × List Sent
  | 0, p => (p, [])
  | fuel + 1, p =>
      if p.pendingFirst < p.nextSeq then
        let n := min kPerPacket (p.nextSeq - p.pendingFirst).toNat
        let out := if p.coins p.drawn then [] else [p.sendData p.pendingFirst n .group]
        let r := flushLoop now fuel { p with
          drawn := p.drawn + 1
          pendingFirst := p.pendingFirst + UInt64.ofNat n
          lastSendNs := now }
        (r.1, out ++ r.2)
      else (p, [])

/-- Sends everything staged, `kPerPacket` commands per datagram. -/
def flush (p : Publisher) (now : UInt64) : Publisher × List Sent :=
  flushLoop now (p.nextSeq - p.pendingFirst).toNat p

def heartbeatIfIdle (p : Publisher) (now interval : UInt64) : Publisher × List Sent :=
  if now - p.lastSendNs < interval ∨ p.fenced then (p, [])
  else
    let (p, out) := p.flush now
    ({ p with lastSendNs := now }, out ++ [p.sendControl .heartbeat p.nextSeq .group])

/-- `end()`. -/
def finish (p : Publisher) (now : UInt64) : Publisher × List Sent :=
  if p.fenced then (p, [])
  else
    let (p, out) := p.flush now
    (p, out ++ List.replicate 3 (p.sendControl .endOfStream p.nextSeq .group))

/-- A datagram of the group: a newer epoch means that this primary has been replaced. -/
def onGroup (p : Publisher) (d : Datagram) : Publisher :=
  if d.header.magic = kMagic ∧ p.epoch < d.header.epoch ∧ p.fencedBy < d.header.epoch then
    { p with fencedBy := d.header.epoch }
  else p

/-- The oldest sequence number the ring still serves. -/
def oldest (p : Publisher) : UInt64 :=
  let inRing := if p.ringSize < p.nextSeq.toNat then p.nextSeq - UInt64.ofNat p.ringSize else 1
  max inRing p.historyFrom

/-- The retransmission loop over `[s, end)`. -/
def retransmitLoop (p : Publisher) (dest : Dest) (stop : UInt64) : Nat → UInt64 → List Sent
  | 0, _ => []
  | fuel + 1, s =>
      if s < stop then
        p.sendData s (min kPerPacket (stop - s).toNat) dest ::
          retransmitLoop p dest stop fuel (s + UInt64.ofNat kPerPacket)
      else []

/-- A datagram of the control socket. -/
def onControl (p : Publisher) (peer : Nat) (d : Datagram) : Publisher × List Sent :=
  let h := d.header
  if h.magic ≠ kMagic ∨ h.epoch ≠ p.epoch ∨ p.fenced then (p, [])
  else match h.kind with
  | .ack =>
      if p.acked < h.firstSeq ∧ h.firstSeq < p.nextSeq then
        ({ p with acked := h.firstSeq }, []) else (p, [])
  | .retransmit =>
      if h.firstSeq < p.oldest then (p, [p.sendControl .unavailable p.oldest (.peer peer)])
      else
        let stop := min (h.firstSeq + h.count.toUInt64) p.nextSeq
        (p, p.retransmitLoop (.peer peer) stop (stop - h.firstSeq).toNat h.firstSeq)
  | .data => (p, [])
  | .heartbeat => (p, [])
  | .endOfStream => (p, [])
  | .unavailable => (p, [])

/-- The control socket, drained. -/
def controlLoop (p : Publisher) : List (Nat × Datagram) → Publisher × List Sent
  | [] => (p, [])
  | (peer, d) :: ds =>
      let (p, out) := p.onControl peer d
      let (p, rest) := controlLoop p ds
      (p, out ++ rest)

/-- `service`: what has arrived on the group, then what has arrived on the control socket. -/
def service (p : Publisher) (group : List Datagram) (control : List (Nat × Datagram)) :
    Publisher × List Sent :=
  (group.foldl onGroup p).controlLoop control

/-! ### Runs -/

inductive Call where
  | publish (c : Command)
  | flush (now : UInt64)
  | heartbeat (now interval : UInt64)
  | finish (now : UInt64)
  | service (group : List Datagram) (control : List (Nat × Datagram))

def call (p : Publisher) : Call → Option (Publisher × List Sent)
  | .publish c => (p.publish c).map fun p => (p, [])
  | .flush now => some (p.flush now)
  | .heartbeat now interval => some (p.heartbeatIfIdle now interval)
  | .finish now => some (p.finish now)
  | .service group control => some (p.service group control)

/-- A sequence of calls with everything they send. -/
def run (p : Publisher) : List Call → Option (Publisher × List Sent)
  | [] => some (p, [])
  | c :: cs => do
      let (p, out) ← p.call c
      let (p, rest) ← p.run cs
      return (p, out ++ rest)

def seedAll (p : Publisher) (cs : List Command) : Option Publisher := cs.foldlM seedHistory p

/-- How many commands are staged and not yet sent. -/
def staged (p : Publisher) : Nat := (p.nextSeq - p.pendingFirst).toNat

/-- The call sends what is staged. -/
def flushes (p : Publisher) : Call → Bool
  | .flush _ => true
  | .heartbeat now interval => ¬ (now - p.lastSendNs < interval ∨ p.fenced)
  | .finish _ => ¬ p.fenced
  | .publish _ => false
  | .service _ _ => false

/-- Whenever the run sends what is staged, the ring still holds all of it. -/
def WithinRing (p : Publisher) : List Call → Prop
  | [] => True
  | c :: cs =>
      (p.flushes c = true → p.staged ≤ p.ringSize) ∧ ∀ p' out, p.call c = some (p', out) →
        WithinRing p' cs

def published : Call → List Command
  | .publish c => [c]
  | .flush _ => []
  | .heartbeat _ _ => []
  | .finish _ => []
  | .service _ _ => []

/-- Every command of the datagram is the one with the sequence number it stands for. -/
def Named (all : List Command) (d : Datagram) : Prop :=
  d.cmds.length = d.header.count.toNat ∧
    ∀ i c, d.cmds[i]? = some c → c ∈ all ∧ c.seq.toNat = d.header.firstSeq.toNat + i

/-- The ring still holds the command with this sequence number. -/
def Held (p : Publisher) (all : List Command) (s : Nat) : Prop :=
  ∃ c ∈ all, c.seq.toNat = s ∧ p.ring (s % p.ringSize) = c

/-! ### The ring serves what it names -/

/-- The command with sequence number `s` of a list that is numbered from `lo`. -/
def entryAt (all : List Command) (lo s : Nat) : Command := all.getD (s - lo) blank

structure Keeps (p : Publisher) (lo : Nat) (all : List Command) : Prop where
  lo_pos : 1 ≤ lo
  next : p.nextSeq.toNat = lo + all.length
  numbered : ∀ i c, all[i]? = some c → c.seq.toNat = lo + i
  history : p.historyFrom.toNat = lo
  ring : Ring.Holds p.ringSize p.ring (entryAt all lo) lo p.nextSeq.toNat
  lo_le : lo ≤ p.pendingFirst.toNat
  pending_le : p.pendingFirst.toNat ≤ p.nextSeq.toNat
  bounded : p.nextSeq.toNat < 2 ^ 63

variable {p : Publisher} {lo : Nat} {all : List Command}

theorem Keeps.get (h : Keeps p lo all) {s : Nat} (hlo : lo ≤ s) (hlt : s < p.nextSeq.toNat) :
    entryAt all lo s ∈ all ∧ (entryAt all lo s).seq.toNat = s := by
  have hnext := h.next
  have hi : s - lo < all.length := by omega
  have hget : all[s - lo]? = some (entryAt all lo s) := by simp [entryAt, hi]
  refine ⟨List.mem_of_getElem? hget, ?_⟩
  rw [h.numbered _ _ hget]
  omega

theorem Keeps.data_named (h : Keeps p lo all) {first : UInt64} {n : Nat} (hn : n ≤ kPerPacket)
    (hlo : lo ≤ first.toNat) (hring : p.nextSeq.toNat ≤ first.toNat + p.ringSize)
    (hend : first.toNat + n ≤ p.nextSeq.toNat) : Named all (p.dataOf first n) := by
  have hbound := h.bounded
  have hper : n ≤ 25 := hn
  refine ⟨?_, fun i c hc => ?_⟩
  · simp only [dataOf, header, List.length_map, List.length_range, UInt16.toNat_ofNat']
    omega
  · simp only [dataOf, List.getElem?_map, Option.map_eq_some_iff] at hc
    obtain ⟨j, hj, rfl⟩ := hc
    obtain ⟨hjn, hji⟩ := List.getElem?_eq_some_iff.mp hj
    rw [List.getElem_range] at hji
    subst hji
    rw [List.length_range] at hjn
    have hseq : (first + UInt64.ofNat i).toNat = first.toNat + i := by
      rw [UInt64.toNat_add, UInt64.toNat_ofNat']
      omega
    rw [slot, hseq, h.ring (first.toNat + i) (by omega) (by omega) (by omega)]
    exact h.get (by omega) (by omega)

structure Moves (p p' : Publisher) : Prop where
  ringLog2 : p'.ringLog2 = p.ringLog2
  ring : p'.ring = p.ring
  epoch : p'.epoch = p.epoch
  fencedBy : p'.fencedBy = p.fencedBy
  nextSeq : p'.nextSeq = p.nextSeq
  acked : p'.acked = p.acked
  historyFrom : p'.historyFrom = p.historyFrom
  pending : p.pendingFirst ≤ p'.pendingFirst
  pending_le : p.pendingFirst ≤ p.nextSeq → p'.pendingFirst ≤ p.nextSeq

theorem Moves.trans {p' p'' : Publisher} (h : Moves p p') (h' : Moves p' p'') : Moves p p'' where
  ringLog2 := h'.ringLog2.trans h.ringLog2
  ring := h'.ring.trans h.ring
  epoch := h'.epoch.trans h.epoch
  fencedBy := h'.fencedBy.trans h.fencedBy
  nextSeq := h'.nextSeq.trans h.nextSeq
  acked := h'.acked.trans h.acked
  historyFrom := h'.historyFrom.trans h.historyFrom
  pending := UInt64.le_trans h.pending h'.pending
  pending_le hle := by
    have := h'.pending_le (by rw [h.nextSeq]; exact h.pending_le hle)
    rwa [h.nextSeq] at this

theorem Keeps.moved {p' : Publisher} (h : Keeps p lo all) (hm : Moves p p') : Keeps p' lo all := by
  have hpl := h.pending_le
  have h1 := UInt64.le_iff_toNat_le.mp hm.pending
  have h2 := UInt64.le_iff_toNat_le.mp (hm.pending_le (UInt64.le_iff_toNat_le.mpr hpl))
  refine ⟨h.lo_pos, ?_, h.numbered, ?_, ?_, ?_, ?_, ?_⟩
  · rw [hm.nextSeq, h.next]
  · rw [hm.historyFrom, h.history]
  · rw [ringSize, hm.ringLog2, hm.ring, hm.nextSeq]
    exact h.ring
  · exact Nat.le_trans h.lo_le h1
  · rw [hm.nextSeq]
    exact h2
  · rw [hm.nextSeq]
    exact h.bounded

theorem Moves.dataOf {p' : Publisher} (h : Moves p p') (first : UInt64) (n : Nat) :
    p'.dataOf first n = p.dataOf first n := by
  simp only [Publisher.dataOf, slot, ringSize, h.ringLog2, h.ring, h.epoch]

/-- A datagram that carries a piece of `[from, to)`. -/
def Piece (p : Publisher) (dest : Dest) (lo hi : Nat) (s : Sent) : Prop :=
  ∃ first n, s = p.sendData first n dest ∧ 0 < n ∧ n ≤ kPerPacket ∧ lo ≤ first.toNat ∧
    first.toNat + n ≤ hi

theorem Moves.piece {p' : Publisher} (h : Moves p p') {dest : Dest} {lo hi lo' : Nat} {s : Sent}
    (hlo : lo ≤ lo') (hs : Piece p' dest lo' hi s) : Piece p dest lo hi s := by
  obtain ⟨first, n, rfl, h0, hn, h1, h2⟩ := hs
  exact ⟨first, n, by rw [sendData, sendData, h.dataOf], h0, hn, Nat.le_trans hlo h1, h2⟩

theorem flushLoop_spec (now : UInt64) (fuel : Nat) (hle : p.pendingFirst.toNat ≤ p.nextSeq.toNat) :
    Moves p (flushLoop now fuel p).1 ∧
      (∀ s ∈ (flushLoop now fuel p).2, Piece p .group p.pendingFirst.toNat p.nextSeq.toNat s) ∧
      (p.staged ≤ fuel → (flushLoop now fuel p).1.pendingFirst = p.nextSeq) := by
  induction fuel generalizing p with
  | zero =>
      refine ⟨⟨rfl, rfl, rfl, rfl, rfl, rfl, rfl, UInt64.le_refl _, id⟩, by simp [flushLoop],
        fun hs => ?_⟩
      rw [staged, UInt64.toNat_sub_of_le _ _ (UInt64.le_iff_toNat_le.mpr hle)] at hs
      exact UInt64.toNat_inj.mp (by simp only [flushLoop]; omega)
  | succ fuel ih =>
      rw [flushLoop]
      by_cases hgo : p.pendingFirst < p.nextSeq
      · simp only [if_pos hgo]
        have hlt := UInt64.lt_iff_toNat_lt.mp hgo
        have hsub : (p.nextSeq - p.pendingFirst).toNat = p.nextSeq.toNat - p.pendingFirst.toNat :=
          UInt64.toNat_sub_of_le _ _ (UInt64.le_iff_toNat_le.mpr hle)
        generalize hn : min kPerPacket (p.nextSeq - p.pendingFirst).toNat = n
        have hper : kPerPacket = 25 := rfl
        have hfront : (p.pendingFirst + UInt64.ofNat n).toNat = p.pendingFirst.toNat + n := by
          have := UInt64.toNat_lt p.nextSeq
          rw [UInt64.toNat_add, UInt64.toNat_ofNat']
          omega
        let p' : Publisher := { p with
          drawn := p.drawn + 1
          pendingFirst := p.pendingFirst + UInt64.ofNat n
          lastSendNs := now }
        have hstep : Moves p p' := by
          refine ⟨rfl, rfl, rfl, rfl, rfl, rfl, rfl, ?_, fun _ => ?_⟩
          · rw [UInt64.le_iff_toNat_le]
            change _ ≤ (p.pendingFirst + UInt64.ofNat n).toNat
            omega
          · rw [UInt64.le_iff_toNat_le]
            change (p.pendingFirst + UInt64.ofNat n).toNat ≤ _
            omega
        obtain ⟨hm, hpieces, hdone⟩ := ih (p := p')
          (by change (p.pendingFirst + UInt64.ofNat n).toNat ≤ p.nextSeq.toNat; omega)
        refine ⟨hstep.trans hm, fun s hs => ?_, fun hfuel => ?_⟩
        · rcases List.mem_append.mp hs with hs | hs
          · split at hs
            · cases hs
            · rw [List.mem_singleton.mp hs]
              exact ⟨p.pendingFirst, n, rfl, by omega, by omega, Nat.le_refl _, by omega⟩
          · exact hstep.piece (by change _ ≤ (p.pendingFirst + UInt64.ofNat n).toNat; omega)
              (hpieces s hs)
        · refine hdone ?_
          have hstaged : p'.staged = p.nextSeq.toNat - (p.pendingFirst.toNat + n) := by
            change (p.nextSeq - (p.pendingFirst + UInt64.ofNat n)).toNat = _
            rw [UInt64.toNat_sub_of_le _ _ (UInt64.le_iff_toNat_le.mpr (by omega)), hfront]
          rw [staged, hsub] at hfuel
          omega
      · simp only [if_neg hgo]
        refine ⟨⟨rfl, rfl, rfl, rfl, rfl, rfl, rfl, UInt64.le_refl _, id⟩, by simp, fun _ => ?_⟩
        rw [UInt64.lt_iff_toNat_lt] at hgo
        exact UInt64.toNat_inj.mp (by omega)

theorem flush_spec (hle : p.pendingFirst.toNat ≤ p.nextSeq.toNat) (now : UInt64) :
    Moves p (p.flush now).1 ∧ (∀ s ∈ (p.flush now).2,
      Piece p .group p.pendingFirst.toNat p.nextSeq.toNat s) ∧
      (p.flush now).1.pendingFirst = p.nextSeq := by
  obtain ⟨h1, h2, h3⟩ := flushLoop_spec now (p.nextSeq - p.pendingFirst).toNat hle
  exact ⟨h1, h2, h3 (Nat.le_refl _)⟩

theorem heartbeatIfIdle_spec (hle : p.pendingFirst.toNat ≤ p.nextSeq.toNat)
    (now interval : UInt64) :
    Moves p (p.heartbeatIfIdle now interval).1 ∧
      (p.flushes (.heartbeat now interval) = false → p.heartbeatIfIdle now interval = (p, [])) ∧
      (p.flushes (.heartbeat now interval) = true →
        (p.heartbeatIfIdle now interval).1.pendingFirst = p.nextSeq ∧
        ∀ s ∈ (p.heartbeatIfIdle now interval).2,
        Piece p .group p.pendingFirst.toNat p.nextSeq.toNat s ∨
          s = p.sendControl .heartbeat p.nextSeq .group) := by
  obtain ⟨hm, hpieces, hpend⟩ := flush_spec hle now
  rw [heartbeatIfIdle]
  by_cases hidle : now - p.lastSendNs < interval ∨ p.fenced = true
  · rw [if_pos hidle]
    refine ⟨⟨rfl, rfl, rfl, rfl, rfl, rfl, rfl, UInt64.le_refl _, id⟩, fun _ => rfl, fun hf => ?_⟩
    simp only [flushes, decide_eq_true_eq] at hf
    exact absurd hidle hf
  · rw [if_neg hidle]
    refine ⟨?_, fun hf => ?_, fun _ => ⟨hpend, fun s hs => ?_⟩⟩
    · exact ⟨hm.ringLog2, hm.ring, hm.epoch, hm.fencedBy, hm.nextSeq, hm.acked,
        hm.historyFrom, hm.pending, hm.pending_le⟩
    · simp only [flushes, decide_eq_false_iff_not, not_not] at hf
      exact absurd hf hidle
    · rcases List.mem_append.mp hs with hs | hs
      · exact .inl (hpieces s hs)
      · right
        rw [List.mem_singleton.mp hs]
        simp only [sendControl, hm.epoch, hm.nextSeq]

theorem finish_spec (hle : p.pendingFirst.toNat ≤ p.nextSeq.toNat) (now : UInt64) :
    Moves p (p.finish now).1 ∧ (p.flushes (.finish now) = false → p.finish now = (p, [])) ∧
      (p.flushes (.finish now) = true → (p.finish now).1.pendingFirst = p.nextSeq ∧
        ∀ s ∈ (p.finish now).2, Piece p .group p.pendingFirst.toNat p.nextSeq.toNat s ∨
          s = p.sendControl .endOfStream p.nextSeq .group) := by
  obtain ⟨hm, hpieces, hpend⟩ := flush_spec hle now
  rw [finish]
  by_cases hfen : p.fenced = true
  · rw [if_pos hfen]
    exact ⟨⟨rfl, rfl, rfl, rfl, rfl, rfl, rfl, UInt64.le_refl _, id⟩, fun _ => rfl, fun hf => by
      simp [flushes, hfen] at hf⟩
  · rw [if_neg hfen]
    refine ⟨hm, fun hf => by simp [flushes, hfen] at hf, fun _ => ⟨hpend, fun s hs => ?_⟩⟩
    rcases List.mem_append.mp hs with hs | hs
    · exact .inl (hpieces s hs)
    · right
      rw [List.eq_of_mem_replicate hs]
      simp only [sendControl, hm.epoch, hm.nextSeq]

/-! ### Acknowledgements -/

theorem flushLoop_acked (now : UInt64) (fuel : Nat) (p : Publisher) :
    (flushLoop now fuel p).1.acked = p.acked := by
  induction fuel generalizing p with
  | zero => rfl
  | succ fuel ih =>
      rw [flushLoop]
      split
      · exact ih _
      · rfl

theorem flush_acked (p : Publisher) (now : UInt64) : (p.flush now).1.acked = p.acked :=
  flushLoop_acked now _ p

theorem heartbeatIfIdle_acked (p : Publisher) (now interval : UInt64) :
    (p.heartbeatIfIdle now interval).1.acked = p.acked := by
  rw [heartbeatIfIdle]
  split
  · rfl
  · exact flush_acked p now

theorem finish_acked (p : Publisher) (now : UInt64) : (p.finish now).1.acked = p.acked := by
  rw [finish]
  split
  · rfl
  · exact flush_acked p now

theorem publish_acked {p p' : Publisher} {c : Command} (h : p.publish c = some p') :
    p'.acked = p.acked := by
  rw [publish] at h
  split at h
  · cases h
  · cases h
    rfl

theorem onControl_acked (p : Publisher) (peer : Nat) (d : Datagram) :
    p.acked ≤ (p.onControl peer d).1.acked := by
  simp only [onControl]
  split
  · exact UInt64.le_refl _
  · split
    · split
      · rename_i h
        exact UInt64.le_of_lt h.1
      · exact UInt64.le_refl _
    · split <;> exact UInt64.le_refl _
    all_goals exact UInt64.le_refl _

theorem controlLoop_acked (p : Publisher) (ds : List (Nat × Datagram)) :
    p.acked ≤ (p.controlLoop ds).1.acked := by
  induction ds generalizing p with
  | nil => exact UInt64.le_refl _
  | cons d ds ih => exact UInt64.le_trans (p.onControl_acked d.1 d.2) (ih _)

theorem onGroup_acked (p : Publisher) (d : Datagram) : (p.onGroup d).acked = p.acked := by
  rw [onGroup]
  split <;> rfl

theorem service_acked (p : Publisher) (group : List Datagram) (control : List (Nat × Datagram)) :
    p.acked ≤ (p.service group control).1.acked := by
  have hgroup : (group.foldl onGroup p).acked = p.acked := by
    induction group generalizing p with
    | nil => rfl
    | cons d ds ih => rw [List.foldl_cons, ih, onGroup_acked]
  rw [service]
  exact UInt64.le_trans (UInt64.le_of_eq hgroup.symm) (controlLoop_acked _ control)

theorem retransmitLoop_spec (dest : Dest) {stop : UInt64} (hstop : stop.toNat < 2 ^ 63) (fuel : Nat)
    (first : UInt64) :
    ∀ s ∈ p.retransmitLoop dest stop fuel first, Piece p dest first.toNat stop.toNat s := by
  induction fuel generalizing first with
  | zero => simp [retransmitLoop]
  | succ fuel ih =>
      rw [retransmitLoop]
      by_cases hgo : first < stop
      · rw [if_pos hgo]
        have hlt := UInt64.lt_iff_toNat_lt.mp hgo
        have hsub : (stop - first).toNat = stop.toNat - first.toNat :=
          UInt64.toNat_sub_of_le _ _ (UInt64.le_of_lt hgo)
        have hper : kPerPacket = 25 := rfl
        have hnext : (first + UInt64.ofNat kPerPacket).toNat = first.toNat + kPerPacket := by
          rw [UInt64.toNat_add, UInt64.toNat_ofNat']
          omega
        intro s hs
        rcases List.mem_cons.mp hs with rfl | hs
        · exact ⟨first, _, rfl, by omega, by omega, Nat.le_refl _, by omega⟩
        · obtain ⟨f, n, hs, h0, hn, h1, h2⟩ := ih _ s hs
          exact ⟨f, n, hs, h0, hn, by omega, h2⟩
      · rw [if_neg hgo]
        simp

/-- What one control datagram does: an acknowledgement moves `acked`, and a request is answered
from the ring or refused. -/
theorem onControl_spec (hbound : p.nextSeq.toNat < 2 ^ 63) (peer : Nat) (d : Datagram) :
    ((p.onControl peer d).1 = p ∨
      (d.header.kind = .ack ∧ d.header.epoch = p.epoch ∧ p.fenced = false ∧
      p.acked < d.header.firstSeq ∧ d.header.firstSeq < p.nextSeq ∧
      (p.onControl peer d).1 = { p with acked := d.header.firstSeq })) ∧
    ∀ s ∈ (p.onControl peer d).2, d.header.kind = .retransmit ∧ d.header.epoch = p.epoch ∧
    p.fenced = false ∧
      ((s = p.sendControl .unavailable p.oldest (.peer peer) ∧ d.header.firstSeq < p.oldest) ∨
        (p.oldest ≤ d.header.firstSeq ∧ Piece p (.peer peer) d.header.firstSeq.toNat
          (min (d.header.firstSeq + d.header.count.toUInt64) p.nextSeq).toNat s)) := by
  rw [onControl]
  by_cases hskip : d.header.magic ≠ kMagic ∨ d.header.epoch ≠ p.epoch ∨ p.fenced = true
  · simp only [if_pos hskip]
    exact ⟨.inl trivial, by simp⟩
  simp only [if_neg hskip]
  rw [not_or, not_or, not_not, not_not, Bool.not_eq_true] at hskip
  obtain ⟨_, hepoch, hfen⟩ := hskip
  have hstop : (min (d.header.firstSeq + d.header.count.toUInt64) p.nextSeq).toNat < 2 ^ 63 := by
    rw [toNat_min]
    omega
  cases hk : d.header.kind with
  | ack =>
      simp only
      split
      · rename_i hack
        exact ⟨.inr ⟨trivial, hepoch, hfen, hack.1, hack.2, rfl⟩, by simp⟩
      · exact ⟨.inl rfl, by simp⟩
  | retransmit =>
      simp only
      split
      · rename_i hold
        refine ⟨.inl rfl, fun s hs =>
          ⟨trivial, hepoch, hfen, .inl ⟨List.mem_singleton.mp hs, hold⟩⟩⟩
      · rename_i hold
        refine ⟨.inl rfl, fun s hs => ⟨trivial, hepoch, hfen, .inr ⟨UInt64.not_lt.mp hold, ?_⟩⟩⟩
        exact retransmitLoop_spec _ hstop _ _ s hs
  | data => exact ⟨.inl rfl, by simp⟩
  | heartbeat => exact ⟨.inl rfl, by simp⟩
  | endOfStream => exact ⟨.inl rfl, by simp⟩
  | unavailable => exact ⟨.inl rfl, by simp⟩

theorem Keeps.oldest_eq (h : Keeps p lo all) :
    p.oldest.toNat = max (p.nextSeq.toNat - p.ringSize) lo := by
  have hbound := h.bounded
  have hlo := h.lo_pos
  rw [oldest, toNat_max, h.history]
  split
  · rename_i hbig
    rw [UInt64.toNat_sub_of_le _ _
      (UInt64.le_iff_toNat_le.mpr (by rw [UInt64.toNat_ofNat']; omega)), UInt64.toNat_ofNat']
    omega
  · rw [UInt64.toNat_one]
    omega

theorem Keeps.piece_named (h : Keeps p lo all) {dest : Dest} {a b : Nat} {s : Sent}
    (hs : Piece p dest a b s) (hlo : lo ≤ a) (hring : p.nextSeq.toNat ≤ a + p.ringSize)
    (hb : b ≤ p.nextSeq.toNat) : Named all s.datagram := by
  obtain ⟨first, n, rfl, _, hn, h1, h2⟩ := hs
  exact h.data_named hn (by omega) (by omega) (by omega)

theorem Keeps.staged_named (h : Keeps p lo all) (hring : p.staged ≤ p.ringSize) {s : Sent}
    (hs : Piece p .group p.pendingFirst.toNat p.nextSeq.toNat s) : Named all s.datagram := by
  have hle := h.pending_le
  rw [staged, UInt64.toNat_sub_of_le _ _ (UInt64.le_iff_toNat_le.mpr hle)] at hring
  exact h.piece_named hs h.lo_le (by omega) (Nat.le_refl _)

theorem Keeps.published (h : Keeps p lo all) {c : Command} {p' : Publisher}
    (hp : p.publish c = some p') (hb : p.nextSeq.toNat + 1 < 2 ^ 63) :
    Keeps p' lo (all ++ [c]) := by
  have hnext := h.next
  have hlo := h.lo_le
  have hpend := h.pending_le
  rw [publish] at hp
  split at hp
  · cases hp
  · rename_i hseq
    rw [not_not] at hseq
    cases hp
    have hsucc : (p.nextSeq + 1).toNat = p.nextSeq.toNat + 1 := by
      rw [UInt64.toNat_add, UInt64.toNat_one]
      omega
    refine ⟨h.lo_pos, ?_, fun i x hx => ?_, h.history, ?_, h.lo_le, ?_, ?_⟩
    · rw [hsucc, List.length_append, List.length_singleton]
      omega
    · rcases Nat.lt_or_ge i all.length with hi | hi
      · rw [List.getElem?_append_left hi] at hx
        exact h.numbered i x hx
      · rw [List.getElem?_append_right hi, List.getElem?_singleton] at hx
        split at hx
        · cases hx
          rw [hseq]
          omega
        · cases hx
    · have hold : Ring.Holds p.ringSize p.ring (entryAt (all ++ [c]) lo) lo p.nextSeq.toNat := by
        intro s hs hlt hnew
        rw [h.ring s hs hlt hnew, entryAt, entryAt, List.getD, List.getD,
          List.getElem?_append_left (by omega)]
      have hlast : entryAt (all ++ [c]) lo p.nextSeq.toNat = c := by
        rw [entryAt, hnext, Nat.add_sub_cancel_left]
        simp
      have hpush := hold.push c hlast
      simp only [hsucc]
      rw [show p.slot c.seq = p.nextSeq.toNat % p.ringSize by rw [slot, hseq]]
      exact hpush
    · simp only [hsucc]
      omega
    · simp only [hsucc]
      omega

theorem Keeps.of_eq (h : Keeps p lo all) {p' : Publisher} (h1 : p'.ringLog2 = p.ringLog2)
    (h2 : p'.ring = p.ring) (h3 : p'.nextSeq = p.nextSeq) (h4 : p'.historyFrom = p.historyFrom)
    (h5 : p'.pendingFirst = p.pendingFirst) :
    Keeps p' lo all := by
  refine ⟨h.lo_pos, by rw [h3, h.next], h.numbered, by rw [h4, h.history],
    ?_, by rw [h5]; exact h.lo_le, ?_, ?_⟩
  · rw [ringSize, h1, h2, h3]
    exact h.ring
  · rw [h5, h3]
    exact h.pending_le
  · rw [h3]
    exact h.bounded

theorem Keeps.onGroup (h : Keeps p lo all) (d : Datagram) : Keeps (p.onGroup d) lo all := by
  rw [Publisher.onGroup]
  split
  · exact h.of_eq rfl rfl rfl rfl rfl
  · exact h

theorem Keeps.onControl (h : Keeps p lo all) (peer : Nat) (d : Datagram) :
    Keeps (p.onControl peer d).1 lo all ∧
      ∀ s ∈ (p.onControl peer d).2, s.datagram.header.kind = .data → Named all s.datagram := by
  obtain ⟨hstate, hsent⟩ := onControl_spec h.bounded peer d
  refine ⟨?_, fun s hs hk => ?_⟩
  · rcases hstate with heq | ⟨_, _, _, _, _, heq⟩
    · rw [heq]
      exact h
    · rw [heq]
      exact h.of_eq rfl rfl rfl rfl rfl
  · obtain ⟨_, _, _, ⟨rfl, _⟩ | ⟨hold, hpiece⟩⟩ := hsent s hs
    · cases hk
    · have hold := UInt64.le_iff_toNat_le.mp hold
      rw [h.oldest_eq] at hold
      exact h.piece_named hpiece (by omega) (by omega) (by rw [toNat_min]; omega)

theorem Keeps.controlLoop (h : Keeps p lo all) (ds : List (Nat × Datagram)) :
    Keeps (p.controlLoop ds).1 lo all ∧
      ∀ s ∈ (p.controlLoop ds).2, s.datagram.header.kind = .data → Named all s.datagram := by
  induction ds generalizing p with
  | nil => exact ⟨h, by simp [Publisher.controlLoop]⟩
  | cons x ds ih =>
      obtain ⟨peer, d⟩ := x
      obtain ⟨hkeep, hsent⟩ := h.onControl peer d
      obtain ⟨hkeep', hsent'⟩ := ih hkeep
      refine ⟨hkeep', fun s hs => ?_⟩
      rcases List.mem_append.mp hs with hs | hs
      · exact hsent s hs
      · exact hsent' s hs

theorem Keeps.service (h : Keeps p lo all) (group : List Datagram)
    (control : List (Nat × Datagram)) :
    Keeps (p.service group control).1 lo all ∧
      ∀ s ∈ (p.service group control).2, s.datagram.header.kind = .data → Named all s.datagram := by
  have hgroup : Keeps (group.foldl Publisher.onGroup p) lo all := by
    induction group generalizing p with
    | nil => exact h
    | cons d ds ih => exact ih (h.onGroup d)
  exact hgroup.controlLoop control

theorem Keeps.call (h : Keeps p lo all) {c : Call}
    (hring : p.flushes c = true → p.staged ≤ p.ringSize)
    (hb : p.nextSeq.toNat + (Publisher.published c).length < 2 ^ 63) {p' : Publisher}
    {out : List Sent} (hc : p.call c = some (p', out)) :
    Keeps p' lo (all ++ Publisher.published c) ∧
      p'.nextSeq.toNat = p.nextSeq.toNat + (Publisher.published c).length ∧
      ∀ s ∈ out, s.datagram.header.kind = .data → Named all s.datagram := by
  have hstaged : p.flushes c = true → ∀ s, Piece p .group p.pendingFirst.toNat p.nextSeq.toNat s →
      Named all s.datagram := fun hf s hs => h.staged_named (hring hf) hs
  have hnext : Keeps p' lo (all ++ Publisher.published c) →
      p'.nextSeq.toNat = p.nextSeq.toNat + (Publisher.published c).length := by
    intro hk
    rw [hk.next, h.next, List.length_append]
    omega
  suffices hk : Keeps p' lo (all ++ Publisher.published c) ∧
      ∀ s ∈ out, s.datagram.header.kind = .data → Named all s.datagram by
    exact ⟨hk.1, hnext hk.1, hk.2⟩
  cases c with
  | publish x =>
      obtain ⟨q, hq, heq⟩ := Option.map_eq_some_iff.mp hc
      cases heq
      exact ⟨h.published hq hb, by simp⟩
  | flush now =>
      obtain ⟨hm, hpieces, _⟩ := flush_spec h.pending_le now
      obtain rfl : p' = (p.flush now).1 := (congrArg Prod.fst (Option.some.inj hc)).symm
      obtain rfl : out = (p.flush now).2 := (congrArg Prod.snd (Option.some.inj hc)).symm
      rw [Publisher.published, List.append_nil]
      exact ⟨h.moved hm, fun s hs _ => hstaged rfl s (hpieces s hs)⟩
  | heartbeat now interval =>
      obtain ⟨hm, hidle, hsent⟩ := heartbeatIfIdle_spec h.pending_le now interval
      obtain rfl : p' = (p.heartbeatIfIdle now interval).1 :=
        (congrArg Prod.fst (Option.some.inj hc)).symm
      obtain rfl : out = (p.heartbeatIfIdle now interval).2 :=
        (congrArg Prod.snd (Option.some.inj hc)).symm
      rw [Publisher.published, List.append_nil]
      refine ⟨h.moved hm, fun s hs hk => ?_⟩
      cases hf : p.flushes (.heartbeat now interval) with
      | false =>
          rw [hidle hf] at hs
          cases hs
      | true =>
          rcases (hsent hf).2 s hs with hp | rfl
          · exact hstaged hf s hp
          · cases hk
  | finish now =>
      obtain ⟨hm, hidle, hsent⟩ := finish_spec h.pending_le now
      obtain rfl : p' = (p.finish now).1 := (congrArg Prod.fst (Option.some.inj hc)).symm
      obtain rfl : out = (p.finish now).2 := (congrArg Prod.snd (Option.some.inj hc)).symm
      rw [Publisher.published, List.append_nil]
      refine ⟨h.moved hm, fun s hs hk => ?_⟩
      cases hf : p.flushes (.finish now) with
      | false =>
          rw [hidle hf] at hs
          cases hs
      | true =>
          rcases (hsent hf).2 s hs with hp | rfl
          · exact hstaged hf s hp
          · cases hk
  | service group control =>
      obtain rfl : p' = (p.service group control).1 := (congrArg Prod.fst (Option.some.inj hc)).symm
      obtain rfl : out = (p.service group control).2 :=
        (congrArg Prod.snd (Option.some.inj hc)).symm
      rw [Publisher.published, List.append_nil]
      exact h.service group control

theorem seedAll_spec {seeds : List Command} (hlo : 1 ≤ lo)
    (hseeds : ∀ i c, all[i]? = some c → c.seq.toNat = lo + i) (done : List Command)
    (hall : all = done ++ seeds) (hnext : p.nextSeq.toNat = lo + all.length)
    (hbound : p.nextSeq.toNat < 2 ^ 63) (hpend : p.pendingFirst = p.nextSeq)
    (hhist : p.historyFrom.toNat = if done = [] then p.nextSeq.toNat else lo)
    (hring : Ring.Holds p.ringSize p.ring (entryAt all lo) lo (lo + done.length)) :
    ∃ p', p.seedAll seeds = some p' ∧ Keeps p' lo all ∧ p'.nextSeq = p.nextSeq := by
  induction seeds generalizing p done with
  | nil =>
      rw [List.append_nil] at hall
      subst hall
      refine ⟨p, rfl, ⟨hlo, hnext, hseeds, ?_, by rw [hnext]; exact hring, ?_, ?_, hbound⟩, rfl⟩
      · rw [hhist]
        split
        · rename_i hnil
          rw [hnext, hnil]
          rfl
        · rfl
      · rw [hpend, hnext]
        omega
      · rw [hpend]
  | cons c seeds ih =>
      have hget : all[done.length]? = some c := by simp [hall]
      have hseq : c.seq.toNat = lo + done.length := hseeds _ _ hget
      have hlen : all.length = done.length + (seeds.length + 1) := by simp [hall]
      let p' : Publisher := { p with
        ring := Function.update p.ring (p.slot c.seq) c
        historyFrom := min p.historyFrom c.seq }
      have hstep : p.seedHistory c = some p' := by
        rw [seedHistory, if_neg]
        rw [UInt64.le_iff_toNat_le]
        omega
      obtain ⟨q, hq, hkeep, hsame⟩ := ih (p := p') (done ++ [c]) (by simp [hall]) hnext hbound hpend
        (by
          rw [if_neg (by simp), toNat_min, hhist, hseq]
          split
          · rename_i hnil
            rw [hnil, hnext, List.length_nil]
            omega
          · omega)
        (by
          have hpush := hring.push c (by simp [entryAt, hget])
          rw [List.length_append, List.length_singleton, ← Nat.add_assoc]
          change Ring.Holds p.ringSize (Function.update p.ring (c.seq.toNat % p.ringSize) c) _ _ _
          rw [hseq]
          exact hpush)
      exact ⟨q, by rw [seedAll, List.foldlM_cons, hstep]; exact hq, hkeep, hsame⟩

theorem seedAll_same {seeds : List Command} {p' : Publisher} (h : p.seedAll seeds = some p') :
    p'.epoch = p.epoch ∧ p'.pendingFirst = p.pendingFirst ∧ p'.acked = p.acked := by
  induction seeds generalizing p with
  | nil =>
      cases h
      exact ⟨rfl, rfl, rfl⟩
  | cons c seeds ih =>
      rw [seedAll, List.foldlM_cons] at h
      obtain ⟨q, hq, hrest⟩ := Option.bind_eq_some_iff.mp h
      rw [seedHistory] at hq
      split at hq
      · cases hq
      · cases hq
        obtain ⟨h1, h2, h3⟩ := ih (p := { p with
          ring := Function.update p.ring (p.slot c.seq) c
          historyFrom := min p.historyFrom c.seq }) hrest
        exact ⟨h1, h2, h3⟩

theorem Keeps.run (h : Keeps p lo all) {calls : List Call} (hring : p.WithinRing calls)
    (hb : p.nextSeq.toNat + (calls.flatMap Publisher.published).length < 2 ^ 63) {p' : Publisher}
    {sent : List Sent} (hrun : p.run calls = some (p', sent)) :
    Keeps p' lo (all ++ calls.flatMap Publisher.published) ∧
      ∀ s ∈ sent, s.datagram.header.kind = .data →
      Named (all ++ calls.flatMap Publisher.published) s.datagram := by
  induction calls generalizing p all sent with
  | nil =>
      obtain ⟨rfl, rfl⟩ := Prod.mk.inj (Option.some.inj hrun)
      rw [List.flatMap_nil, List.append_nil]
      exact ⟨h, by simp⟩
  | cons c cs ih =>
      obtain ⟨⟨p₁, out⟩, hcall, hrun⟩ := Option.bind_eq_some_iff.mp hrun
      obtain ⟨⟨p₂, rest⟩, hrest, hend⟩ := Option.bind_eq_some_iff.mp hrun
      obtain ⟨rfl, rfl⟩ := Prod.mk.inj (Option.some.inj hend)
      rw [List.flatMap_cons, List.length_append] at hb
      obtain ⟨hkeep, hnext, hsent⟩ := h.call hring.1 (by omega) hcall
      obtain ⟨hkeep', hsent'⟩ := ih hkeep (hring.2 _ _ hcall) (by omega) hrest
      rw [List.append_assoc] at hkeep' hsent'
      refine ⟨hkeep', fun s hs hk => ?_⟩
      rcases List.mem_append.mp hs with hs | hs
      · obtain ⟨hlen, hall⟩ := hsent s hs hk
        exact ⟨hlen, fun i x hx => ⟨List.mem_append_left _ (hall i x hx).1, (hall i x hx).2⟩⟩
      · exact hsent' s hs hk

theorem Keeps.held_iff (h : Keeps p lo all) (s : Nat) :
    p.Held all s ↔ lo ≤ s ∧ s < p.nextSeq.toNat ∧ p.nextSeq.toNat ≤ s + p.ringSize := by
  have hnext := h.next
  have hentry : ∀ c ∈ all, lo ≤ c.seq.toNat ∧ c.seq.toNat < p.nextSeq.toNat ∧
      entryAt all lo c.seq.toNat = c := by
    intro c hc
    obtain ⟨i, hi⟩ := List.mem_iff_getElem?.mp hc
    obtain ⟨hlt, _⟩ := List.getElem?_eq_some_iff.mp hi
    have hseq := h.numbered i c hi
    refine ⟨by omega, by omega, ?_⟩
    rw [entryAt, hseq, Nat.add_sub_cancel_left, List.getD, hi]
    rfl
  constructor
  · rintro ⟨c, hc, rfl, hslot⟩
    obtain ⟨h1, h2, h3⟩ := hentry c hc
    refine ⟨h1, h2, h.ring.newest (Nat.two_pow_pos _) (fun s t hs hs' ht ht' heq => ?_) h1 h2 (by
      rw [hslot, h3])⟩
    have hs := (h.get hs hs').2
    have ht := (h.get ht ht').2
    rw [heq] at hs
    omega
  · rintro ⟨h1, h2, h3⟩
    obtain ⟨hmem, hseq⟩ := h.get h1 h2
    exact ⟨_, hmem, hseq, h.ring s h1 h2 h3⟩

theorem Keeps.oldest_isLeast (h : Keeps p lo all) :
    IsLeast (insert p.nextSeq.toNat {s | p.Held all s}) p.oldest.toNat := by
  have hnext := h.next
  have hsize : 0 < p.ringSize := Nat.two_pow_pos _
  rw [h.oldest_eq]
  refine ⟨?_, fun s hs => ?_⟩
  · by_cases hnone : lo = p.nextSeq.toNat
    · left
      omega
    · right
      rw [Set.mem_ofPred_eq, h.held_iff]
      omega
  · rcases hs with rfl | hs
    · omega
    · rw [Set.mem_ofPred_eq, h.held_iff] at hs
      omega

/-- Whenever at most a ring of commands is staged between two flushes, every datagram carries the
commands it names, and a request is refused exactly when it begins before the oldest command
held. -/
theorem sends_what_it_names (ringLog2 : Nat) (coins : Nat → Bool) (epoch : UInt32)
    (nextSeq : UInt64) (seeds : List Command) (first : Nat) (hfirst : 1 ≤ first)
    (hnext : nextSeq.toNat = first + seeds.length)
    (hseeds : ∀ i c, seeds[i]? = some c → c.seq.toNat = first + i) {start stop : Publisher}
    (calls : List Call) {sent : List Sent}
    (hstart : (make ringLog2 coins nextSeq epoch).seedAll seeds = some start)
    (hrun : start.run calls = some (stop, sent))
    (hsmall : nextSeq.toNat + (calls.flatMap published).length < 2 ^ 63)
    (hring : start.WithinRing calls) :
    (∀ s ∈ sent, s.datagram.header.kind = .data →
      Named (seeds ++ calls.flatMap published) s.datagram) ∧
      ∃ oldest, IsLeast (insert stop.nextSeq.toNat
        {s | stop.Held (seeds ++ calls.flatMap published) s}) oldest ∧
        ∀ peer d, d.header.magic = kMagic → d.header.kind = .retransmit →
        d.header.epoch = stop.epoch →
          stop.fenced = false →
          ((∃ s ∈ (stop.onControl peer d).2, s.datagram.header.kind = .unavailable) ↔
            d.header.firstSeq.toNat < oldest) := by
  obtain ⟨q, hq, hkeep, hsame⟩ :=
    seedAll_spec (p := make ringLog2 coins nextSeq epoch) hfirst hseeds [] rfl hnext
    (by change nextSeq.toNat < _; omega) rfl rfl (Ring.holds_empty _ _ _ _)
  obtain rfl : start = q := Option.some.inj (hstart.symm.trans hq)
  obtain ⟨hend, hsent⟩ := hkeep.run hring (by rw [hsame]; exact hsmall) hrun
  refine ⟨hsent, stop.oldest.toNat, hend.oldest_isLeast, fun peer d hmagic hkind hepoch hfen => ?_⟩
  have hgo : ¬ (d.header.magic ≠ kMagic ∨ d.header.epoch ≠ stop.epoch ∨ stop.fenced = true) := by
    simp [hmagic, hepoch, hfen]
  rw [← UInt64.lt_iff_toNat_lt]
  constructor
  · rintro ⟨s, hs, hu⟩
    obtain ⟨_, _, _, ⟨_, hold⟩ | ⟨_, _, _, hpiece, _⟩⟩ :=
      (onControl_spec hend.bounded peer d).2 s hs
    · exact hold
    · rw [hpiece] at hu
      cases hu
  · intro hold
    refine ⟨stop.sendControl .unavailable stop.oldest (.peer peer), ?_, rfl⟩
    simp only [onControl, if_neg hgo, hkind, if_pos hold, List.mem_singleton]

/-- The command with a sequence number, as a sequencer would stamp it. -/
def numbered (seq : UInt64) : Command := { orderId := seq, seq := seq, type := .newOrder }

theorem sends_what_it_names_small :
    ∃ start stop sent, (make 1 (fun _ => false) 3 7).seedAll [numbered 1, numbered 2] = some start ∧
      start.run [.publish (numbered 3), .flush 0] = some (stop, sent) ∧
      ((∀ s ∈ sent, s.datagram.header.kind = .data →
        Named ([numbered 1, numbered 2] ++ [numbered 3]) s.datagram) ∧
        ∃ oldest, IsLeast (insert stop.nextSeq.toNat
          {s | stop.Held ([numbered 1, numbered 2] ++ [numbered 3]) s}) oldest ∧
          ∀ peer d, d.header.magic = kMagic → d.header.kind = .retransmit →
          d.header.epoch = stop.epoch →
            stop.fenced = false →
            ((∃ s ∈ (stop.onControl peer d).2, s.datagram.header.kind = .unavailable) ↔
              d.header.firstSeq.toNat < oldest)) := by
  refine ⟨_, _, _, rfl, rfl, ?_⟩
  refine sends_what_it_names 1 (fun _ => false) 7 3 [numbered 1, numbered 2] 1
    (by decide) (by decide) ?_
    [.publish (numbered 3), .flush 0] rfl rfl (by decide) ?_
  · intro i c hc
    match i, hc with
    | 0, hc => cases hc; rfl
    | 1, hc => cases hc; rfl
  · refine ⟨by decide, fun p out hc => ⟨fun _ => ?_, fun _ _ _ => trivial⟩⟩
    cases hc
    decide

/-- Two commands staged in a ring of one slot: the datagram for 1 and 2 carries 2 twice. -/
theorem overwritten_before_sent :
    ∃ stop sent, (make 0 (fun _ => false) 1 1).run
      [.publish (numbered 1), .publish (numbered 2), .flush 0] =
        some (stop, sent) ∧
      ∃ s ∈ sent, s.datagram.header.kind = .data ∧ ¬ Named [numbered 1, numbered 2] s.datagram := by
  refine ⟨_, _, rfl, _, List.mem_singleton_self _, rfl, fun hnamed => ?_⟩
  have := (hnamed.2 0 (numbered 2) rfl).2
  exact absurd this (by decide)

end Publisher
end ExchangeSim.Stream
