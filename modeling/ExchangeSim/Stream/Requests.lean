/- digest: A replica asks only for what has been announced to it, and what the publisher sends in
   answer is that. -/

import ExchangeSim.Stream.Publisher
import ExchangeSim.Stream.Subscriber

set_option autoImplicit false
set_option relaxedAutoImplicit false

namespace ExchangeSim.Stream

open ExchangeSim.Lib

/-- The datagram speaks of no sequence number from `bound` on. -/
def Within (bound : Nat) (d : Datagram) : Prop :=
  match d.header.kind with
  | .data => d.cmds.length = d.header.count.toNat ∧
      d.header.firstSeq.toNat + d.header.count.toNat ≤ bound
  | .heartbeat => d.header.firstSeq.toNat ≤ bound
  | .endOfStream => d.header.firstSeq.toNat ≤ bound
  | .retransmit => True
  | .ack => True
  | .unavailable => True

theorem Within.mono {a b : Nat} {d : Datagram} (h : Within a d) (hab : a ≤ b) : Within b d := by
  rw [Within] at h ⊢
  revert h
  cases d.header.kind with
  | data => exact fun h => ⟨h.1, Nat.le_trans h.2 hab⟩
  | heartbeat => exact fun h => Nat.le_trans h hab
  | endOfStream => exact fun h => Nat.le_trans h hab
  | retransmit => exact id
  | ack => exact id
  | unavailable => exact id

namespace Subscriber

variable {s : Subscriber} {bound : Nat}

structure Knows (bound : Nat) (s : Subscriber) : Prop where
  next : s.knownNext.toNat ≤ bound
  stash : ∀ e ∈ s.stash, e.1.toNat + e.2.length ≤ bound

theorem Knows.deliver (h : Knows bound s) {k : UInt64} {cmds : List Command}
    (hk : k.toNat + cmds.length ≤ bound) (hb : bound < 2 ^ 63) :
    Knows bound (s.deliver k cmds).1 := by
  refine ⟨?_, h.stash⟩
  have hend : (k + UInt64.ofNat cmds.length).toNat = k.toNat + cmds.length := by
    rw [UInt64.toNat_add, UInt64.toNat_ofNat']
    omega
  have hnext := h.next
  simp only [Subscriber.deliver, toNat_max, hend]
  omega

theorem Knows.drainStash (hb : bound < 2 ^ 63) {st : Stash} (h : Knows bound s)
    (hst : ∀ e ∈ st, e.1.toNat + e.2.length ≤ bound) : Knows bound (s.drainStash st).1 := by
  induction st generalizing s with
  | nil => exact ⟨h.next, fun e he => nomatch he⟩
  | cons e rest ih =>
      obtain ⟨k, cmds⟩ := e
      have hrest : ∀ e ∈ rest, e.1.toNat + e.2.length ≤ bound :=
        fun e he => hst e (List.mem_cons_of_mem _ he)
      rw [Subscriber.drainStash]
      split
      · split
        · exact ih (h.deliver (hst (k, cmds) List.mem_cons_self) hb) hrest
        · exact ih h hrest
      · exact ⟨h.next, hst⟩

theorem Knows.onData (hb : bound < 2 ^ 63) (h : Knows bound s) {d : Datagram}
    (hd : d.cmds.length = d.header.count.toNat ∧
      d.header.firstSeq.toNat + d.header.count.toNat ≤ bound) :
    Knows bound (s.onData d).1 := by
  have hpiece : d.header.firstSeq.toNat + d.cmds.length ≤ bound := by
    rw [hd.1]
    exact hd.2
  rw [Subscriber.onData]
  split
  · exact h
  split
  · exact h
  split
  · refine ⟨h.next, fun e he => ?_⟩
    rcases mem_emplace he with rfl | he
    · exact hpiece
    · exact h.stash e he
  · have hone := h.deliver hpiece hb
    exact hone.drainStash hb hone.stash

theorem Knows.heed (hb : bound < 2 ^ 63) (h : Knows bound s) {d : Datagram} (hd : Within bound d) :
    Knows bound (s.heed d).1 := by
  have hnext := h.next
  rw [Within] at hd
  rw [Subscriber.heed]
  cases hk : d.header.kind with
  | data =>
      rw [hk] at hd
      exact h.onData hb hd
  | heartbeat =>
      rw [hk] at hd
      refine ⟨?_, h.stash⟩
      simp only [toNat_max]
      omega
  | endOfStream =>
      rw [hk] at hd
      refine ⟨?_, h.stash⟩
      simp only [toNat_max]
      omega
  | retransmit => exact h
  | ack => exact h
  | unavailable => exact ⟨h.next, h.stash⟩

structure Informed (e : UInt32) (bound : Nat) (s : Subscriber) : Prop where
  least : 1 ≤ s.minEpoch
  fresh : s.epoch = 0 → s.knownNext = 0 ∧ s.stash = []
  knows : s.epoch = e → Knows bound s

theorem informed_make (e : UInt32) (bound : Nat) (firstSeq : UInt64) {minEpoch : UInt32}
    (hmin : 1 ≤ minEpoch) :
    Informed e bound (make firstSeq minEpoch) :=
  ⟨hmin, fun _ => ⟨rfl, rfl⟩, fun _ => ⟨Nat.zero_le _, fun _ he => nomatch he⟩⟩

theorem Informed.mono {e : UInt32} {bound' : Nat} (h : Informed e bound s) (hle : bound ≤ bound') :
    Informed e bound' s where
  least := h.least
  fresh := h.fresh
  knows he := ⟨Nat.le_trans (h.knows he).next hle,
    fun x hx => Nat.le_trans ((h.knows he).stash x hx) hle⟩

theorem Informed.receive {e : UInt32} (hb : bound < 2 ^ 63) (h : Informed e bound s)
    (now : UInt64) {d : Datagram} (hd : d.header.epoch = e → Within bound d) :
    Informed e bound (s.receive now d).1 := by
  rcases receive_cases s now d with ⟨heq, _⟩ | ⟨_, _, hne, _, heq⟩ | ⟨_, hle, hlock, heq⟩
  · rw [heq]
    exact h
  · rw [heq]
    exact ⟨h.least, fun hz => absurd hz hne, fun he => ⟨(h.knows he).next, (h.knows he).stash⟩⟩
  · have hsame := heed_same { s with epoch := d.header.epoch, lastHeard := now } d
    have hpos : d.header.epoch ≠ 0 := by
      intro hz
      rw [hz] at hle
      exact absurd (UInt32.le_trans h.least hle) (by decide)
    rw [heq]
    refine ⟨?_, fun hz => ?_, fun he => ?_⟩
    · rw [hsame.minEpoch]
      exact h.least
    · rw [hsame.epoch] at hz
      exact absurd hz hpos
    · rw [hsame.epoch] at he
      refine Knows.heed hb ?_ (hd he)
      rcases hlock with hz | hl
      · obtain ⟨hk, hst⟩ := h.fresh hz
        exact ⟨by simp [hk], by simp [hst]⟩
      · have hk := h.knows (hl.trans he)
        exact ⟨hk.next, hk.stash⟩

/-- Where the gap that is asked for ends. -/
def gapEnd (s : Subscriber) : UInt64 :=
  match s.stash with
  | [] => s.knownNext
  | (k, _) :: _ => k

theorem Knows.gapEnd_le (h : Knows bound s) : s.gapEnd.toNat ≤ bound := by
  rw [gapEnd]
  cases hst : s.stash with
  | nil => exact h.next
  | cons x rest =>
      have := h.stash x (by rw [hst]; exact List.mem_cons_self)
      change x.1.toNat ≤ bound
      omega

theorem requestGap_eq (s : Subscriber) (now : UInt64) : s.requestGap now =
    if s.gapEnd ≤ s.expected ∨ s.epoch = 0 then (s, none)
    else if s.requestedFrom = s.expected ∧ now - s.requestedAt < 20000000 then (s, none)
    else ({ s with requestedFrom := s.expected, requestedAt := now },
      some ⟨header .retransmit s.epoch s.expected (min (s.gapEnd - s.expected) 4096).toUInt16,
        []⟩) := rfl

theorem Informed.requestGap {e : UInt32} (h : Informed e bound s) (now : UInt64) :
    Informed e bound (s.requestGap now).1 ∧ ∀ req, (s.requestGap now).2 = some req →
    req.header.epoch = e →
      req.header.firstSeq.toNat + req.header.count.toNat ≤ bound := by
  rw [requestGap_eq]
  split
  · exact ⟨h, fun req hreq => nomatch hreq⟩
  rename_i hgo
  split
  · exact ⟨h, fun req hreq => nomatch hreq⟩
  refine ⟨⟨h.least, h.fresh, fun he => ⟨(h.knows he).next, (h.knows he).stash⟩⟩,
    fun req hreq he => ?_⟩
  cases hreq
  rw [not_or, UInt64.not_le] at hgo
  have hlt := UInt64.lt_iff_toNat_lt.mp hgo.1
  have hend := (h.knows he).gapEnd_le
  have hcount : ((min (s.gapEnd - s.expected) 4096).toUInt16).toNat ≤ s.gapEnd.toNat -
      s.expected.toNat := by
    have hsub : (s.gapEnd - s.expected).toNat = s.gapEnd.toNat - s.expected.toNat :=
      UInt64.toNat_sub_of_le _ _ (UInt64.le_of_lt hgo.1)
    rw [UInt64.toNat_toUInt16, toNat_min, hsub]
    have : (4096 : UInt64).toNat = 4096 := rfl
    omega
  change s.expected.toNat + ((min (s.gapEnd - s.expected) 4096).toUInt16).toNat ≤ bound
  omega

theorem requestGap_kind {now : UInt64} {req : Datagram} (h : (s.requestGap now).2 = some req) :
    req.header.kind = .retransmit := by
  rw [requestGap_eq] at h
  revert h
  split
  · exact fun h => nomatch h
  split
  · exact fun h => nomatch h
  · intro h
    cases h
    rfl

/-- What a subscriber does between two requests: it reads a datagram, or looks for a gap. -/
inductive Turn where
  | receive (now : UInt64) (d : Datagram)
  | ask (now : UInt64)

def follow (s : Subscriber) : List Turn → Subscriber
  | [] => s
  | .receive now d :: ts => follow (s.receive now d).1 ts
  | .ask now :: ts => follow (s.requestGap now).1 ts

/-- A request of a subscriber that has read, of the datagrams of epoch `e`, only those of
`heard`. -/
def Conforms (e : UInt32) (heard : Datagram → Prop) (req : Datagram) : Prop :=
  ∃ firstSeq minEpoch turns now, 1 ≤ minEpoch ∧
    (∀ t d, Turn.receive t d ∈ turns → d.header.epoch = e → heard d) ∧
    (((make firstSeq minEpoch).follow turns).requestGap now).2 = some req

theorem Informed.follow {e : UInt32} (hb : bound < 2 ^ 63) (h : Informed e bound s)
    {turns : List Turn} (hd : ∀ t d, Turn.receive t d ∈ turns → d.header.epoch = e →
      Within bound d) : Informed e bound (s.follow turns) := by
  induction turns generalizing s with
  | nil => exact h
  | cons t ts ih =>
      have hrest : ∀ t d, Turn.receive t d ∈ ts → d.header.epoch = e → Within bound d :=
        fun t d ht => hd t d (List.mem_cons_of_mem _ ht)
      cases t with
      | receive now d => exact ih (h.receive hb now (hd now d List.mem_cons_self)) hrest
      | ask now => exact ih (h.requestGap now).1 hrest

theorem Conforms.within {e : UInt32} (hb : bound < 2 ^ 63) {heard : Datagram → Prop}
    (hheard : ∀ d, heard d → d.header.epoch = e → Within bound d) {req : Datagram}
    (h : Conforms e heard req) (he : req.header.epoch = e) :
    req.header.firstSeq.toNat + req.header.count.toNat ≤ bound := by
  obtain ⟨firstSeq, minEpoch, turns, now, hmin, hd, hreq⟩ := h
  have hinf := (informed_make e bound firstSeq hmin).follow hb fun t d ht hde =>
    hheard d (hd t d ht hde) hde
  exact (hinf.requestGap now).2 req hreq he

end Subscriber

namespace Publisher

variable {p : Publisher} {lo : Nat} {all : List Command}

theorem Keeps.slot_mem (h : Keeps p lo all) {s : Nat} (hlo : lo ≤ s) (hlt : s < p.nextSeq.toNat) :
    p.ring (s % p.ringSize) ∈ all := by
  have hsize : 0 < p.ringSize := Nat.two_pow_pos _
  -- The newest sequence number of the slot.
  have hdiv := Nat.div_add_mod (p.nextSeq.toNat - 1 - s) p.ringSize
  have hmod := Nat.mod_lt (p.nextSeq.toNat - 1 - s) hsize
  generalize (p.nextSeq.toNat - 1 - s) / p.ringSize = k at hdiv
  generalize (p.nextSeq.toNat - 1 - s) % p.ringSize = r at hdiv hmod
  have hslot : s % p.ringSize = (s + p.ringSize * k) % p.ringSize :=
    (Nat.add_mul_mod_self_left ..).symm
  rw [hslot, h.ring (s + p.ringSize * k) (by omega) (by omega) (by omega)]
  exact (h.get (by omega) (by omega)).1

theorem Keeps.piece_mem (h : Keeps p lo all) {dest : Dest} {a b : Nat} {s : Sent}
    (hs : Piece p dest a b s) (hlo : lo ≤ a) (hb : b ≤ p.nextSeq.toNat) :
    s.datagram.header.epoch = p.epoch ∧ Within b s.datagram ∧ ∀ c ∈ s.datagram.cmds, c ∈ all := by
  obtain ⟨first, n, rfl, _, hn, h1, h2⟩ := hs
  have hbound := h.bounded
  have hper : n ≤ 25 := hn
  have hcount : (UInt16.ofNat n).toNat = n := by
    rw [UInt16.toNat_ofNat']
    omega
  refine ⟨rfl, ⟨?_, ?_⟩, fun c hc => ?_⟩
  · simp only [sendData, dataOf, header, List.length_map, List.length_range, hcount]
  · simp only [sendData, dataOf, header, hcount]
    exact h2
  · simp only [sendData, dataOf, List.mem_map, List.mem_range] at hc
    obtain ⟨i, hi, rfl⟩ := hc
    have hseq : (first + UInt64.ofNat i).toNat = first.toNat + i := by
      rw [UInt64.toNat_add, UInt64.toNat_ofNat']
      omega
    rw [slot, hseq]
    exact h.slot_mem (by omega) (by omega)

structure Emits (p : Publisher) (all : List Command) (bound : Nat) (s : Sent) : Prop where
  epoch : s.datagram.header.epoch = p.epoch
  within : Within bound s.datagram
  cmds : s.datagram.header.kind = .data → ∀ c ∈ s.datagram.cmds, c ∈ all
  named : p.staged ≤ p.ringSize → s.datagram.header.kind = .data → Named all s.datagram

theorem Keeps.emits_piece (h : Keeps p lo all) {s : Sent}
    (hs : Piece p .group p.pendingFirst.toNat p.nextSeq.toNat s) :
    Emits p all p.nextSeq.toNat s := by
  obtain ⟨he, hw, hc⟩ := h.piece_mem hs h.lo_le (Nat.le_refl _)
  exact ⟨he, hw, fun _ => hc, fun hring _ => h.staged_named hring hs⟩

theorem Keeps.emits_flush (h : Keeps p lo all) (now : UInt64) :
    ∀ s ∈ (p.flush now).2, Emits p all p.nextSeq.toNat s := by
  obtain ⟨_, hpieces, _⟩ := flush_spec h.pending_le now
  exact fun s hs => h.emits_piece (hpieces s hs)

theorem Keeps.emits_heartbeat (h : Keeps p lo all) (now interval : UInt64) :
    ∀ s ∈ (p.heartbeatIfIdle now interval).2, Emits p all p.nextSeq.toNat s := by
  obtain ⟨_, hidle, hgo⟩ := heartbeatIfIdle_spec h.pending_le now interval
  intro s hs
  cases hf : p.flushes (.heartbeat now interval) with
  | false =>
      rw [hidle hf] at hs
      cases hs
  | true =>
      rcases (hgo hf).2 s hs with hp | rfl
      · exact h.emits_piece hp
      · exact ⟨rfl, Nat.le_refl _, fun hk => (nomatch hk), fun _ hk => (nomatch hk)⟩

theorem Keeps.emits_finish (h : Keeps p lo all) (now : UInt64) :
    ∀ s ∈ (p.finish now).2, Emits p all p.nextSeq.toNat s := by
  obtain ⟨_, hidle, hgo⟩ := finish_spec h.pending_le now
  intro s hs
  cases hf : p.flushes (.finish now) with
  | false =>
      rw [hidle hf] at hs
      cases hs
  | true =>
      rcases (hgo hf).2 s hs with hp | rfl
      · exact h.emits_piece hp
      · exact ⟨rfl, Nat.le_refl _, fun hk => (nomatch hk), fun _ hk => (nomatch hk)⟩

/-- The requests among the control datagrams ask for nothing from `bound` on. -/
def Asks (p : Publisher) (bound : Nat) (ds : List (Nat × Datagram)) : Prop :=
  ∀ x ∈ ds, x.2.header.kind = .retransmit → x.2.header.epoch = p.epoch →
    x.2.header.firstSeq.toNat + x.2.header.count.toNat ≤ bound

/-- An answer carries commands from before `bound`. -/
def Answers (p : Publisher) (all : List Command) (bound : Nat) (s : Sent) : Prop :=
  Emits p all bound s ∧ (s.datagram.header.kind = .data → Named all s.datagram)

theorem Answers.before {bound : Nat} {s : Sent} (h : Answers p all bound s)
    (hk : s.datagram.header.kind = .data) :
    ∀ c ∈ s.datagram.cmds, c ∈ all ∧ c.seq.toNat < bound := by
  obtain ⟨⟨_, hw, _, _⟩, hn⟩ := h
  obtain ⟨hlen, hget⟩ := hn hk
  simp only [Within, hk] at hw
  intro c hc
  obtain ⟨i, hi⟩ := List.mem_iff_getElem?.mp hc
  obtain ⟨hmem, hseq⟩ := hget i c hi
  have hlt := (List.getElem?_eq_some_iff.mp hi).1
  exact ⟨hmem, by omega⟩

theorem Keeps.answers (h : Keeps p lo all) {bound : Nat} (hb : bound ≤ p.nextSeq.toNat)
    {peer : Nat} {d : Datagram} (hd : d.header.kind = .retransmit → d.header.epoch = p.epoch →
      d.header.firstSeq.toNat + d.header.count.toNat ≤ bound) :
    ∀ s ∈ (p.onControl peer d).2, Answers p all bound s := by
  intro s hs
  have hbound := h.bounded
  obtain ⟨hk, he, _, ⟨rfl, _⟩ | ⟨hold, hpiece⟩⟩ := (onControl_spec h.bounded peer d).2 s hs
  · exact ⟨⟨rfl, trivial, fun hk' => (nomatch hk'), fun _ hk' => (nomatch hk')⟩,
      fun hk' => (nomatch hk')⟩
  · have hask := hd hk he
    have hadd : (d.header.firstSeq + d.header.count.toUInt64).toNat = d.header.firstSeq.toNat +
        d.header.count.toNat := by
      rw [UInt64.toNat_add, UInt16.toNat_toUInt64]
      omega
    have hstop : (min (d.header.firstSeq + d.header.count.toUInt64) p.nextSeq).toNat ≤ bound := by
      rw [toNat_min, hadd]
      omega
    have hold := UInt64.le_iff_toNat_le.mp hold
    rw [h.oldest_eq] at hold
    obtain ⟨h1, h2, h3⟩ := h.piece_mem hpiece (by omega) (Nat.le_trans hstop hb)
    have hnamed := h.piece_named hpiece (by omega) (by omega) (Nat.le_trans hstop hb)
    exact ⟨⟨h1, h2.mono hstop, fun _ => h3, fun _ _ => hnamed⟩, fun _ => hnamed⟩

structure Served (p p' : Publisher) : Prop where
  epoch : p'.epoch = p.epoch
  ringLog2 : p'.ringLog2 = p.ringLog2
  nextSeq : p'.nextSeq = p.nextSeq
  pendingFirst : p'.pendingFirst = p.pendingFirst

theorem Served.refl (p : Publisher) : Served p p := ⟨rfl, rfl, rfl, rfl⟩

theorem Served.trans {p' p'' : Publisher} (h : Served p p') (h' : Served p' p'') : Served p p'' :=
  ⟨h'.epoch.trans h.epoch, h'.ringLog2.trans h.ringLog2, h'.nextSeq.trans h.nextSeq,
    h'.pendingFirst.trans h.pendingFirst⟩

theorem Served.answers {p' : Publisher} (h : Served p p') {bound : Nat} {s : Sent}
    (hs : Answers p' all bound s) :
    Answers p all bound s := by
  obtain ⟨⟨h1, h2, h3, _⟩, h4⟩ := hs
  exact ⟨⟨h1.trans h.epoch, h2, h3, fun _ => h4⟩, h4⟩

theorem onControl_served (peer : Nat) (d : Datagram) : Served p (p.onControl peer d).1 := by
  simp only [onControl]
  split
  · exact ⟨rfl, rfl, rfl, rfl⟩
  · cases d.header.kind with
    | ack =>
        simp only
        split <;> exact ⟨rfl, rfl, rfl, rfl⟩
    | retransmit =>
        simp only
        split <;> exact ⟨rfl, rfl, rfl, rfl⟩
    | data => exact ⟨rfl, rfl, rfl, rfl⟩
    | heartbeat => exact ⟨rfl, rfl, rfl, rfl⟩
    | endOfStream => exact ⟨rfl, rfl, rfl, rfl⟩
    | unavailable => exact ⟨rfl, rfl, rfl, rfl⟩

theorem onGroup_served (ds : List Datagram) : Served p (ds.foldl onGroup p) := by
  induction ds generalizing p with
  | nil => exact ⟨rfl, rfl, rfl, rfl⟩
  | cons d ds ih =>
      have hone : Served p (p.onGroup d) := by
        rw [onGroup]
        split <;> exact ⟨rfl, rfl, rfl, rfl⟩
      exact hone.trans ih

theorem Keeps.controlLoop_answers (h : Keeps p lo all) {bound : Nat} (hb : bound ≤ p.nextSeq.toNat)
    {ds : List (Nat × Datagram)} (hask : p.Asks bound ds) :
    Served p (p.controlLoop ds).1 ∧ ∀ s ∈ (p.controlLoop ds).2, Answers p all bound s := by
  induction ds generalizing p with
  | nil => exact ⟨.refl p, fun s hs => nomatch hs⟩
  | cons x ds ih =>
      obtain ⟨peer, d⟩ := x
      have hone := onControl_served (p := p) peer d
      have hkeep := (h.onControl peer d).1
      have hask' : (p.onControl peer d).1.Asks bound ds := by
        intro x hx hk he
        rw [hone.epoch] at he
        exact hask x (List.mem_cons_of_mem _ hx) hk he
      obtain ⟨hserved, hrest⟩ := ih hkeep (by rw [hone.nextSeq]; exact hb) hask'
      refine ⟨hone.trans hserved, fun s hs => ?_⟩
      rcases List.mem_append.mp hs with hs | hs
      · exact h.answers hb (fun hk he => hask (peer, d) List.mem_cons_self hk he) s hs
      · exact hone.answers (hrest s hs)

theorem Keeps.service_answers (h : Keeps p lo all) {bound : Nat} (hb : bound ≤ p.nextSeq.toNat)
    (group : List Datagram) {control : List (Nat × Datagram)} (hask : p.Asks bound control) :
    Served p (p.service group control).1 ∧ ∀ s ∈ (p.service group control).2,
    Answers p all bound s := by
  have hgroup := onGroup_served (p := p) group
  have hkeep : Keeps (group.foldl Publisher.onGroup p) lo all := by
    clear hgroup hask hb
    induction group generalizing p with
    | nil => exact h
    | cons d ds ih => exact ih (h.onGroup d)
  have hask' : (group.foldl Publisher.onGroup p).Asks bound control := by
    intro x hx hk he
    rw [hgroup.epoch] at he
    exact hask x hx hk he
  obtain ⟨hserved, hsent⟩ := hkeep.controlLoop_answers (by rw [hgroup.nextSeq]; exact hb) hask'
  exact ⟨hgroup.trans hserved, fun s hs => hgroup.answers (hsent s hs)⟩

theorem controlLoop_acked_le {top : Nat} {ds : List (Nat × Datagram)} (h : p.acked.toNat ≤ top)
    (hack : ∀ x ∈ ds, x.2.header.kind = .ack → x.2.header.epoch = p.epoch →
      x.2.header.firstSeq.toNat ≤ top) :
    (p.controlLoop ds).1.acked.toNat ≤ top := by
  induction ds generalizing p with
  | nil => exact h
  | cons x ds ih =>
      obtain ⟨peer, d⟩ := x
      refine ih (p := (p.onControl peer d).1) ?_ fun y hy hk he => ?_
      · have hone := hack (peer, d) List.mem_cons_self
        simp only [onControl]
        split
        · exact h
        · rename_i hgo
          rw [not_or, not_or, not_not, not_not] at hgo
          cases hk : d.header.kind with
          | ack =>
              simp only
              split
              · exact hone hk hgo.2.1
              · exact h
          | retransmit =>
              simp only
              split <;> exact h
          | data => exact h
          | heartbeat => exact h
          | endOfStream => exact h
          | unavailable => exact h
      · rw [(onControl_served peer d).epoch] at he
        exact hack y (List.mem_cons_of_mem _ hy) hk he

theorem service_acked_le {top : Nat} (group : List Datagram) {control : List (Nat × Datagram)}
    (h : p.acked.toNat ≤ top) (hack : ∀ x ∈ control, x.2.header.kind = .ack →
      x.2.header.epoch = p.epoch → x.2.header.firstSeq.toNat ≤ top) :
    (p.service group control).1.acked.toNat ≤ top := by
  have hgroup : (group.foldl onGroup p).acked = p.acked := by
    clear hack
    induction group generalizing p with
    | nil => rfl
    | cons d ds ih =>
        exact (ih (p := p.onGroup d) (by rw [onGroup_acked]; exact h)).trans (onGroup_acked p d)
  refine controlLoop_acked_le (by rw [hgroup]; exact h) fun x hx hk he => ?_
  rw [(onGroup_served group).epoch] at he
  exact hack x hx hk he

end Publisher
end ExchangeSim.Stream
