/- digest: The replica's side of the stream: every command once, in sequence order, from one
   epoch. -/

import ExchangeSim.Stream.Datagram

set_option autoImplicit false
set_option relaxedAutoImplicit false

namespace ExchangeSim.Stream

/-- Datagrams that arrived early, by first sequence number. -/
abbrev Stash := List (UInt64 × List Command)

structure Subscriber where
  minEpoch : UInt32
  epoch : UInt32 := 0
  supersededBy : UInt32 := 0
  expected : UInt64
  knownNext : UInt64 := 0
  endSeq : UInt64 := 0
  requestedFrom : UInt64 := 0
  requestedAt : UInt64 := 0
  lastHeard : UInt64 := 0
  ended : Bool := false
  unavailable : Bool := false
  stash : Stash := []

namespace Subscriber

def make (firstSeq : UInt64) (minEpoch : UInt32) : Subscriber where
  minEpoch := minEpoch
  expected := firstSeq

def superseded (s : Subscriber) : Bool := s.supersededBy ≠ 0

/-- `ended()`: the end of the stream was announced and everything before it is delivered. -/
def hasEnded (s : Subscriber) : Bool := s.ended && s.endSeq ≤ s.expected

/-- `stash_.emplace`: an entry with the same key stays. -/
def emplace (k : UInt64) (v : List Command) : Stash → Stash
  | [] => [(k, v)]
  | (k', v') :: rest =>
      if k < k' then (k, v) :: (k', v') :: rest
      else if k = k' then (k', v') :: rest
      else (k', v') :: emplace k v rest

def deliver (s : Subscriber) (first : UInt64) (cmds : List Command) : Subscriber × List Command :=
  let expected := first + UInt64.ofNat cmds.length
  ({ s with expected := expected, knownNext := max s.knownNext expected },
    cmds.drop (s.expected - first).toNat)

/-- The loop that delivers what was stashed behind a gap that is now closed. -/
def drainStash (s : Subscriber) : Stash → Subscriber × List Command
  | [] => ({ s with stash := [] }, [])
  | (k, cmds) :: rest =>
      if k ≤ s.expected then
        if s.expected < k + UInt64.ofNat cmds.length then
          let (s, out) := s.deliver k cmds
          let (s, more) := drainStash s rest
          (s, out ++ more)
        else drainStash s rest
      else ({ s with stash := (k, cmds) :: rest }, [])

def onData (s : Subscriber) (d : Datagram) : Subscriber × List Command :=
  let h := d.header
  if d.received ≠ kHeaderSize + h.count.toNat * kCommandSize then (s, [])
  else if h.firstSeq + h.count.toUInt64 ≤ s.expected then (s, [])
  else if s.expected < h.firstSeq then ({ s with stash := emplace h.firstSeq d.cmds s.stash }, [])
  else
    let (s, out) := s.deliver h.firstSeq d.cmds
    let (s, more) := s.drainStash s.stash
    (s, out ++ more)

/-- One datagram read by `drain`, at time `now`; the result has the commands passed on. -/
def receive (s : Subscriber) (now : UInt64) (d : Datagram) : Subscriber × List Command :=
  let h := d.header
  if h.magic ≠ kMagic ∨ h.kind = .ack ∨ h.kind = .retransmit then (s, [])
  else if h.epoch < s.minEpoch ∨ (s.epoch ≠ 0 ∧ h.epoch < s.epoch) then (s, [])
  else
    let s := if s.epoch = 0 then { s with epoch := h.epoch } else s
    if s.epoch < h.epoch then ({ s with supersededBy := max s.supersededBy h.epoch }, [])
    else
      let s := { s with lastHeard := now }
      match h.kind with
      | .data => s.onData d
      | .heartbeat => ({ s with knownNext := max s.knownNext h.firstSeq }, [])
      | .endOfStream =>
          ({ s with ended := true, endSeq := h.firstSeq, knownNext := max s.knownNext h.firstSeq },
            [])
      | .unavailable => ({ s with unavailable := true }, [])
      | .retransmit => (s, [])
      | .ack => (s, [])

/-- Everything that is passed on while the datagrams are read. -/
def receiveAll (s : Subscriber) : List (UInt64 × Datagram) → Subscriber × List Command
  | [] => (s, [])
  | (now, d) :: ds =>
      let (s, out) := s.receive now d
      let (s, more) := receiveAll s ds
      (s, out ++ more)

/-- `request_gap`: asks for what is missing if something newer is known to exist, and again
after 20 ms without progress. -/
def requestGap (s : Subscriber) (now : UInt64) : Subscriber × Option Datagram :=
  let gapEnd := match s.stash with
    | [] => s.knownNext
    | (k, _) :: _ => k
  if gapEnd ≤ s.expected ∨ s.epoch = 0 then (s, none)
  else if s.requestedFrom = s.expected ∧ now - s.requestedAt < 20000000 then (s, none)
  else
    let count := min (gapEnd - s.expected) 4096
    ({ s with requestedFrom := s.expected, requestedAt := now },
      some ⟨header .retransmit s.epoch s.expected count.toUInt16, []⟩)

/-- `ack`: nothing is sent before a primary is heard. -/
def ack (s : Subscriber) (through : UInt64) : Option Datagram :=
  if s.epoch = 0 then none else some ⟨header .ack s.epoch through 0, []⟩

/-! ### Exactly once and in order -/

/-- The `n` commands of a log from sequence number `a` on. -/
def slice (L : Nat → Command) (a n : Nat) : List Command := (List.range n).map fun i => L (a + i)

@[simp] theorem slice_length (L : Nat → Command) (a n : Nat) : (slice L a n).length = n := by
  simp [slice]

@[simp] theorem slice_zero (L : Nat → Command) (a : Nat) : slice L a 0 = [] := rfl

theorem slice_append (L : Nat → Command) (a n m : Nat) :
    slice L a n ++ slice L (a + n) m = slice L a (n + m) := by
  simp only [slice, List.range_add, List.map_append, List.map_map]
  congr 1
  refine List.map_congr_left fun i _ => ?_
  simp only [Function.comp_apply, Nat.add_assoc]

theorem slice_drop (L : Nat → Command) (a n m : Nat) :
    (slice L a n).drop m = slice L (a + m) (n - m) := by
  rcases Nat.le_total m n with h | h
  · obtain ⟨k, rfl⟩ := Nat.exists_eq_add_of_le h
    rw [← slice_append, List.drop_append_of_le_length (by simp), List.drop_of_length_le (by simp),
      Nat.add_sub_cancel_left, List.nil_append]
  · rw [List.drop_of_length_le (by simpa using h), Nat.sub_eq_zero_of_le h]
    rfl

/-- A piece of the log, as a datagram or a stash entry holds it. -/
def IsPiece (L : Nat → Command) (k : UInt64) (cmds : List Command) : Prop :=
  cmds = slice L k.toNat cmds.length ∧ k.toNat + cmds.length ≤ 2 ^ 63

structure InStep (L : Nat → Command) (start : Nat) (s : Subscriber)
    (out : List Command) : Prop where
  start_le : start ≤ s.expected.toNat
  passed : out = slice L start (s.expected.toNat - start)
  waiting : ∀ e ∈ s.stash, IsPiece L e.1 e.2

variable {L : Nat → Command} {start : Nat} {s : Subscriber} {out : List Command}

theorem mem_emplace {k : UInt64} {v : List Command} {e : UInt64 × List Command} {st : Stash}
    (h : e ∈ emplace k v st) :
    e = (k, v) ∨ e ∈ st := by
  induction st with
  | nil => exact .inl (List.mem_singleton.mp h)
  | cons x rest ih =>
      obtain ⟨k', v'⟩ := x
      rw [emplace] at h
      split at h
      · exact List.mem_cons.mp h
      · split at h
        · exact .inr h
        · rcases List.mem_cons.mp h with rfl | h
          · exact .inr (by simp)
          · exact (ih h).imp_right fun hr => by simp [hr]

theorem InStep.deliver (h : InStep L start s out) {k : UInt64} {cmds : List Command}
    (hp : IsPiece L k cmds) (hle : k ≤ s.expected)
    (hgo : s.expected < k + UInt64.ofNat cmds.length) :
    InStep L start (s.deliver k cmds).1 (out ++ (s.deliver k cmds).2) := by
  obtain ⟨hcmds, hbound⟩ := hp
  have hend : (k + UInt64.ofNat cmds.length).toNat = k.toNat + cmds.length := by
    rw [UInt64.toNat_add, UInt64.toNat_ofNat']
    omega
  have hoff : (s.expected - k).toNat = s.expected.toNat - k.toNat := UInt64.toNat_sub_of_le _ _ hle
  rw [UInt64.le_iff_toNat_le] at hle
  rw [UInt64.lt_iff_toNat_lt, hend] at hgo
  have hstart := h.start_le
  refine ⟨?_, ?_, h.waiting⟩
  · change start ≤ (k + UInt64.ofNat cmds.length).toNat
    omega
  · change out ++ cmds.drop (s.expected - k).toNat = slice L start
      ((k + UInt64.ofNat cmds.length).toNat - start)
    rw [h.passed, hoff, hend, hcmds, slice_drop, slice_length,
      show k.toNat + (s.expected.toNat - k.toNat) = start + (s.expected.toNat - start) by omega,
      slice_append]
    congr 1
    omega

theorem InStep.drainStash {st : Stash} (h : InStep L start s out)
    (hst : ∀ e ∈ st, IsPiece L e.1 e.2) :
    InStep L start (s.drainStash st).1 (out ++ (s.drainStash st).2) := by
  induction st generalizing s out with
  | nil =>
      refine ⟨h.start_le, ?_, fun e he => (nomatch he)⟩
      rw [Subscriber.drainStash, List.append_nil]
      exact h.passed
  | cons e rest ih =>
      obtain ⟨k, cmds⟩ := e
      have hrest : ∀ e ∈ rest, IsPiece L e.1 e.2 := fun e he => hst e (by simp [he])
      rw [Subscriber.drainStash]
      split
      · rename_i hle
        split
        · rename_i hgo
          have := ih (h.deliver (hst (k, cmds) (by simp)) hle hgo) hrest
          rw [List.append_assoc] at this
          exact this
        · exact ih h hrest
      · refine ⟨h.start_le, ?_, hst⟩
        rw [List.append_nil]
        exact h.passed

theorem InStep.onData (h : InStep L start s out) {d : Datagram}
    (hd : d.cmds = slice L d.header.firstSeq.toNat d.header.count.toNat)
    (hbound : d.header.firstSeq.toNat + d.header.count.toNat ≤ 2 ^ 63) :
    InStep L start (s.onData d).1 (out ++ (s.onData d).2) := by
  have hlen : d.cmds.length = d.header.count.toNat := by rw [hd, slice_length]
  have hpiece : IsPiece L d.header.firstSeq d.cmds :=
    ⟨by rw [hlen]; exact hd, by rw [hlen]; exact hbound⟩
  have hcount : d.header.count.toUInt64 = UInt64.ofNat d.cmds.length := by
    rw [hlen, ← UInt64.toNat_inj, UInt16.toNat_toUInt64, UInt64.toNat_ofNat']
    have := UInt16.toNat_lt d.header.count
    omega
  have hsame : InStep L start s (out ++ []) := by
    rw [List.append_nil]
    exact h
  rw [Subscriber.onData]
  split
  · exact hsame
  split
  · exact hsame
  rename_i hnew
  rw [UInt64.not_le, hcount] at hnew
  split
  · refine ⟨h.start_le, hsame.passed, fun e he => ?_⟩
    rcases mem_emplace he with rfl | he
    · exact hpiece
    · exact h.waiting e he
  · rename_i hle
    have hone := h.deliver hpiece (UInt64.not_lt.mp hle) hnew
    have := hone.drainStash hone.waiting
    rw [List.append_assoc] at this
    exact this

/-- The datagram is read by the replica, whatever its epoch. -/
def Listened (d : Datagram) : Prop := d.header.magic = kMagic ∧ d.header.kind ≠ .ack ∧
    d.header.kind ≠ .retransmit

instance (d : Datagram) : Decidable (Listened d) := by
  unfold Listened
  infer_instance

/-- The first epoch from `minEpoch` on that is heard. -/
def firstHeard (minEpoch : UInt32) (ds : List (UInt64 × Datagram)) : Option UInt32 :=
  (ds.find? fun x => Listened x.2 ∧ minEpoch ≤ x.2.header.epoch).map fun x => x.2.header.epoch

/-- Data of an epoch carries the part of the log of that epoch which it names. -/
def Carries (L : UInt32 → Nat → Command) (d : Datagram) : Prop :=
  d.header.kind = .data → d.cmds = slice
    (L d.header.epoch) d.header.firstSeq.toNat d.header.count.toNat ∧
    d.header.firstSeq.toNat + d.header.count.toNat ≤ 2 ^ 63

/-- What the subscriber has made of the datagrams read so far. -/
def Faithful (L : UInt32 → Nat → Command) (firstSeq : UInt64) (minEpoch : UInt32)
    (ds : List (UInt64 × Datagram)) (s : Subscriber) (out : List Command) : Prop :=
  s.minEpoch = minEpoch ∧
    match firstHeard minEpoch ds with
    | none => s.epoch = 0 ∧ s.supersededBy = 0 ∧ s.expected = firstSeq ∧ s.stash = [] ∧ out = []
    | some e => s.epoch = e ∧ minEpoch ≤ e ∧ InStep (L e) firstSeq.toNat s out ∧
        (s.supersededBy ≠ 0 ↔ ∃ x ∈ ds, Listened x.2 ∧ e < x.2.header.epoch)

structure SameEpoch (s s' : Subscriber) : Prop where
  minEpoch : s'.minEpoch = s.minEpoch
  epoch : s'.epoch = s.epoch
  supersededBy : s'.supersededBy = s.supersededBy

theorem drainStash_same (s : Subscriber) (st : Stash) : SameEpoch s (s.drainStash st).1 := by
  induction st generalizing s with
  | nil => exact ⟨rfl, rfl, rfl⟩
  | cons e rest ih =>
      obtain ⟨k, cmds⟩ := e
      rw [drainStash]
      split
      · split
        · obtain ⟨h1, h2, h3⟩ := ih (s.deliver k cmds).1
          exact ⟨h1, h2, h3⟩
        · exact ih s
      · exact ⟨rfl, rfl, rfl⟩

theorem onData_same (s : Subscriber) (d : Datagram) : SameEpoch s (s.onData d).1 := by
  rw [onData]
  split
  · exact ⟨rfl, rfl, rfl⟩
  split
  · exact ⟨rfl, rfl, rfl⟩
  split
  · exact ⟨rfl, rfl, rfl⟩
  · obtain ⟨h1, h2, h3⟩ := drainStash_same (s.deliver d.header.firstSeq d.cmds).1
      (s.deliver d.header.firstSeq d.cmds).1.stash
    exact ⟨h1, h2, h3⟩

/-- A datagram of the followed epoch, of whatever kind. -/
def heed (s : Subscriber) (d : Datagram) : Subscriber × List Command :=
  match d.header.kind with
  | .data => s.onData d
  | .heartbeat => ({ s with knownNext := max s.knownNext d.header.firstSeq }, [])
  | .endOfStream =>
      ({ s with
        ended := true, endSeq := d.header.firstSeq
        knownNext := max s.knownNext d.header.firstSeq }, [])
  | .unavailable => ({ s with unavailable := true }, [])
  | .retransmit => (s, [])
  | .ack => (s, [])

theorem heed_same (s : Subscriber) (d : Datagram) : SameEpoch s (s.heed d).1 := by
  rw [heed]
  split
  · exact onData_same s d
  all_goals exact ⟨rfl, rfl, rfl⟩

theorem InStep.heed (h : InStep L start s out) {d : Datagram}
    (hd : d.header.kind = .data → d.cmds = slice L d.header.firstSeq.toNat d.header.count.toNat ∧
      d.header.firstSeq.toNat + d.header.count.toNat ≤ 2 ^ 63) :
    InStep L start (s.heed d).1 (out ++ (s.heed d).2) := by
  rw [Subscriber.heed]
  split
  · rename_i hk
    exact h.onData (hd hk).1 (hd hk).2
  all_goals
    rw [List.append_nil]
    exact ⟨h.start_le, h.passed, h.waiting⟩

theorem receive_cases (s : Subscriber) (now : UInt64) (d : Datagram) :
    (s.receive now d = (s, []) ∧
      (¬ Listened d ∨ d.header.epoch < s.minEpoch ∨ (s.epoch ≠ 0 ∧ d.header.epoch < s.epoch))) ∨
    (Listened d ∧ s.minEpoch ≤ d.header.epoch ∧ s.epoch ≠ 0 ∧ s.epoch < d.header.epoch ∧
      s.receive now d = ({ s with supersededBy := max s.supersededBy d.header.epoch }, [])) ∨
    (Listened d ∧ s.minEpoch ≤ d.header.epoch ∧ (s.epoch = 0 ∨ s.epoch = d.header.epoch) ∧
      s.receive now d = ({ s with epoch := d.header.epoch, lastHeard := now } : Subscriber).heed
        d) := by
  by_cases hlisten : Listened d
  · have hgo : ¬ (d.header.magic ≠ kMagic ∨ d.header.kind = .ack ∨
        d.header.kind = .retransmit) := by
      rintro (h | h | h)
      · exact h hlisten.1
      · exact hlisten.2.1 h
      · exact hlisten.2.2 h
    rw [receive, if_neg hgo]
    by_cases hstale : d.header.epoch < s.minEpoch ∨ (s.epoch ≠ 0 ∧ d.header.epoch < s.epoch)
    · rw [if_pos hstale]
      exact .inl ⟨rfl, .inr hstale⟩
    rw [if_neg hstale]
    rw [not_or, UInt32.not_lt] at hstale
    obtain ⟨hmin, hold⟩ := hstale
    right
    by_cases hzero : s.epoch = 0
    · refine .inr ⟨hlisten, hmin, .inl hzero, ?_⟩
      simp only [if_pos hzero, UInt32.lt_irrefl, if_false]
      rfl
    · simp only [if_neg hzero]
      by_cases hlt : s.epoch < d.header.epoch
      · exact .inl ⟨hlisten, hmin, hzero, hlt, by rw [if_pos hlt]⟩
      · have heq : s.epoch = d.header.epoch :=
          UInt32.le_antisymm (UInt32.not_lt.mp fun h => hold ⟨hzero, h⟩) (UInt32.not_lt.mp hlt)
        refine .inr ⟨hlisten, hmin, .inr heq, ?_⟩
        rw [if_neg hlt, ← heq]
        rfl
  · left
    refine ⟨?_, .inl hlisten⟩
    rw [receive, if_pos]
    by_contra hno
    rw [not_or, not_or, not_not] at hno
    exact hlisten ⟨hno.1, hno.2.1, hno.2.2⟩

section Run

variable {M : UInt32 → Nat → Command} {firstSeq : UInt64} {minEpoch : UInt32}
    {ds : List (UInt64 × Datagram)}

theorem firstHeard_snoc (minEpoch : UInt32) (ds : List (UInt64 × Datagram))
    (x : UInt64 × Datagram) :
    firstHeard minEpoch (ds ++ [x]) =
      match firstHeard minEpoch ds with
      | some e => some e
      | none => if Listened x.2 ∧ minEpoch ≤ x.2.header.epoch then
          some x.2.header.epoch else none := by
  simp only [firstHeard, List.find?_append]
  cases ds.find? fun x => Listened x.2 ∧ minEpoch ≤ x.2.header.epoch with
  | some y => rfl
  | none =>
      by_cases hx : Listened x.2 ∧ minEpoch ≤ x.2.header.epoch <;> simp [hx]

theorem firstHeard_none (h : firstHeard minEpoch ds = none) :
    ∀ x ∈ ds, ¬ (Listened x.2 ∧ minEpoch ≤ x.2.header.epoch) := by
  rw [firstHeard, Option.map_eq_none_iff, List.find?_eq_none] at h
  intro x hx
  simpa using h x hx

theorem Faithful.receive (hmin : minEpoch ≠ 0) (h : Faithful M firstSeq minEpoch ds s out)
    (now : UInt64) {d : Datagram} (hd : Carries M d) :
    Faithful M firstSeq minEpoch (ds ++ [(now, d)]) (s.receive now d).1
      (out ++ (s.receive now d).2) := by
  obtain ⟨rfl, hstate⟩ := h
  have hcase := receive_cases s now d
  rw [Faithful, firstHeard_snoc]
  cases hfirst : firstHeard s.minEpoch ds with
  | none =>
      rw [hfirst] at hstate
      obtain ⟨hepoch, hsup, hexp, hstash, hout⟩ := hstate
      simp only
      rcases hcase with ⟨heq, hwhy⟩ | ⟨_, _, hne, _⟩ | ⟨hlisten, hle, _, heq⟩
      · have hno : ¬ (Listened d ∧ s.minEpoch ≤ d.header.epoch) := by
          rintro ⟨hl, hm⟩
          rcases hwhy with hw | hw | ⟨hw, _⟩
          · exact hw hl
          · exact UInt32.not_lt.mpr hm hw
          · exact hw hepoch
        rw [heq, if_neg hno]
        exact ⟨rfl, hepoch, hsup, hexp, hstash, by rw [hout]; rfl⟩
      · exact absurd hepoch hne
      · rw [heq, if_pos ⟨hlisten, hle⟩]
        have hstart : InStep (M d.header.epoch) firstSeq.toNat
            ({ s with epoch := d.header.epoch, lastHeard := now } : Subscriber) out := by
          refine ⟨by simp only [hexp, Nat.le_refl], ?_, by simp [hstash]⟩
          rw [hout, ← hexp, Nat.sub_self]
          rfl
        obtain ⟨h1, h2, h3⟩ :=
          heed_same ({ s with epoch := d.header.epoch, lastHeard := now } : Subscriber) d
        refine ⟨h1, h2, hle, hstart.heed hd, ?_⟩
        rw [h3]
        simp only [hsup, ne_eq, not_true_eq_false, false_iff]
        rintro ⟨x, hx, hl, hlt⟩
        rcases List.mem_append.mp hx with hx | hx
        · exact firstHeard_none hfirst x hx ⟨hl, UInt32.le_trans hle (UInt32.le_of_lt hlt)⟩
        · rw [List.mem_singleton.mp hx] at hlt
          exact UInt32.lt_irrefl _ hlt
  | some e =>
      rw [hfirst] at hstate
      obtain ⟨hepoch, hle, hin, hsup⟩ := hstate
      have hne : s.epoch ≠ 0 := by
        rw [hepoch]
        rintro rfl
        exact hmin (UInt32.le_antisymm hle (UInt32.zero_le ..))
      have hsame : InStep (M e) firstSeq.toNat s (out ++ []) := by
        rw [List.append_nil]
        exact hin
      simp only
      rcases hcase with ⟨heq, hwhy⟩ | ⟨hlisten, _, _, hlt, heq⟩ | ⟨hlisten, _, hlock, heq⟩
      · rw [heq]
        refine ⟨rfl, hepoch, hle, hsame, hsup.trans ?_⟩
        simp only [List.mem_append, List.mem_singleton]
        refine ⟨fun ⟨x, hx, hr⟩ => ⟨x, .inl hx, hr⟩, fun ⟨x, hx, hl, hlt⟩ => ?_⟩
        rcases hx with hx | rfl
        · exact ⟨x, hx, hl, hlt⟩
        · exfalso
          rcases hwhy with hw | hw | ⟨_, hw⟩
          · exact hw hl
          · exact UInt32.lt_irrefl _ (UInt32.lt_of_lt_of_le (UInt32.lt_trans hlt hw) hle)
          · rw [hepoch] at hw
            exact UInt32.lt_irrefl _ (UInt32.lt_trans hlt hw)
      · rw [heq]
        rw [hepoch] at hlt
        refine ⟨rfl, hepoch, hle, ⟨hin.start_le, hsame.passed, hin.waiting⟩, ?_⟩
        refine ⟨fun _ => ⟨(now, d), by simp, hlisten, hlt⟩, fun _ => ?_⟩
        change (if s.supersededBy ≤ d.header.epoch then d.header.epoch else s.supersededBy) ≠ 0
        have hpos : (0 : UInt32) < d.header.epoch := UInt32.lt_of_le_of_lt (UInt32.zero_le ..) hlt
        split
        · rintro hz
          rw [hz] at hpos
          exact UInt32.lt_irrefl _ hpos
        · rename_i hgt
          rintro hz
          rw [hz] at hgt
          exact hgt (UInt32.zero_le ..)
      · have hsameE : d.header.epoch = e := by
          rcases hlock with hz | heq'
          · exact absurd hz hne
          · rw [← heq', hepoch]
        rw [heq]
        have hin' : InStep (M e) firstSeq.toNat
            ({ s with epoch := d.header.epoch, lastHeard := now } : Subscriber) out :=
          ⟨hin.start_le, hin.passed, hin.waiting⟩
        obtain ⟨h1, h2, h3⟩ :=
          heed_same ({ s with epoch := d.header.epoch, lastHeard := now } : Subscriber) d
        refine ⟨h1, h2.trans hsameE, hle, hin'.heed (hsameE ▸ hd), ?_⟩
        rw [h3]
        refine hsup.trans ?_
        simp only [List.mem_append, List.mem_singleton]
        refine ⟨fun ⟨x, hx, hr⟩ => ⟨x, .inl hx, hr⟩, fun ⟨x, hx, hl, hlt⟩ => ?_⟩
        rcases hx with hx | rfl
        · exact ⟨x, hx, hl, hlt⟩
        · rw [hsameE] at hlt
          exact absurd hlt (UInt32.lt_irrefl _)

theorem Faithful.receiveAll (hmin : minEpoch ≠ 0) (h : Faithful M firstSeq minEpoch ds s out)
    {more : List (UInt64 × Datagram)} (hd : ∀ x ∈ more, Carries M x.2) :
    Faithful M firstSeq minEpoch (ds ++ more) (s.receiveAll more).1
      (out ++ (s.receiveAll more).2) := by
  induction more generalizing ds s out with
  | nil =>
      rw [List.append_nil, Subscriber.receiveAll, List.append_nil]
      exact h
  | cons x more ih =>
      obtain ⟨now, d⟩ := x
      have hone := h.receive hmin now (hd (now, d) (by simp))
      have := ih hone fun y hy => hd y (by simp [hy])
      rw [List.append_assoc, List.append_assoc, List.singleton_append] at this
      exact this

end Run

/-- Exactly-once, in-order delivery: the commands passed on are those of the log of the first
epoch heard, from the first sequence number needed up to the one expected next. -/
theorem delivers_once_in_order (M : UInt32 → Nat → Command) (firstSeq : UInt64) {minEpoch : UInt32}
    (hmin : 1 ≤ minEpoch) {ds : List (UInt64 × Datagram)} (hd : ∀ x ∈ ds, Carries M x.2) :
    let r := (make firstSeq minEpoch).receiveAll ds
    match firstHeard minEpoch ds with
    | none => r.2 = [] ∧ r.1.expected = firstSeq ∧ r.1.superseded = false
    | some e => firstSeq.toNat ≤ r.1.expected.toNat ∧
        r.2 = slice (M e) firstSeq.toNat (r.1.expected.toNat - firstSeq.toNat) ∧
        (r.1.superseded = true ↔ ∃ x ∈ ds, Listened x.2 ∧ e < x.2.header.epoch) := by
  intro r
  have hne : minEpoch ≠ 0 := by
    rintro rfl
    exact absurd hmin (by decide)
  have hempty : Faithful M firstSeq minEpoch [] (make firstSeq minEpoch) [] :=
    ⟨rfl, rfl, rfl, rfl, rfl, rfl⟩
  obtain ⟨_, hall⟩ := hempty.receiveAll hne hd
  rw [List.nil_append] at hall
  change (match firstHeard minEpoch ds with
    | none => r.1.epoch = 0 ∧ r.1.supersededBy = 0 ∧ r.1.expected = firstSeq ∧
        r.1.stash = [] ∧ r.2 = []
    | some e => r.1.epoch = e ∧ minEpoch ≤ e ∧ InStep (M e) firstSeq.toNat r.1 r.2 ∧
        (r.1.supersededBy ≠ 0 ↔ ∃ x ∈ ds, Listened x.2 ∧ e < x.2.header.epoch)) at hall
  cases hfirst : firstHeard minEpoch ds with
  | none =>
      rw [hfirst] at hall
      obtain ⟨_, hsup, hexp, _, hout⟩ := hall
      exact ⟨hout, hexp, by simp [superseded, hsup]⟩
  | some e =>
      rw [hfirst] at hall
      obtain ⟨_, _, hin, hsup⟩ := hall
      refine ⟨hin.start_le, hin.passed, ?_⟩
      rw [superseded, decide_eq_true_eq]
      exact hsup

/-- A log for each epoch, its commands stamped with epoch and number. -/
def stamped (e : UInt32) (n : Nat) : Command :=
  { orderId := 0, seq := UInt64.ofNat n, owner := e, type := .newOrder }

/-- The second command before the first, then a heartbeat of a newer primary. -/
def reordered : List (UInt64 × Datagram) :=
  [(0, ⟨header .data 1 2 1, [stamped 1 2]⟩), (1, ⟨header .data 1 1 1, [stamped 1 1]⟩),
    (2, ⟨header .heartbeat 2 3 0, []⟩)]

theorem delivers_once_in_order_reordered :
    ((1 : UInt32) ≤ 1 ∧ ∀ x ∈ reordered, Carries stamped x.2) ∧
      (let r := (make 1 1).receiveAll reordered
      match firstHeard 1 reordered with
      | none => r.2 = [] ∧ r.1.expected = 1 ∧ r.1.superseded = false
      | some e => (1 : UInt64).toNat ≤ r.1.expected.toNat ∧
          r.2 = slice (stamped e) (1 : UInt64).toNat (r.1.expected.toNat - (1 : UInt64).toNat) ∧
          (r.1.superseded = true ↔ ∃ x ∈ reordered, Listened x.2 ∧ e < x.2.header.epoch)) := by
  have hcarries : ∀ x ∈ reordered, Carries stamped x.2 := by
    intro x hx
    simp only [reordered, List.mem_cons, List.not_mem_nil, or_false] at hx
    rcases hx with rfl | rfl | rfl
    · exact fun _ => ⟨by decide, by decide⟩
    · exact fun _ => ⟨by decide, by decide⟩
    · exact fun hk => (nomatch hk)
  exact ⟨⟨by decide, hcarries⟩,
    delivers_once_in_order stamped 1 (show (1 : UInt32) ≤ 1 by decide) hcarries⟩

end Subscriber
end ExchangeSim.Stream
