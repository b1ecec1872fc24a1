/- digest: Decoding a byte stream: a whole capture at once, or a session's chunks as they arrive. -/

import ExchangeSim.Wire.Protocol
import ExchangeSim.Lib.Framing
import ExchangeSim.Lib.Loop

set_option autoImplicit false
set_option relaxedAutoImplicit false

namespace ExchangeSim.Wire

open ExchangeSim.Lib
open ExchangeSim.Lib.Loop (Pass)

/-- What a decoding loop does with one message: hand its command on, or skip its bytes. -/
inductive Item where
  | command (c : Command)
  | skipped (message : Bytes)
  deriving DecidableEq, Repr

def Item.command? : Item → Option Command
  | .command c => some c
  | .skipped _ => none

/-- The commands among the messages. -/
def commandsOf (seen : List Item) : List Command := seen.filterMap Item.command?

theorem commandsOf_append (a b : List Item) : commandsOf (a ++ b) = commandsOf a ++ commandsOf b :=
  List.filterMap_append

/-- The variables of `decode_stream`'s loop. `seen` stands for the output vector and
both counters. -/
structure Capture where
  off : Nat := 0
  seen : List Item := []
  truncated : Bool := false
  deriving DecidableEq, Repr

def decodeBody (buf : Bytes) (s : Capture) : Pass Capture Capture :=
  if s.off < buf.length then
    match decode (buf.drop s.off) with
    | .ok c n => .again { s with off := s.off + n, seen := s.seen ++ [.command c] }
    | .malformed n =>
        if n ≠ 0 then
          .again { s with
            off := s.off + n
            seen := s.seen ++ [.skipped ((buf.drop s.off).take n)] }
        else .leave { s with truncated := true }
    | .incomplete => .leave { s with truncated := true }
  else .leave s

/-- `decode_stream`, run for at most `fuel` turns of its loop. -/
def decodeStream (fuel : Nat) (buf : Bytes) : Option Capture := Loop.run (decodeBody buf) fuel {}

/-- One turn of the gateway's loop over a session's receive buffer. -/
inductive Next where
  | wait
  | lost
  | skip (n : Nat)
  | command (c : Command) (n : Nat)
  deriving DecidableEq, Repr

def next (inp : Bytes) (off : Nat) : Next :=
  if off < inp.length then
    match decode (inp.drop off) with
    | .incomplete => .wait
    | .malformed n => if n = 0 then .lost else .skip n
    | .ok c n => .command c n
  else .wait

/-- A session's receive buffer, with the record of what was taken from it. A dropped
session receives nothing more. -/
structure Session where
  inp : Bytes := []
  seen : List Item := []
  dropped : Bool := false
  deriving DecidableEq, Repr

structure Turn where
  off : Nat := 0
  seen : List Item
  broken : Bool := false
  deriving DecidableEq, Repr

def turnBody (inp : Bytes) (t : Turn) : Pass Turn Turn :=
  match next inp t.off with
  | .wait => .leave t
  | .lost => .leave { t with broken := true }
  | .skip n =>
      .again { t with off := t.off + n, seen := t.seen ++ [.skipped ((inp.drop t.off).take n)] }
  | .command c n => .again { t with off := t.off + n, seen := t.seen ++ [.command c] }

/-- One `recv` of a chunk and the loop over the buffer, for at most `fuel` turns. -/
def receive (fuel : Nat) (s : Session) (chunk : Bytes) : Option Session :=
  if s.dropped then some s
  else
    let inp := s.inp ++ chunk
    (Loop.run (turnBody inp) fuel { seen := s.seen }).map fun t =>
      if t.broken then { s with seen := t.seen, dropped := true }
      else { inp := inp.drop t.off, seen := t.seen }

def receiveAll (fuel : Nat) (s : Session) : List Bytes → Option Session
  | [] => some s
  | chunk :: chunks => (receive fuel s chunk).bind fun s => receiveAll fuel s chunks

theorem decode_ok_pos {p : Bytes} {c : Command} {n : Nat} (h : decode p = .ok c n) : 0 < n := by
  rw [(decode_ok h).size]
  exact Nat.lt_of_lt_of_le (by decide) (kHeaderSize_le_messageSize c.type)

/-- The first message of a stream, handed on or skipped. -/
def firstMessage (p : Bytes) : Option (Item × Nat) :=
  match decode p with
  | .ok c n => some (.command c, n)
  | .malformed n => if n = 0 then none else some (.skipped (p.take n), n)
  | .incomplete => none

theorem firstMessage_cases {p : Bytes} {i : Item} {n : Nat} (h : firstMessage p = some (i, n)) :
    (∃ c, decode p = .ok c n ∧ i = .command c) ∨
      (decode p = .malformed n ∧ n ≠ 0 ∧ i = .skipped (p.take n)) := by
  unfold firstMessage at h
  split at h
  · rename_i c m hd
    cases h
    exact .inl ⟨c, hd, rfl⟩
  · rename_i m hd
    split at h
    · cases h
    · rename_i pos
      cases h
      exact .inr ⟨hd, pos, rfl⟩
  · cases h

theorem firstMessage_none {p : Bytes} :
    firstMessage p = none ↔ decode p = .incomplete ∨ decode p = .malformed 0 := by
  unfold firstMessage
  split
  · rename_i hd
    simp [hd]
  · rename_i n hd
    by_cases hz : n = 0 <;> simp [hd, hz]
  · rename_i hd
    simp [hd]

/-- The messages of a session or of a capture. -/
def messages : Framing Item where
  first := firstMessage
  pos h := by
    obtain ⟨c, hd, -⟩ | ⟨-, pos, -⟩ := firstMessage_cases h
    · exact decode_ok_pos hd
    · omega
  inside h := by
    obtain ⟨c, hd, -⟩ | ⟨hd, -, -⟩ := firstMessage_cases h
    · exact (decode_ok hd).available
    · exact (decode_malformed hd).1
  alone h q := by
    obtain ⟨c, hd, rfl⟩ | ⟨hd, pos, rfl⟩ := firstMessage_cases h
    · have d := decode_ok hd
      rw [firstMessage, ← d.bytes, decode_encode, d.plain, ← d.size]
    · have ht := decode_take hd pos
      rw [firstMessage, decode_append (by simp [ht]) q, ht]
      have hl := (decode_malformed hd).1
      simp [pos, hl]

theorem first_of_ok {p : Bytes} {c : Command} {n : Nat} (h : decode p = .ok c n) :
    messages.first p = some (.command c, n) := by
  simp [messages, firstMessage, h]

theorem first_of_malformed {p : Bytes} {n : Nat} (h : decode p = .malformed n) (pos : n ≠ 0) :
    messages.first p = some (.skipped (p.take n), n) := by
  simp [messages, firstMessage, h, pos]

theorem decode_nil : decode [] = .incomplete := rfl

structure Capture.Reached (buf : Bytes) (s : Capture) : Prop where
  inside : s.off ≤ buf.length
  parsed : messages.Parses buf s.seen (buf.drop s.off)
  running : s.truncated = false

structure Capture.Finished (buf : Bytes) (s : Capture) : Prop where
  inside : s.off ≤ buf.length
  parsed : messages.Parses buf s.seen (buf.drop s.off)
  stuck : messages.first (buf.drop s.off) = none
  truncated : s.truncated = true ↔ s.off < buf.length

theorem decodeBody_again {buf : Bytes} {s t : Capture} (hs : s.Reached buf)
    (h : decodeBody buf s = .again t) :
    t.Reached buf ∧ buf.length - t.off < buf.length - s.off := by
  unfold decodeBody at h
  split at h
  · rename_i hlt
    have hl : (buf.drop s.off).length = buf.length - s.off := List.length_drop
    split at h
    · rename_i c n hd
      have hn := (decode_ok hd).available
      have hpos := decode_ok_pos hd
      obtain rfl := (Pass.again.inj h).symm
      refine ⟨⟨?_, ?_, hs.running⟩, ?_⟩
      · dsimp only; omega
      · simpa [List.drop_drop] using hs.parsed.trans (Framing.Parses.single (first_of_ok hd))
      · dsimp only; omega
    · rename_i n hd
      split at h
      · rename_i pos
        have hn := (decode_malformed hd).1
        obtain rfl := (Pass.again.inj h).symm
        refine ⟨⟨?_, ?_, hs.running⟩, ?_⟩
        · dsimp only; omega
        · simpa [List.drop_drop] using hs.parsed.trans
            (Framing.Parses.single (first_of_malformed hd pos))
        · dsimp only; omega
      · cases h
    · cases h
  · cases h

theorem decodeBody_leave {buf : Bytes} {s t : Capture} (hs : s.Reached buf)
    (h : decodeBody buf s = .leave t) : t.Finished buf := by
  unfold decodeBody at h
  split at h
  · rename_i hlt
    split at h
    · cases h
    · rename_i n hd
      split at h
      · cases h
      · rename_i zero
        obtain rfl := (Pass.leave.inj h).symm
        obtain rfl : n = 0 := by simpa using zero
        exact ⟨hs.inside, hs.parsed, firstMessage_none.mpr (.inr hd), by simpa using hlt⟩
    · rename_i hd
      obtain rfl := (Pass.leave.inj h).symm
      exact ⟨hs.inside, hs.parsed, firstMessage_none.mpr (.inl hd), by simpa using hlt⟩
  · rename_i hge
    cases h
    have hnil : buf.drop s.off = [] := List.drop_eq_nil_of_le (by omega)
    refine ⟨hs.inside, hs.parsed, firstMessage_none.mpr (.inl (by rw [hnil, decode_nil])), ?_⟩
    simp [hs.running]
    omega

theorem decodeStream_total (buf : Bytes) (fuel : Nat) (enough : buf.length < fuel) :
    ∃ r, decodeStream fuel buf = some r ∧ r.Finished buf := by
  refine Loop.run_total (decodeBody buf) (Capture.Reached buf) (fun s => buf.length - s.off)
    (Capture.Finished buf) (fun s v hs h => decodeBody_leave hs h)
    (fun s t hs h => decodeBody_again hs h) fuel {} ?_ ?_
  · exact ⟨Nat.zero_le _, by simpa using Framing.Parses.done buf, rfl⟩
  · simpa using enough

structure Turn.Reached (inp : Bytes) (before : List Item) (t : Turn) : Prop where
  inside : t.off ≤ inp.length
  parsed : ∃ items, t.seen = before ++ items ∧ messages.Parses inp items (inp.drop t.off)
  running : t.broken = false

structure Turn.Finished (inp : Bytes) (before : List Item) (t : Turn) : Prop where
  inside : t.off ≤ inp.length
  parsed : ∃ items, t.seen = before ++ items ∧ messages.Parses inp items (inp.drop t.off)
  verdict : decode (inp.drop t.off) = if t.broken then .malformed 0 else .incomplete

/-- The decode status behind a turn. -/
def Next.decoded : Next → Decoded
  | .wait => .incomplete
  | .lost => .malformed 0
  | .skip n => .malformed n
  | .command c n => .ok c n

/-- The command that a turn of a decode loop finds. -/
def Next.commands : Next → List Command
  | .command c _ => [c]
  | .wait | .lost | .skip _ => []

theorem decode_eq_next (inp : Bytes) (off : Nat) :
    decode (inp.drop off) = (next inp off).decoded := by
  unfold next
  by_cases hlt : off < inp.length
  · rw [if_pos hlt]
    cases hd : decode (inp.drop off) with
    | incomplete => rfl
    | ok c n => rfl
    | malformed n =>
        dsimp only
        split
        · rename_i zero
          rw [zero]
          rfl
        · rfl
  · have hnil : inp.drop off = [] := List.drop_eq_nil_of_le (by omega)
    rw [if_neg hlt, hnil]
    rfl

theorem next_skip_ne_zero {inp : Bytes} {off n : Nat} (h : next inp off = .skip n) : n ≠ 0 := by
  unfold next at h
  split at h
  · split at h
    · cases h
    · split at h
      · cases h
      · rename_i pos
        cases h
        exact pos
    · cases h
  · cases h

theorem turnBody_again {inp : Bytes} {before : List Item} {t u : Turn} (ht : t.Reached inp before)
    (h : turnBody inp t = .again u) :
    u.Reached inp before ∧ inp.length - u.off < inp.length - t.off := by
  have hd := decode_eq_next inp t.off
  have hl : (inp.drop t.off).length = inp.length - t.off := List.length_drop
  have hin := ht.inside
  obtain ⟨items, hseen, hparse⟩ := ht.parsed
  unfold turnBody at h
  cases hn : next inp t.off with
  | wait => simp [hn] at h
  | lost => simp [hn] at h
  | skip n =>
      rw [hn] at hd h
      have pos := next_skip_ne_zero hn
      have le := (decode_malformed hd).1
      cases h
      refine ⟨⟨?_, ⟨items ++ [.skipped ((inp.drop t.off).take n)], ?_, ?_⟩, ht.running⟩, ?_⟩
      · dsimp only; omega
      · simp [hseen]
      · simpa [List.drop_drop] using hparse.trans
          (Framing.Parses.single (first_of_malformed hd pos))
      · dsimp only; omega
  | command c n =>
      rw [hn] at hd h
      have pos := decode_ok_pos hd
      have le := (decode_ok hd).available
      cases h
      refine ⟨⟨?_, ⟨items ++ [.command c], ?_, ?_⟩, ht.running⟩, ?_⟩
      · dsimp only; omega
      · simp [hseen]
      · simpa [List.drop_drop] using hparse.trans (Framing.Parses.single (first_of_ok hd))
      · dsimp only; omega

theorem turnBody_leave {inp : Bytes} {before : List Item} {t u : Turn} (ht : t.Reached inp before)
    (h : turnBody inp t = .leave u) : u.Finished inp before := by
  have hd := decode_eq_next inp t.off
  unfold turnBody at h
  cases hn : next inp t.off with
  | wait =>
      rw [hn] at hd h
      cases h
      exact ⟨ht.inside, ht.parsed, by rw [ht.running]; exact hd⟩
  | lost =>
      rw [hn] at hd h
      cases h
      exact ⟨ht.inside, ht.parsed, hd⟩
  | skip n => simp [hn] at h
  | command c n => simp [hn] at h

theorem turn_total (inp : Bytes) (before : List Item) (fuel : Nat) (enough : inp.length < fuel) :
    ∃ t, Loop.run (turnBody inp) fuel { seen := before } = some t ∧ t.Finished inp before := by
  refine Loop.run_total (turnBody inp) (Turn.Reached inp before) (fun t => inp.length - t.off)
    (Turn.Finished inp before) (fun s v hs h => turnBody_leave hs h)
    (fun s t hs h => turnBody_again hs h) fuel { seen := before } ?_ ?_
  · exact ⟨Nat.zero_le _, ⟨[], by simp, by simpa using Framing.Parses.done inp⟩, rfl⟩
  · simpa using enough

structure Session.Holds (got : Bytes) (s : Session) : Prop where
  parsed : ∃ r, messages.Parses got s.seen r ∧
    decode r = (if s.dropped then .malformed 0 else .incomplete) ∧
    (s.dropped = false → s.inp = r)

theorem Session.Holds.receive {got : Bytes} {s : Session} (hs : s.Holds got) (chunk : Bytes)
    (fuel : Nat) (enough : (got ++ chunk).length < fuel) :
    ∃ t, Wire.receive fuel s chunk = some t ∧ t.Holds (got ++ chunk) := by
  obtain ⟨r, hparse, hstuck, hinp⟩ := hs.parsed
  cases hdrop : s.dropped with
  | true =>
      refine ⟨s, by simp [Wire.receive, hdrop],
        ⟨r ++ chunk, hparse.append chunk, ?_, by simp [hdrop]⟩⟩
      rw [hdrop] at hstuck ⊢
      rw [decode_append (by simp [hstuck]) chunk, hstuck]
  | false =>
      obtain rfl := hinp hdrop
      have hle : s.inp.length ≤ got.length := hparse.length_le
      have hfuel : (s.inp ++ chunk).length < fuel := by
        simp only [List.length_append] at enough ⊢; omega
      obtain ⟨t, hrun, hfin⟩ := turn_total (s.inp ++ chunk) s.seen fuel hfuel
      obtain ⟨items, hseen, hmore⟩ := hfin.parsed
      have hall := (hparse.append chunk).trans hmore
      rw [← hseen] at hall
      have hv := hfin.verdict
      cases hb : t.broken with
      | true =>
          rw [hb] at hv
          exact ⟨{ s with seen := t.seen, dropped := true },
            by simp [Wire.receive, hdrop, hrun, hb], ⟨_, hall, hv, by simp⟩⟩
      | false =>
          rw [hb] at hv
          exact ⟨{ inp := (s.inp ++ chunk).drop t.off, seen := t.seen },
            by simp [Wire.receive, hdrop, hrun, hb], ⟨_, hall, hv, fun _ => rfl⟩⟩

theorem Session.Holds.receiveAll {got : Bytes} {s : Session} (hs : s.Holds got)
    (chunks : List Bytes) (fuel : Nat) (enough : (got ++ chunks.flatten).length < fuel) :
    ∃ t, Wire.receiveAll fuel s chunks = some t ∧ t.Holds (got ++ chunks.flatten) := by
  induction chunks generalizing got s with
  | nil => exact ⟨s, rfl, by simpa using hs⟩
  | cons chunk chunks ih =>
      have hall : got ++ (chunk :: chunks).flatten = (got ++ chunk) ++ chunks.flatten := by simp
      have hfirst : (got ++ chunk).length < fuel := by
        rw [hall, List.length_append] at enough
        omega
      obtain ⟨t, hrecv, ht⟩ := hs.receive chunk fuel hfirst
      obtain ⟨u, hrest, hu⟩ := ih ht (by rwa [← hall])
      exact ⟨u, by simp [Wire.receiveAll, hrecv, hrest], by rwa [hall]⟩

theorem Session.holds_fresh : Session.Holds [] {} :=
  ⟨⟨[], .done [], by simp [decode_nil], fun _ => rfl⟩⟩

theorem decode_lost_iff (r : Bytes) :
    decode r = .malformed 0 ↔
      kHeaderSize ≤ r.length ∧ (header.read r).length.toNat < kHeaderSize := by
  constructor
  · intro h
    obtain ⟨-, h16, hz, -⟩ := decode_malformed h
    exact ⟨h16, hz.mp rfl⟩
  · rintro ⟨h16, hlow⟩
    unfold decode
    rw [if_neg (by omega)]
    simp [hlow]

/-- The codec is a bijection between commands and messages, and decoding a stream
does not depend on how its bytes arrive. -/
theorem decoding_ignores_chunking (chunks : List Bytes) (fuel : Nat)
    (enough : chunks.flatten.length < fuel) :
    (∀ c, (∃ p n, decode p = .ok c n) →
      ∀ rest, decode (encode c ++ rest) = .ok c (encode c).length) ∧
    (∀ p c n, decode p = .ok c n → n ≤ p.length ∧ encode c = p.take n) ∧
    (∃ s r, receiveAll fuel {} chunks = some s ∧ decodeStream fuel chunks.flatten = some r ∧
      s.seen = r.seen ∧ r.off ≤ chunks.flatten.length ∧
      (s.dropped = true ↔
        kHeaderSize ≤ (chunks.flatten.drop r.off).length ∧
          (header.read (chunks.flatten.drop r.off)).length.toNat < kHeaderSize) ∧
      (s.dropped = false → s.inp = chunks.flatten.drop r.off)) ∧
    (∀ inp before, inp.length < fuel →
      ∃ t, Loop.run (turnBody inp) fuel { seen := before } = some t ∧ t.off ≤ inp.length) := by
  refine ⟨?_, ?_, ?_, ?_⟩
  · rintro c ⟨p, n, h⟩ rest
    rw [decode_encode, (decode_ok h).plain, length_encode]
  · intro p c n h
    exact ⟨(decode_ok h).available, (decode_ok h).bytes⟩
  · obtain ⟨s, hs, hold⟩ := Session.holds_fresh.receiveAll chunks fuel (by simpa using enough)
    obtain ⟨r, hr, hfin⟩ := decodeStream_total chunks.flatten fuel enough
    obtain ⟨q, hparse, hverdict, hinp⟩ := hold.parsed
    have hstuck : messages.first q = none := by
      cases hd : s.dropped <;> rw [hd] at hverdict
      · exact firstMessage_none.mpr (.inl hverdict)
      · exact firstMessage_none.mpr (.inr hverdict)
    obtain ⟨hseen, rfl⟩ :=
      Framing.Parses.unique hparse (by simpa using hfin.parsed) hstuck hfin.stuck
    refine ⟨s, r, hs, hr, hseen, hfin.inside, ?_, hinp⟩
    rw [← decode_lost_iff, hverdict]
    cases s.dropped <;> simp
  · intro inp before henough
    obtain ⟨t, hrun, hfin⟩ := turn_total inp before fuel henough
    exact ⟨t, hrun, hfin.inside⟩

/-- A cancel cut inside its header, with a garbled message behind it. -/
theorem decoding_ignores_chunking_cut :
    (receiveAll 100 {} [[24, 0, 2], [1, 0, 0, 0, 0, 7, 0, 0, 0, 0, 0, 0, 0, 5, 0, 0],
        [0, 0, 0, 0, 0, 3, 0, 9, 9, 0, 0, 0, 0, 0, 0, 0, 0, 0, 0, 0, 0]]).map
          Session.dropped = some true ∧
      ∃ s r, receiveAll 100 {} [[24, 0, 2], [1, 0, 0, 0, 0, 7, 0, 0, 0, 0, 0, 0, 0, 5, 0, 0],
          [0, 0, 0, 0, 0, 3, 0, 9, 9, 0, 0, 0, 0, 0, 0, 0, 0, 0, 0, 0, 0]] = some s ∧
        decodeStream 100 [24, 0, 2, 1, 0, 0, 0, 0, 7, 0, 0, 0, 0, 0, 0, 0, 5, 0, 0, 0, 0, 0, 0, 0,
          3, 0, 9, 9, 0, 0, 0, 0, 0, 0, 0, 0, 0, 0, 0, 0] = some r ∧ s.seen = r.seen := by
  refine ⟨by decide, ?_⟩
  obtain ⟨s, r, hs, hr, hseen, -⟩ := (decoding_ignores_chunking
    [[24, 0, 2], [1, 0, 0, 0, 0, 7, 0, 0, 0, 0, 0, 0, 0, 5, 0, 0],
      [0, 0, 0, 0, 0, 3, 0, 9, 9, 0, 0, 0, 0, 0, 0, 0, 0, 0, 0, 0, 0]] 100 (by decide)).2.2.1
  exact ⟨s, r, hs, hr, hseen⟩

end ExchangeSim.Wire
