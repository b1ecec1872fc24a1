/- digest: The write-ahead journal: record framing, the tail rules of the reader, and the writer. -/

import ExchangeSim.Wire.Protocol
import ExchangeSim.Lib.Crc
import ExchangeSim.Lib.Framing
import ExchangeSim.Lib.Loop

set_option autoImplicit false
set_option relaxedAutoImplicit false

namespace ExchangeSim.Journal

open ExchangeSim.Lib
open ExchangeSim.Lib.Loop (Pass)
open ExchangeSim.Wire

namespace Crc32c

/-- Castagnoli's polynomial, reflected. -/
def kPoly : BitVec 32 := 0x82F63B78#32

/-- The entries of the table that `make` fills. -/
def table (i : BitVec 32) : BitVec 32 := (Crc.shiftBit kPoly)^[8] i

def step (c : BitVec 32) (b : UInt8) : BitVec 32 :=
  table ((c ^^^ b.toUInt32.toBitVec) &&& 0xFF#32) ^^^ (c >>> 8)

def of (data : Bytes) : UInt32 := ⟨~~~ data.foldl step 0xFFFFFFFF#32⟩

theorem step_eq (c : BitVec 32) (b : UInt8) :
    step c b = (Crc.shiftBit kPoly)^[8] (c ^^^ b.toUInt32.toBitVec) := by
  have high : (c ^^^ b.toUInt32.toBitVec) >>> 8 = c >>> 8 := by
    rw [BitVec.ushiftRight_xor_distrib]
    have : b.toUInt32.toBitVec >>> 8 = 0#32 := by
      apply BitVec.eq_of_toNat_eq
      have := b.toNat_lt
      simp [BitVec.toNat_ushiftRight, Nat.shiftRight_eq_div_pow]
      omega
    rw [this, BitVec.xor_zero]
  rw [← Crc.table_step, high]
  rfl

private theorem register_injective : Function.Injective (Crc.shiftBit kPoly)^[8] :=
  (Crc.shiftBit_injective kPoly (by decide)).iterate 8

theorem step_left_injective (b : UInt8) : Function.Injective (step · b) := by
  intro c d h
  simp only [step_eq] at h
  exact (BitVec.xor_left_inj _).mp (register_injective h)

theorem step_right_injective (c : BitVec 32) : Function.Injective (step c) := by
  intro a b h
  simp only [step_eq] at h
  have hx := (BitVec.xor_right_inj _).mp (register_injective h)
  have := congrArg BitVec.toNat hx
  apply UInt8.toNat_inj.mp
  simpa using this

theorem foldl_step_injective (data : Bytes) : Function.Injective (data.foldl step ·) := by
  induction data with
  | nil => exact fun _ _ h => h
  | cons b data ih => exact ih.comp (step_left_injective b)

theorem of_ne_of_byte {front back : Bytes} {a b : UInt8} (h : a ≠ b) :
    of (front ++ a :: back) ≠ of (front ++ b :: back) := by
  intro he
  have hn := BitVec.not_inj.mp (UInt32.ofBitVec.inj he)
  simp only [List.foldl_append, List.foldl_cons] at hn
  exact h (step_right_injective _ (foldl_step_injective back hn))

end Crc32c

structure RecordMeta where
  len : UInt32
  crc : UInt32
  ts : UInt64
  owner : UInt32
  reserved : UInt32
  deriving DecidableEq, Repr

def kMetaSize : Nat := 24
def kJournalHeaderBytes : Nat := 8

def recordMeta : Packed RecordMeta kMetaSize :=
  (Packed.u32.and (Packed.u32.and (Packed.u64.and (Packed.u32.and Packed.u32)))).as
    { toFun := fun (l, c, t, o, r) => ⟨l, c, t, o, r⟩
      invFun := fun m => (m.len, m.crc, m.ts, m.owner, m.reserved)
      left_inv := fun _ => rfl
      right_inv := fun _ => rfl }

/-- What the checksum covers: the time and the owner, hashed ahead of the payload. -/
def crcOf (ts : UInt64) (owner : UInt32) (payload : Bytes) : UInt32 :=
  Crc32c.of (Packed.u64.bytes ts ++ Packed.u32.bytes owner ++ payload)

inductive JournalStatus where
  | clean
  | tornTail
  | corrupt
  deriving DecidableEq, Repr

/-- What one turn of the scan finds at its place in the file. -/
inductive Reading where
  | endOfFile
  | torn
  | corrupt
  | record (c : Command) (bytes : Nat)
  deriving DecidableEq, Repr

/-- `rest` is the file from the read position on. -/
def readRecord (rest : Bytes) : Reading :=
  let got := (rest.take kMetaSize).length
  if got = 0 then .endOfFile
  else if got ≠ kMetaSize then .torn
  else
    let m := recordMeta.read rest
    if m.len.toNat < kHeaderSize ∨ kMaxMessageSize < m.len.toNat then .corrupt
    else
      let payload := (rest.drop kMetaSize).take m.len.toNat
      if payload.length ≠ m.len.toNat then .torn
      else if crcOf m.ts m.owner payload ≠ m.crc then .corrupt
      else match decode payload with
        | .ok c n =>
            if n ≠ m.len.toNat then .corrupt
            else .record { c with ts := m.ts, owner := m.owner } (kMetaSize + m.len.toNat)
        | _ => .corrupt

/-- A `JournalScan` with the commands the callback was given. -/
structure JournalScan where
  records : Nat := 0
  validBytes : Nat := 0
  status : JournalStatus := .clean
  delivered : List Command := []
  deriving DecidableEq, Repr

/-- The scan's loop: the file from the read position on, and the result so far. -/
def scanBody (s : Bytes × JournalScan) : Pass (Bytes × JournalScan) JournalScan :=
  match readRecord s.1 with
  | .endOfFile => .leave s.2
  | .torn => .leave { s.2 with status := .tornTail }
  | .corrupt => .leave { s.2 with status := .corrupt }
  | .record c n =>
      .again (s.1.drop n, { s.2 with
        records := s.2.records + 1
        validBytes := s.2.validBytes + n
        delivered := s.2.delivered ++ [c] })

/-- "EXJR" and version 1. -/
def fileHeader : Bytes := [0x45, 0x58, 0x4A, 0x52, 1, 0, 0, 0]

/-- `journal_scan` of an existing file, for at most `fuel` turns of its loop. -/
def journalScan (fuel : Nat) (file : Bytes) : Option (Except String JournalScan) :=
  if (file.take kJournalHeaderBytes).length ≠ kJournalHeaderBytes then
    some (.ok { status := .tornTail })
  else if file.take kJournalHeaderBytes ≠ fileHeader then some (.error "not an exsim journal")
  else
    (Loop.run scanBody fuel (file.drop kJournalHeaderBytes,
      { validBytes := kJournalHeaderBytes })).map .ok

/-- The bytes that `append` writes for a command. -/
def recordBytes (c : Command) : Bytes :=
  let payload := encode c
  recordMeta.bytes ⟨UInt32.ofNat payload.length, crcOf c.ts c.owner payload, c.ts, c.owner, 0⟩ ++
    payload

structure JournalWriter where
  file : Bytes
  buffer : Bytes := []
  deriving DecidableEq, Repr

namespace JournalWriter

/-- The header is written and synced. -/
def create : JournalWriter where
  file := fileHeader

/-- Cuts a torn or corrupt tail off and opens the file for appending. -/
def recover (fuel : Nat) (file : Bytes) : Option (Except String JournalWriter) :=
  (journalScan fuel file).map fun r => r.map fun s =>
    if s.validBytes < kJournalHeaderBytes then create else { file := file.take s.validBytes }

def append (w : JournalWriter) (c : Command) : JournalWriter :=
  { w with buffer := w.buffer ++ recordBytes c }

def flush (w : JournalWriter) : JournalWriter := { file := w.file ++ w.buffer }

end JournalWriter

/-- What a record keeps of a command: what the wire carries, the time and the owner. -/
def recorded (c : Command) : Command := { carried c with ts := c.ts, owner := c.owner }

/-- The payload that a record's length field delimits. -/
def payloadOf (p : Bytes) : Bytes := (p.drop kMetaSize).take (recordMeta.read p).len.toNat

structure RecordAt (p : Bytes) (c : Command) (n : Nat) : Prop where
  size : n = kMetaSize + (recordMeta.read p).len.toNat
  inside : n ≤ p.length
  checksum : crcOf (recordMeta.read p).ts (recordMeta.read p).owner (payloadOf p) =
    (recordMeta.read p).crc
  decoded : ∃ d, decode (payloadOf p) = .ok d (recordMeta.read p).len.toNat ∧
    c = { d with ts := (recordMeta.read p).ts, owner := (recordMeta.read p).owner }

theorem recordAt_of_readRecord {p : Bytes} {c : Command} {n : Nat}
    (h : readRecord p = .record c n) : RecordAt p c n := by
  unfold readRecord at h
  simp only at h
  split at h
  · cases h
  split at h
  · cases h
  split at h
  · cases h
  split at h
  · cases h
  rename_i hmeta hlen hpay
  split at h
  · cases h
  rename_i hcrc
  split at h
  · rename_i d k hd
    split at h
    · cases h
    · rename_i hk
      obtain rfl : k = (recordMeta.read p).len.toNat := by simpa using hk
      obtain ⟨rfl, rfl⟩ := Reading.record.inj h
      simp only [List.length_take, List.length_drop] at hmeta hpay
      refine ⟨rfl, by omega, by simpa [payloadOf] using hcrc, ⟨d, hd, rfl⟩⟩
  · cases h

theorem RecordAt.readRecord {p : Bytes} {c : Command} {n : Nat} (h : RecordAt p c n) :
    readRecord p = .record c n := by
  obtain ⟨d, hd, rfl⟩ := h.decoded
  have hin := h.inside
  have hn := h.size
  have hsize := (decode_ok hd).size
  have hlow := kHeaderSize_le_messageSize d.type
  have hhigh := messageSize_le d.type
  have hmeta : (p.take kMetaSize).length = kMetaSize := by rw [List.length_take]; omega
  have hpay : (payloadOf p).length = (recordMeta.read p).len.toNat := by
    rw [payloadOf, List.length_take, List.length_drop]
    omega
  have hcrc := h.checksum
  unfold Journal.readRecord
  unfold payloadOf at hd hpay hcrc
  simp only [hmeta]
  rw [if_neg (by decide), if_neg (by simp), if_neg (by omega), if_neg (by simpa using hpay),
    if_neg (by simpa using hcrc), hd]
  simp [hn]

theorem RecordAt.take_append {p : Bytes} {c : Command} {n : Nat} (h : RecordAt p c n) (q : Bytes) :
    RecordAt (p.take n ++ q) c n := by
  have hin := h.inside
  have hn := h.size
  have hmeta : recordMeta.read (p.take n ++ q) = recordMeta.read p := by
    have htake : kMetaSize ≤ (p.take n).length := by rw [List.length_take]; omega
    have hp := recordMeta.read_append htake (p.drop n)
    rw [List.take_append_drop] at hp
    rw [recordMeta.read_append htake, ← hp]
  have hpay : payloadOf (p.take n ++ q) = payloadOf p := by
    unfold payloadOf
    rw [hmeta, List.drop_append_of_le_length (by rw [List.length_take]; omega),
      List.take_append_of_le_length (by simp only [List.length_drop, List.length_take]; omega),
      List.drop_take, List.take_take]
    congr 1
    omega
  refine ⟨by rw [hmeta]; exact hn, ?_, by rw [hmeta, hpay]; exact h.checksum,
    by rw [hmeta, hpay]; exact h.decoded⟩
  simp only [List.length_append, List.length_take]
  omega

def firstRecord (p : Bytes) : Option (Command × Nat) :=
  match readRecord p with
  | .record c n => some (c, n)
  | _ => none

theorem firstRecord_iff {p : Bytes} {c : Command} {n : Nat} :
    firstRecord p = some (c, n) ↔ RecordAt p c n := by
  constructor
  · intro h
    unfold firstRecord at h
    split at h
    · rename_i hr
      cases h
      exact recordAt_of_readRecord hr
    · cases h
  · intro h
    rw [firstRecord, h.readRecord]

/-- The records of a journal file, behind its header. -/
def records : Framing Command where
  first := firstRecord
  pos h := by
    have := (firstRecord_iff.mp h).size
    have : kMetaSize = 24 := rfl
    omega
  inside h := (firstRecord_iff.mp h).inside
  alone h q := firstRecord_iff.mpr ((firstRecord_iff.mp h).take_append q)

theorem recordAt_recordBytes (c : Command) (rest : Bytes) :
    RecordAt (recordBytes c ++ rest) (recorded c) (recordBytes c).length := by
  have hlen : (UInt32.ofNat (messageSize c.type)).toNat = messageSize c.type := by
    cases c.type <;> rfl
  have hm : recordMeta.read (recordBytes c ++ rest) =
      ⟨UInt32.ofNat (messageSize c.type), crcOf c.ts c.owner (encode c), c.ts, c.owner, 0⟩ := by
    simp [recordBytes, List.append_assoc]
  have hpay : payloadOf (recordBytes c ++ rest) = encode c := by
    unfold payloadOf
    rw [hm]
    simp only [recordBytes, List.append_assoc, hlen]
    rw [List.drop_left' (recordMeta.length_bytes _), List.take_left' (length_encode c)]
  have hsize : (recordBytes c).length = kMetaSize + messageSize c.type := by simp [recordBytes]
  refine ⟨by rw [hm, hlen, hsize], by simp, by rw [hm, hpay], ⟨carried c, ?_, by rw [hm]; rfl⟩⟩
  have := decode_encode c []
  rw [List.append_nil] at this
  rw [hpay, hm, hlen, this]

/-- The bytes of a list of records. -/
def journalBytes (cs : List Command) : Bytes := (cs.map recordBytes).flatten

theorem parses_journalBytes (cs : List Command) (rest : Bytes) :
    records.Parses (journalBytes cs ++ rest) (cs.map recorded) rest := by
  induction cs with
  | nil => exact .done rest
  | cons c cs ih =>
      have h := firstRecord_iff.mpr (recordAt_recordBytes c (journalBytes cs ++ rest))
      have hb : journalBytes (c :: cs) ++ rest = recordBytes c ++ (journalBytes cs ++ rest) := by
        simp [journalBytes]
      rw [hb]
      refine .frame h ?_
      rwa [List.drop_left' rfl]

/-- What a status says about the place where the scan stopped. -/
def JournalStatus.reading : JournalStatus → Reading
  | .clean => .endOfFile
  | .tornTail => .torn
  | .corrupt => .corrupt

theorem firstRecord_eq_none {p : Bytes} (st : JournalStatus) (h : readRecord p = st.reading) :
    records.first p = none := by
  change firstRecord p = none
  rw [firstRecord, h]
  cases st <;> rfl

theorem readRecord_endOfFile {p : Bytes} : readRecord p = .endOfFile ↔ p = [] := by
  constructor
  · intro h
    by_contra hne
    have hpos : (p.take kMetaSize).length ≠ 0 := by
      have := List.length_pos_iff.mpr hne
      have : kMetaSize = 24 := rfl
      rw [List.length_take]
      omega
    unfold readRecord at h
    simp only [if_neg hpos] at h
    repeat' split at h
    all_goals cases h
  · rintro rfl
    rfl

structure Scanned (file : Bytes) (s : JournalScan) : Prop where
  header : kJournalHeaderBytes ≤ s.validBytes
  inside : s.validBytes ≤ file.length
  parsed : records.Parses (file.drop kJournalHeaderBytes) s.delivered (file.drop s.validBytes)
  counted : s.records = s.delivered.length
  verdict : readRecord (file.drop s.validBytes) = s.status.reading

private structure Scanning (file : Bytes) (s : Bytes × JournalScan) : Prop where
  header : kJournalHeaderBytes ≤ s.2.validBytes
  inside : s.2.validBytes ≤ file.length
  place : s.1 = file.drop s.2.validBytes
  parsed : records.Parses (file.drop kJournalHeaderBytes) s.2.delivered s.1
  counted : s.2.records = s.2.delivered.length
  clean : s.2.status = .clean

private theorem scanBody_again {file : Bytes} {s t : Bytes × JournalScan} (hs : Scanning file s)
    (h : scanBody s = .again t) : Scanning file t ∧ t.1.length < s.1.length := by
  unfold scanBody at h
  split at h
  · cases h
  · cases h
  · cases h
  · rename_i c n hr
    cases h
    have hrec := recordAt_of_readRecord hr
    have hin := hrec.inside
    have hsize := hrec.size
    have hlen : s.1.length = file.length - s.2.validBytes := by rw [hs.place, List.length_drop]
    have hmeta : kMetaSize = 24 := rfl
    have := hs.header
    have := hs.inside
    refine ⟨⟨?_, ?_, ?_, ?_, ?_, hs.clean⟩, ?_⟩
    · dsimp only; omega
    · dsimp only; omega
    · rw [hs.place, List.drop_drop]
    · exact hs.parsed.trans (.single (firstRecord_iff.mpr hrec))
    · simp [hs.counted]
    · rw [List.length_drop]; omega

private theorem scanBody_leave {file : Bytes} {s : Bytes × JournalScan} {v : JournalScan}
    (hs : Scanning file s) (h : scanBody s = .leave v) : Scanned file v := by
  have hp := hs.place
  unfold scanBody at h
  split at h
  · rename_i hr
    cases h
    exact ⟨hs.header, hs.inside, hp ▸ hs.parsed, hs.counted, by rw [hs.clean, ← hp]; exact hr⟩
  · rename_i hr
    cases h
    exact ⟨hs.header, hs.inside, hp ▸ hs.parsed, hs.counted, hp ▸ hr⟩
  · rename_i hr
    cases h
    exact ⟨hs.header, hs.inside, hp ▸ hs.parsed, hs.counted, hp ▸ hr⟩
  · cases h

theorem journalScan_total {file : Bytes} (head : file.take kJournalHeaderBytes = fileHeader)
    (fuel : Nat) (enough : file.length < fuel) :
    ∃ s, journalScan fuel file = some (.ok s) ∧ Scanned file s := by
  have hlen : kJournalHeaderBytes ≤ file.length := by
    have h8 := congrArg List.length head
    have hf : fileHeader.length = kJournalHeaderBytes := rfl
    rw [List.length_take, hf] at h8
    omega
  have hstart :
      Scanning file (file.drop kJournalHeaderBytes, { validBytes := kJournalHeaderBytes }) :=
    ⟨Nat.le_refl _, hlen, rfl, .done _, rfl, rfl⟩
  obtain ⟨s, hrun, hs⟩ := Loop.run_total scanBody (Scanning file) (fun s => s.1.length)
    (Scanned file) (fun s v hs h => scanBody_leave hs h) (fun s t hs h => scanBody_again hs h)
    fuel _ hstart (by rw [List.length_drop]; omega)
  refine ⟨s, ?_, hs⟩
  unfold journalScan
  rw [if_neg (by rw [List.length_take]; omega), if_neg (by simp [head]), hrun]
  rfl

theorem Scanned.eq_of_parses {file : Bytes} {s : JournalScan} (hs : Scanned file s)
    {cs : List Command} {r : Bytes} (parse : records.Parses (file.drop kJournalHeaderBytes) cs r)
    (stop : records.first r = none) :
    s.delivered = cs ∧ file.drop s.validBytes = r :=
  hs.parsed.unique parse (firstRecord_eq_none _ hs.verdict) stop

theorem Scanned.extends {file : Bytes} {s : JournalScan} (hs : Scanned file s) {cs : List Command}
    {r : Bytes} (parse : records.Parses (file.drop kJournalHeaderBytes) cs r) :
    ∃ more, s.delivered = cs ++ more ∧ records.Parses r more (file.drop s.validBytes) :=
  parse.resume hs.parsed (firstRecord_eq_none _ hs.verdict)

/-- The file of a journal that was created, appended to and flushed. -/
def written (cs : List Command) : Bytes := (cs.foldl JournalWriter.append .create).flush.file

theorem foldl_append (cs : List Command) (w : JournalWriter) :
    cs.foldl JournalWriter.append w = { w with buffer := w.buffer ++ journalBytes cs } := by
  induction cs generalizing w with
  | nil => simp [journalBytes]
  | cons c cs ih => simp [ih, JournalWriter.append, journalBytes]

theorem written_eq (cs : List Command) : written cs = fileHeader ++ journalBytes cs := by
  simp [written, foldl_append, JournalWriter.flush, JournalWriter.create]

/-- A command as `decode` makes them, with any time and owner. -/
def Journaled (c : Command) : Prop :=
  ∃ p d n, decode p = .ok d n ∧ c = { d with ts := c.ts, owner := c.owner }

theorem Journaled.recorded_eq {c : Command} (h : Journaled c) : recorded c = c := by
  obtain ⟨p, d, n, hd, hc⟩ := h
  have plain := (decode_ok hd).plain
  have hcar : carried c = { carried d with ts := 0, owner := (carried c).owner } := by
    rw [hc]
    unfold carried
    cases d.type <;> rfl
  rw [recorded, hcar, plain]
  exact hc.symm

theorem map_recorded {cs : List Command} (h : ∀ c ∈ cs, Journaled c) : cs.map recorded = cs := by
  conv_rhs => rw [← List.map_id cs]
  exact List.map_congr_left fun c hc => (h c hc).recorded_eq

end ExchangeSim.Journal
