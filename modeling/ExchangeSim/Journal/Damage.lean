/- digest: One flipped bit in a clean journal: it shortens what is replayed and never changes it. -/

import ExchangeSim.Journal.Recovery

set_option autoImplicit false
set_option relaxedAutoImplicit false

namespace ExchangeSim.Journal

open ExchangeSim.Lib
open ExchangeSim.Wire

/-- The byte at `off` with one of its bits flipped. -/
def flipBit (p : Bytes) (off : Nat) (bit : Fin 8) : Bytes :=
  p.set off (p.getD off 0 ^^^ (1 <<< UInt8.ofNat bit.val))

theorem flipped_ne (b : UInt8) (bit : Fin 8) : b ^^^ (1 <<< UInt8.ofNat bit.val) ≠ b := by
  intro h
  have hz : (1 : UInt8) <<< UInt8.ofNat bit.val = 0 := by
    have hx := congrArg (b ^^^ ·) h
    simpa [← UInt8.xor_assoc] using hx
  have hone : ∀ i : Fin 8, (1 : UInt8) <<< UInt8.ofNat i.val ≠ 0 := by decide
  exact hone bit hz

namespace Crc32c

theorem of_set_ne {data : Bytes} {k : Nat} {b : UInt8} (hk : k < data.length) (hb : b ≠ data[k]) :
    of (data.set k b) ≠ of data := by
  have hd : data = data.take k ++ data[k] :: data.drop (k + 1) := by simp
  rw [List.set_eq_take_append_cons_drop, if_pos hk]
  conv_rhs => rw [hd]
  exact of_ne_of_byte hb

end Crc32c

/-- The bytes of a record that its checksum covers. -/
def covered (p : Bytes) : Bytes := (p.drop 8).take 12 ++ payloadOf p

theorem crcOf_eq_covered {p : Bytes} (h : kMetaSize ≤ p.length) :
    crcOf (recordMeta.read p).ts (recordMeta.read p).owner
      (payloadOf p) = Crc32c.of (covered p) := by
  have hmeta : kMetaSize = 24 := rfl
  have hts : Packed.u64.bytes (recordMeta.read p).ts = (p.drop 8).take 8 := by
    change Packed.u64.bytes (Packed.u64.read ((p.drop 4).drop 4)) = _
    rw [List.drop_drop, Packed.bytes_read]
    rw [List.length_drop]
    omega
  have howner : Packed.u32.bytes (recordMeta.read p).owner = ((p.drop 8).drop 8).take 4 := by
    change Packed.u32.bytes (Packed.u32.read (((p.drop 4).drop 4).drop 8)) = _
    simp only [List.drop_drop]
    rw [Packed.bytes_read]
    rw [List.length_drop]
    omega
  rw [crcOf, covered, hts, howner, ← List.take_add]

section ChangedByte

variable {p : Bytes} {c : Command} {n k : Nat} {b : UInt8}

private theorem field_eq {α : Type} {w : Nat} (a : Packed α w) {q r : Bytes} (hq : w ≤ q.length)
    (hr : w ≤ r.length) (h : q.take w = r.take w) : a.read q = a.read r := by
  have h₁ := a.read_append (p := q.take w) (by rw [List.length_take]; omega) (q.drop w)
  have h₂ := a.read_append (p := r.take w) (by rw [List.length_take]; omega) (r.drop w)
  rw [List.take_append_drop] at h₁ h₂
  rw [h₁, h₂, h]

private theorem field_ne {α : Type} {w : Nat} (a : Packed α w) {q r : Bytes} (hq : w ≤ q.length)
    (hr : w ≤ r.length) (h : q.take w ≠ r.take w) : a.read q ≠ a.read r := by
  intro he
  apply h
  rw [← a.bytes_read q hq, ← a.bytes_read r hr, he]

private theorem len_eq (hk : 4 ≤ k) (hp : kMetaSize ≤ p.length) :
    (recordMeta.read (p.set k b)).len = (recordMeta.read p).len := by
  have hmeta : kMetaSize = 24 := rfl
  refine field_eq Packed.u32 (by rw [List.length_set]; omega) (by omega) ?_
  rw [List.take_set, List.set_eq_of_length_le]
  rw [List.length_take]
  omega

private theorem payloadOf_set_of_lt (h4 : 4 ≤ k) (hk : k < kMetaSize) (hp : kMetaSize ≤ p.length) :
    payloadOf (p.set k b) = payloadOf p := by
  rw [payloadOf, len_eq h4 hp, List.drop_set, if_pos hk, payloadOf]

private theorem payloadOf_set_of_ge (hk : kMetaSize ≤ k) (hp : kMetaSize ≤ p.length) :
    payloadOf (p.set k b) = (payloadOf p).set (k - kMetaSize) b := by
  have hmeta : kMetaSize = 24 := rfl
  rw [payloadOf, len_eq (by omega) hp, List.drop_set, if_neg (by omega), List.take_set, payloadOf]

private theorem crc_eq (hk : 8 ≤ k) (hp : kMetaSize ≤ p.length) :
    (recordMeta.read (p.set k b)).crc = (recordMeta.read p).crc := by
  have hmeta : kMetaSize = 24 := rfl
  refine field_eq Packed.u32 ?_ ?_ ?_
  · rw [List.length_drop, List.length_set]; omega
  · rw [List.length_drop]; omega
  · rw [List.drop_set, if_neg (by omega), List.take_set, List.set_eq_of_length_le]
    rw [List.length_take]
    omega

private theorem readRecord_of_checksum {q : Bytes}
    (hq : kMetaSize + (recordMeta.read q).len.toNat ≤ q.length)
    (hlow : kHeaderSize ≤ (recordMeta.read q).len.toNat)
    (hhigh : (recordMeta.read q).len.toNat ≤ kMaxMessageSize)
    (hcrc : Crc32c.of (covered q) ≠ (recordMeta.read q).crc) : readRecord q = .corrupt := by
  have hgot : (q.take kMetaSize).length = kMetaSize := by rw [List.length_take]; omega
  have hpay : (payloadOf q).length = (recordMeta.read q).len.toNat := by
    rw [payloadOf, List.length_take, List.length_drop]
    omega
  rw [← crcOf_eq_covered (by omega)] at hcrc
  unfold payloadOf at hpay hcrc
  unfold readRecord
  simp only [hgot]
  rw [if_neg (by decide), if_neg (by simp), if_neg (by omega), if_neg (by simpa using hpay),
    if_pos hcrc]

theorem readRecord_damaged (h : RecordAt p c n) (h4 : 4 ≤ k) (hk : k < n)
    (hres : k < 20 ∨ kMetaSize ≤ k) (hb : b ≠ p.getD k 0) : readRecord (p.set k b) = .corrupt := by
  have hmeta : kMetaSize = 24 := rfl
  have hin := h.inside
  have hn := h.size
  obtain ⟨d, hd, -⟩ := h.decoded
  have hsize := (decode_ok hd).size
  have hlow := kHeaderSize_le_messageSize d.type
  have hhigh := messageSize_le d.type
  have hp : kMetaSize ≤ p.length := by omega
  have hlen := congrArg UInt32.toNat (len_eq (b := b) h4 hp)
  have hget : p.getD k 0 = p[k] := by simp [List.getD, show k < p.length by omega]
  rw [hget] at hb
  have hpay : (payloadOf p).length = (recordMeta.read p).len.toNat := by
    rw [payloadOf, List.length_take, List.length_drop]
    omega
  have hsum := h.checksum
  rw [crcOf_eq_covered hp] at hsum
  have hl12 : ((p.drop 8).take 12).length = 12 := by
    rw [List.length_take, List.length_drop]
    omega
  refine readRecord_of_checksum (by rw [List.length_set]; omega) (by omega) (by omega) ?_
  by_cases hcrc : k < 8
  · -- The stored checksum itself.
    have hcov : covered (p.set k b) = covered p := by
      rw [covered, payloadOf_set_of_lt h4 (by omega) hp, List.drop_set, if_pos hcrc, covered]
    rw [hcov, hsum]
    refine field_ne Packed.u32 ?_ ?_ ?_
    · rw [List.length_drop]; omega
    · rw [List.length_drop, List.length_set]; omega
    · rw [List.drop_set, if_neg (by omega), List.take_set]
      intro he
      have hat := congrArg (fun l => l[k - 4]?) he
      rw [List.getElem?_set_self (by rw [List.length_take, List.length_drop]; omega)] at hat
      simp [show k - 4 < 4 by omega, show 4 + (k - 4) = k by omega,
        show k < p.length by omega] at hat
      exact hb hat.symm
  · rw [crc_eq (by omega) hp, ← hsum]
    by_cases hlate : k < 20
    · have hcov : covered (p.set k b) = (covered p).set (k - 8) b := by
        rw [covered, payloadOf_set_of_lt h4 (by omega) hp, List.drop_set, if_neg (by omega),
          List.take_set, covered, List.set_append_left _ _ (by omega)]
      rw [hcov]
      refine Crc32c.of_set_ne (by rw [covered, List.length_append]; omega) ?_
      simp only [covered]
      rw [List.getElem_append_left (by omega)]
      simpa [show 8 + (k - 8) = k by omega] using hb
    · have hk24 : kMetaSize ≤ k := by omega
      have hcov : covered (p.set k b) = (covered p).set (12 + (k - kMetaSize)) b := by
        rw [covered, payloadOf_set_of_ge hk24 hp, List.drop_set, if_neg (by omega),
          List.take_set, List.set_eq_of_length_le (by omega), covered,
          List.set_append_right _ _ (by omega)]
        congr 2
        omega
      rw [hcov]
      refine Crc32c.of_set_ne (by rw [covered, List.length_append]; omega) ?_
      simp only [covered]
      rw [List.getElem_append_right (by omega)]
      simpa [payloadOf, hl12, show kMetaSize + (k - kMetaSize) = k by omega] using hb

/-- Damage in the length field frames other bytes, and every such framing is refused:
by its bounds, by the end of the file, or because the message inside has another length. -/
theorem readRecord_misframed (h : RecordAt p c n) (hk : k < 4) (hb : b ≠ p.getD k 0) :
    readRecord (p.set k b) =
      if kHeaderSize ≤ (recordMeta.read (p.set k b)).len.toNat ∧
          (recordMeta.read (p.set k b)).len.toNat ≤ kMaxMessageSize ∧
          p.length < kMetaSize + (recordMeta.read (p.set k b)).len.toNat then .torn
      else .corrupt := by
  have hmeta : kMetaSize = 24 := rfl
  have hin := h.inside
  have hn := h.size
  obtain ⟨d, hd, -⟩ := h.decoded
  have hsize := (decode_ok hd).size
  have hlow := kHeaderSize_le_messageSize d.type
  have hne : (recordMeta.read (p.set k b)).len ≠ (recordMeta.read p).len := by
    refine field_ne Packed.u32 (by rw [List.length_set]; omega) (by omega) ?_
    rw [List.take_set]
    intro he
    have hat := congrArg (fun l => l[k]?) he
    rw [List.getElem?_set_self (by rw [List.length_take]; omega)] at hat
    simp [hk, show k < p.length by omega] at hat
    apply hb
    simp [List.getD, show k < p.length by omega, hat]
  have hneNat : (recordMeta.read (p.set k b)).len.toNat ≠ (recordMeta.read p).len.toNat :=
    fun he => hne (UInt32.toNat_inj.mp he)
  have hgot : ((p.set k b).take kMetaSize).length = kMetaSize := by
    rw [List.length_take, List.length_set]
    omega
  have hdrop : (p.set k b).drop kMetaSize = p.drop kMetaSize := by
    rw [List.drop_set, if_pos (by omega)]
  unfold readRecord
  simp only [hgot, hdrop]
  rw [if_neg (by decide), if_neg (by simp)]
  generalize hL : (recordMeta.read (p.set k b)).len.toNat = L at hneNat
  by_cases hbounds : L < kHeaderSize ∨ kMaxMessageSize < L
  · rw [if_pos hbounds, if_neg (by omega)]
  rw [if_neg hbounds]
  by_cases hrun : p.length < kMetaSize + L
  · rw [if_pos (by rw [List.length_take, List.length_drop]; omega), if_pos (by omega)]
  have hfit : ¬ (kHeaderSize ≤ L ∧ L ≤ kMaxMessageSize ∧ p.length < kMetaSize + L) := by omega
  rw [if_neg hfit, if_neg (by rw [List.length_take, List.length_drop]; omega)]
  split
  · rfl
  split
  · rename_i e m he
    have hread : ∀ j, kHeaderSize ≤ j → kMetaSize + j ≤ p.length →
        header.read ((p.drop kMetaSize).take j) = header.read (p.drop kMetaSize) := by
      intro j hj hjp
      refine field_eq header (by rw [List.length_take, List.length_drop]; omega)
        (by rw [List.length_drop]; omega) ?_
      rw [List.take_take, Nat.min_eq_left hj]
    have hm : m = (recordMeta.read p).len.toNat := by
      rw [← (decode_ok he).framed, hread L (by omega) (by omega),
        ← (decode_ok hd).framed, payloadOf, hread _ (by omega) (by omega)]
    rw [if_pos (by omega)]
  · rfl

theorem readRecord_hit (h : RecordAt p c n) (hk : k < n) (hres : k < 20 ∨ kMetaSize ≤ k)
    (hb : b ≠ p.getD k 0) :
    readRecord (p.set k b) =
      if k < 4 ∧ (recordMeta.read p).len.toNat < (recordMeta.read (p.set k b)).len.toNat ∧
          (recordMeta.read (p.set k b)).len.toNat ≤ kMaxMessageSize ∧
          p.length < kMetaSize + (recordMeta.read (p.set k b)).len.toNat then .torn
      else .corrupt := by
  by_cases h4 : k < 4
  · obtain ⟨d, hd, -⟩ := h.decoded
    have hsize := (decode_ok hd).size
    have hlow := kHeaderSize_le_messageSize d.type
    have hin := h.inside
    have hn := h.size
    rw [readRecord_misframed h h4 hb]
    congr 1
    refine propext ⟨?_, ?_⟩
    · rintro ⟨-, h₂, h₃⟩
      exact ⟨h4, by omega, h₂, h₃⟩
    · rintro ⟨-, h₁, h₂, h₃⟩
      exact ⟨by omega, h₂, h₃⟩
  · rw [if_neg (fun hc => h4 hc.1)]
    exact readRecord_damaged h (by omega) hk hres hb

theorem RecordAt.set_reserved (h : RecordAt p c n) (hlow : 20 ≤ k) (hk : k < kMetaSize) :
    RecordAt (p.set k b) c n := by
  have hmeta : kMetaSize = 24 := rfl
  have hin := h.inside
  have hn := h.size
  have hp : kMetaSize ≤ p.length := by omega
  have hlen : (recordMeta.read (p.set k b)).len = (recordMeta.read p).len := len_eq (by omega) hp
  have hcrc : (recordMeta.read (p.set k b)).crc = (recordMeta.read p).crc := crc_eq (by omega) hp
  have hpay : payloadOf (p.set k b) = payloadOf p := payloadOf_set_of_lt (by omega) hk hp
  have hts : (recordMeta.read (p.set k b)).ts = (recordMeta.read p).ts := by
    refine field_eq Packed.u64 ?_ ?_ ?_
    · simp only [List.drop_drop, List.length_drop, List.length_set]; omega
    · simp only [List.drop_drop, List.length_drop]; omega
    · simp only [List.drop_drop]
      rw [List.drop_set, if_neg (by omega), List.take_set, List.set_eq_of_length_le]
      rw [List.length_take]
      omega
  have howner : (recordMeta.read (p.set k b)).owner = (recordMeta.read p).owner := by
    refine field_eq Packed.u32 ?_ ?_ ?_
    · simp only [List.drop_drop, List.length_drop, List.length_set]; omega
    · simp only [List.drop_drop, List.length_drop]; omega
    · simp only [List.drop_drop]
      rw [List.drop_set, if_neg (by omega), List.take_set, List.set_eq_of_length_le]
      rw [List.length_take]
      omega
  exact ⟨by rw [hlen]; exact hn, by rw [List.length_set]; exact hin,
    by rw [hts, howner, hpay, hcrc]; exact h.checksum,
    by rw [hts, howner, hpay, hlen]; exact h.decoded⟩

end ChangedByte

theorem header_of_clean {file : Bytes} {fuel : Nat} {s : JournalScan}
    (scan : journalScan fuel file = some (.ok s)) (clean : s.status = .clean) :
    file.take kJournalHeaderBytes = fileHeader := by
  unfold journalScan at scan
  split at scan
  · cases scan
    cases clean
  · split at scan
    · cases scan
    · rename_i h
      simpa using h

theorem journalScan_bad_header {file : Bytes} (head : file.take kJournalHeaderBytes = fileHeader)
    {off : Nat} (hoff : off < kJournalHeaderBytes) {b : UInt8} (hb : b ≠ file.getD off 0)
    (fuel : Nat) : journalScan fuel (file.set off b) = some (.error "not an exsim journal") := by
  have hlen : kJournalHeaderBytes ≤ file.length := by
    have h8 := congrArg List.length head
    have hf : fileHeader.length = kJournalHeaderBytes := rfl
    rw [List.length_take, hf] at h8
    omega
  have hne : (file.set off b).take kJournalHeaderBytes ≠ fileHeader := by
    rw [← head, List.take_set]
    intro he
    have hat := congrArg (fun l => l[off]?) he
    rw [List.getElem?_set_self (by rw [List.length_take]; omega)] at hat
    simp [hoff, show off < file.length by omega] at hat
    apply hb
    simp [List.getD, show off < file.length by omega, hat]
  unfold journalScan
  rw [if_neg (by rw [List.length_take, List.length_set]; omega), if_pos hne]

theorem journalScan_stops {file front q : Bytes} {cs : List Command} {fuel : Nat}
    (st : JournalStatus) (hfile : file = fileHeader ++ (front ++ q)) (enough : file.length < fuel)
    (parse : records.Parses front cs []) (stop : readRecord q = st.reading) :
    ∃ t, journalScan fuel file = some (.ok t) ∧ t.delivered = cs ∧
      t.validBytes = kJournalHeaderBytes + front.length ∧ t.status = st := by
  have hf : fileHeader.length = kJournalHeaderBytes := rfl
  have hhead : file.take kJournalHeaderBytes = fileHeader := by
    rw [hfile]
    exact List.take_left' hf
  have hdrop : file.drop kJournalHeaderBytes = front ++ q := by
    rw [hfile]
    exact List.drop_left' hf
  obtain ⟨t, hscan, ht⟩ := journalScan_total hhead fuel enough
  have hparse : records.Parses (file.drop kJournalHeaderBytes) cs q := by
    rw [hdrop]
    simpa using parse.append q
  obtain ⟨hdel, hend⟩ := ht.eq_of_parses hparse (firstRecord_eq_none st stop)
  have hv := ht.verdict
  rw [hend, stop] at hv
  have hlen := congrArg List.length hend
  have htot := congrArg List.length hfile
  have hin := ht.inside
  simp only [List.length_drop, List.length_append, hf] at hlen htot
  refine ⟨t, hscan, hdel, by omega, ?_⟩
  cases hst : t.status <;> cases st <;> rw [hst] at hv <;> first | rfl | cases hv

/-- The length field of the record at `start`. -/
def lenAt (file : Bytes) (start : Nat) : Nat := (recordMeta.read (file.drop start)).len.toNat

/-- The flip enlarged the length field of the record at `start` so that the record runs past the end
of the file. -/
def RunsPast (file : Bytes) (start off : Nat) (bit : Fin 8) : Prop :=
  off < start + 4 ∧ lenAt file start < lenAt (flipBit file off bit) start ∧
    file.length < start + kMetaSize + lenAt (flipBit file off bit) start

/-- The record runs past the end, and is still no longer than a message can be: the reader checks
that before it looks for the bytes. -/
def Overrun (file : Bytes) (start off : Nat) (bit : Fin 8) : Prop :=
  RunsPast file start off bit ∧ lenAt (flipBit file off bit) start ≤ kMaxMessageSize

structure Hit (file : Bytes) (s : JournalScan) (off start : Nat) (cs : List Command) (n : Nat) :
    Prop where
  header : kJournalHeaderBytes ≤ start
  before : start ≤ off
  within : off < start + n
  intact : records.Parses ((file.take start).drop kJournalHeaderBytes) cs []
  record : ∃ c rest, readRecord (file.drop start) = .record c n ∧ s.delivered = cs ++ c :: rest ∧
    records.Parses ((file.drop start).drop n) rest []

theorem hit_of_clean {file : Bytes} {s : JournalScan} (hs : Scanned file s)
    (clean : s.status = .clean) {off : Nat} (hlow : kJournalHeaderBytes ≤ off)
    (hoff : off < file.length) : ∃ start cs n, Hit file s off start cs n := by
  have hend : file.drop s.validBytes = [] := by
    have hv := hs.verdict
    rw [clean] at hv
    exact readRecord_endOfFile.mp hv
  have hparse := hs.parsed
  rw [hend] at hparse
  obtain ⟨f, q, cs, c, rest, n, hfile, hdel, hf, hq, hrest, hle, hlt⟩ :=
    hparse.locate (k := off - kJournalHeaderBytes) (by rw [List.length_drop]; omega)
  have hstart : file.drop (kJournalHeaderBytes + f.length) = q := by
    rw [← List.drop_drop, hfile, List.drop_left' rfl]
  refine ⟨kJournalHeaderBytes + f.length, cs, n,
    ⟨by omega, by omega, by omega, ?_, c, rest, ?_, hdel, ?_⟩⟩
  · rw [List.drop_take, Nat.add_sub_cancel_left, hfile, List.take_left' rfl]
    exact hf
  · rw [hstart]
    exact (firstRecord_iff.mp hq).readRecord
  · rwa [hstart]

theorem Scanned.eq_of_clean {file : Bytes} {s : JournalScan} (hs : Scanned file s)
    (clean : s.status = .clean) : s = ⟨s.delivered.length, file.length, .clean, s.delivered⟩ := by
  have hend : file.drop s.validBytes = [] := by
    have hv := hs.verdict
    rw [clean] at hv
    exact readRecord_endOfFile.mp hv
  have hlen := congrArg List.length hend
  have hin := hs.inside
  rw [List.length_drop, List.length_nil] at hlen
  rw [← hs.counted, ← clean, show file.length = s.validBytes by omega]

/-- A single flipped bit never changes what is replayed, it only shortens it. -/
theorem flipped_bit_only_shortens (file : Bytes) (s : JournalScan) (fuel : Nat)
    (enough : file.length < fuel) (scan : journalScan fuel file = some (.ok s))
    (clean : s.status = .clean) (off : Nat) (hoff : off < file.length) (bit : Fin 8) :
    (off < kJournalHeaderBytes →
      journalScan fuel (flipBit file off bit) = some (.error "not an exsim journal")) ∧
    (kJournalHeaderBytes ≤ off → ∃ start cs n, Hit file s off start cs n ∧
      (start + 20 ≤ off ∧ off < start + kMetaSize →
        journalScan fuel (flipBit file off bit) = some (.ok s)) ∧
      (¬ (start + 20 ≤ off ∧ off < start + kMetaSize) →
        ∃ t, journalScan fuel (flipBit file off bit) = some (.ok t) ∧ t.delivered = cs ∧
          t.validBytes = start ∧
          (Overrun file start off bit ∧ t.status = .tornTail ∨
            ¬ Overrun file start off bit ∧ t.status = .corrupt))) := by
  have head := header_of_clean scan clean
  have hb : file.getD off 0 ^^^ (1 <<< UInt8.ofNat bit.val) ≠ file.getD off 0 := flipped_ne _ bit
  refine ⟨fun hlow => journalScan_bad_header head hlow hb fuel, fun hlow => ?_⟩
  have hs : Scanned file s := by
    obtain ⟨s', hscan', hs'⟩ := journalScan_total head fuel enough
    rw [scan] at hscan'
    cases hscan'
    exact hs'
  obtain ⟨start, cs, n, hit⟩ := hit_of_clean hs clean hlow hoff
  obtain ⟨c, rest, hread, hdel, hrest⟩ := hit.record
  have hrec := recordAt_of_readRecord hread
  have hhead := hit.header
  have hbefore := hit.before
  have hwithin := hit.within
  have hin := hrec.inside
  rw [List.length_drop] at hin
  have hpos : file.getD off 0 = (file.drop start).getD (off - start) 0 := by
    simp [List.getD, show start + (off - start) = off by omega]
  have hq : (flipBit file off bit).drop start =
      (file.drop start).set (off - start) (file.getD off 0 ^^^ (1 <<< UInt8.ofNat bit.val)) := by
    rw [flipBit, List.drop_set, if_neg (by omega)]
  rw [hpos] at hb hq
  have hfile : flipBit file off bit =
      fileHeader ++ ((file.take start).drop kJournalHeaderBytes ++
        (flipBit file off bit).drop start) := by
    have htake : (flipBit file off bit).take start = file.take start := by
      rw [flipBit, List.take_set, List.set_eq_of_length_le]
      rw [List.length_take]
      omega
    have hfront : fileHeader ++ (file.take start).drop kJournalHeaderBytes = file.take start := by
      have : fileHeader = (file.take start).take kJournalHeaderBytes := by
        rw [List.take_take, Nat.min_eq_left hhead, head]
      rw [this, List.take_append_drop]
    rw [← List.append_assoc, hfront, ← htake, List.take_append_drop]
  have hlen : (flipBit file off bit).length = file.length := by rw [flipBit, List.length_set]
  refine ⟨start, cs, n, hit, ?_, ?_⟩
  · rintro ⟨hres, hmeta⟩
    have hrec' := hrec.set_reserved (k := off - start)
      (b := (file.drop start).getD (off - start) 0 ^^^ (1 <<< UInt8.ofNat bit.val))
        (by omega) (by omega)
    rw [← hq] at hrec'
    have hrest' : records.Parses ((flipBit file off bit).drop start) (c :: rest) [] := by
      refine .frame (firstRecord_iff.mpr hrec') ?_
      rwa [hq, List.drop_set, if_pos (by omega)]
    have hall : records.Parses ((flipBit file off bit).drop kJournalHeaderBytes) s.delivered
        [] := by
      have hf : fileHeader.length = kJournalHeaderBytes := rfl
      rw [hdel, hfile, List.drop_left' hf]
      have := hit.intact.append ((flipBit file off bit).drop start)
      rw [List.nil_append] at this
      exact this.trans hrest'
    have hclean := journalScan_clean (by rw [hfile]; exact List.take_left' rfl) fuel
      (by rw [hlen]; exact enough) hall
    rw [hlen] at hclean
    rw [hclean, ← hs.eq_of_clean clean]
  · intro hres
    have hcut := readRecord_hit hrec (k := off - start) (by omega) (by omega) hb
    rw [← hq, List.length_drop] at hcut
    change readRecord _ = if off - start < 4 ∧
      lenAt file start < lenAt (flipBit file off bit) start ∧
      lenAt (flipBit file off bit) start ≤ kMaxMessageSize ∧
      file.length - start < kMetaSize + lenAt (flipBit file off bit) start then _ else _ at hcut
    have hiff : (off - start < 4 ∧ lenAt file start < lenAt (flipBit file off bit) start ∧
        lenAt (flipBit file off bit) start ≤ kMaxMessageSize ∧
        file.length - start < kMetaSize + lenAt (flipBit file off bit) start) ↔
        Overrun file start off bit := by
      constructor
      · rintro ⟨h₁, h₂, h₃, h₄⟩
        exact ⟨⟨by omega, h₂, by omega⟩, h₃⟩
      · rintro ⟨⟨h₁, h₂, h₄⟩, h₃⟩
        exact ⟨by omega, h₂, h₃, by omega⟩
    have hstart :
        start = kJournalHeaderBytes + ((file.take start).drop kJournalHeaderBytes).length := by
      rw [List.length_drop, List.length_take]
      omega
    by_cases hover : Overrun file start off bit
    · rw [if_pos (hiff.mpr hover)] at hcut
      obtain ⟨t, hscan, hcs, hvalid, hstatus⟩ := journalScan_stops .tornTail hfile
        (by rw [hlen]; exact enough) hit.intact hcut
      exact ⟨t, hscan, hcs, by omega, .inl ⟨hover, hstatus⟩⟩
    · rw [if_neg (fun h => hover (hiff.mp h))] at hcut
      obtain ⟨t, hscan, hcs, hvalid, hstatus⟩ := journalScan_stops .corrupt hfile
        (by rw [hlen]; exact enough) hit.intact hcut
      exact ⟨t, hscan, hcs, by omega, .inr ⟨hover, hstatus⟩⟩

/-- The lowest bit of the last record's length field: the record is one byte longer than the file
has, and the two records before it are delivered. -/
theorem flipped_bit_only_shortens_length :
    journalScan 200 (written session) = some (.ok ⟨3, (written session).length, .clean, session⟩) ∧
      Overrun (written session) 128 128 0 ∧
      ∃ n t, Hit (written session) ⟨3, (written session).length, .clean, session⟩ 128 128
        (session.take 2) n ∧
        journalScan 200 (flipBit (written session) 128 0) = some (.ok t) ∧
        t.delivered = session.take 2 ∧ t.validBytes = 128 ∧ t.status = .tornTail := by
  have hscan := journalScan_written_clean session_journaled 200 (by decide +kernel)
  have hover : Overrun (written session) 128 128 0 := by
    unfold Overrun RunsPast
    decide +kernel
  have hflip : journalScan 200 (flipBit (written session) 128 0) =
      some (.ok ⟨2, 128, .tornTail, session.take 2⟩) := by decide +kernel
  refine ⟨hscan, hover, ?_⟩
  obtain ⟨start, cs, n, hit, hsame, hcut⟩ := (flipped_bit_only_shortens (written session) _ 200
    (by decide +kernel) hscan rfl 128 (by decide +kernel) 0).2 (by decide)
  rw [hflip] at hsame hcut
  obtain ⟨t, ht, hdel, hvalid, hstatus⟩ := hcut fun hres => by cases hsame hres
  cases ht
  obtain rfl : 128 = start := hvalid
  obtain rfl : session.take 2 = cs := hdel
  refine ⟨n, _, hit, hflip, rfl, rfl, ?_⟩
  rcases hstatus with ⟨-, htorn⟩ | ⟨hno, -⟩
  · exact htorn
  · exact absurd hover hno

/-- Running past the end is not enough: the length field of the last record becomes 56, more than a
message can have, and the scan reports corruption. -/
theorem enlarged_length_corrupt :
    journalScan 200 (written session) = some (.ok ⟨3, (written session).length, .clean, session⟩) ∧
      RunsPast (written session) 128 128 4 ∧
      journalScan 200 (flipBit (written session) 128 4) =
        some (.ok ⟨2, 128, .corrupt, session.take 2⟩) := by
  refine ⟨journalScan_written_clean session_journaled 200 (by decide +kernel), ?_, by
    decide +kernel⟩
  unfold RunsPast
  decide +kernel

end ExchangeSim.Journal
