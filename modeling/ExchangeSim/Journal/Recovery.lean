/- digest: Scanning and recovering a journal file with any tail. -/

import ExchangeSim.Journal.Journal

set_option autoImplicit false
set_option relaxedAutoImplicit false

namespace ExchangeSim.Journal

open ExchangeSim.Lib
open ExchangeSim.Wire

theorem readRecord_cut {r : Bytes} {c : Command} (h : readRecord r = .record c r.length) {k : Nat}
    (pos : 0 < k) (cut : k < r.length) : readRecord (r.take k) = .torn := by
  have hrec := recordAt_of_readRecord h
  obtain ⟨d, hd, -⟩ := hrec.decoded
  have hsize := (decode_ok hd).size
  have hlow := kHeaderSize_le_messageSize d.type
  have hhigh := messageSize_le d.type
  have hn := hrec.size
  have hmeta : kMetaSize = 24 := rfl
  unfold readRecord
  by_cases hk : k < kMetaSize
  · have hgot : ((r.take k).take kMetaSize).length = k := by
      rw [List.take_take, List.length_take]
      omega
    simp only [hgot]
    rw [if_neg (by omega), if_pos (by omega)]
  · have hgot : ((r.take k).take kMetaSize).length = kMetaSize := by
      rw [List.take_take, List.length_take]
      omega
    have hread : recordMeta.read (r.take k) = recordMeta.read r := by
      have := recordMeta.read_append (p := r.take k) (by rw [List.length_take]; omega) (r.drop k)
      rwa [List.take_append_drop, eq_comm] at this
    have hpay : (((r.take k).drop kMetaSize).take (recordMeta.read r).len.toNat).length ≠
        (recordMeta.read r).len.toNat := by
      simp only [List.length_take, List.length_drop]
      omega
    simp only [hgot, hread]
    rw [if_neg (by omega), if_neg (by simp), if_neg (by omega), if_pos hpay]

theorem journalScan_written {cs : List Command} (hcs : ∀ c ∈ cs, Journaled c) (tail : Bytes)
    {fuel : Nat} (enough : (written cs ++ tail).length < fuel) :
    ∃ s more, journalScan fuel (written cs ++ tail) = some (.ok s) ∧
      Scanned (written cs ++ tail) s ∧ s.delivered = cs ++ more ∧
      records.Parses tail more ((written cs ++ tail).drop s.validBytes) := by
  have hhead : (written cs ++ tail).take kJournalHeaderBytes = fileHeader := by
    rw [written_eq, List.append_assoc]
    exact List.take_left' rfl
  have hdrop : (written cs ++ tail).drop kJournalHeaderBytes = journalBytes cs ++ tail := by
    rw [written_eq, List.append_assoc]
    exact List.drop_left' rfl
  obtain ⟨s, hscan, hs⟩ := journalScan_total hhead fuel enough
  have hparse := parses_journalBytes cs tail
  rw [map_recorded hcs, ← hdrop] at hparse
  obtain ⟨more, hdel, hmore⟩ := hs.extends hparse
  exact ⟨s, more, hscan, hs, hdel, hmore⟩

theorem journalScan_torn {file r tail rest : Bytes} {s : JournalScan} {more : List Command}
    {c : Command} (hs : Scanned file s) (hmore : records.Parses tail more (file.drop s.validBytes))
    (hr : readRecord r = .record c r.length) (hsplit : r = tail ++ rest) (hne : tail ≠ [])
    (hrest : rest ≠ []) : s.status = .tornTail ∧ more = [] := by
  have hcut : readRecord tail = .torn := by
    have hpos := List.length_pos_iff.mpr hne
    have hpos' := List.length_pos_iff.mpr hrest
    have := readRecord_cut hr (k := tail.length) hpos (by rw [hsplit, List.length_append]; omega)
    rwa [hsplit, List.take_left' rfl] at this
  have hnone : records.first tail = none := firstRecord_eq_none .tornTail hcut
  cases hmore with
  | done =>
      have hv := hs.verdict
      rw [hcut] at hv
      cases hst : s.status <;> rw [hst] at hv
      · cases hv
      · exact ⟨rfl, rfl⟩
      · cases hv
  | frame h _ => simp [h] at hnone

theorem Scanned.take {file : Bytes} {s : JournalScan} (hs : Scanned file s)
    (head : file.take kJournalHeaderBytes = fileHeader) :
    (file.take s.validBytes).take kJournalHeaderBytes = fileHeader ∧
      records.Parses ((file.take s.validBytes).drop kJournalHeaderBytes) s.delivered [] := by
  have hle := hs.header
  have hin := hs.inside
  refine ⟨by rw [List.take_take, Nat.min_eq_left hle, head], ?_⟩
  obtain ⟨f, hf, hparse⟩ := hs.parsed.front
  have hlen : f.length = s.validBytes - kJournalHeaderBytes := by
    have := congrArg List.length hf
    simp only [List.length_drop, List.length_append] at this
    omega
  have hfront : (file.take s.validBytes).drop kJournalHeaderBytes = f := by
    rw [List.drop_take, hf, List.take_left' hlen]
  rwa [hfront]

theorem journalScan_clean {file : Bytes} {cs : List Command}
    (head : file.take kJournalHeaderBytes = fileHeader) (fuel : Nat) (enough : file.length < fuel)
    (parse : records.Parses (file.drop kJournalHeaderBytes) cs []) :
    journalScan fuel file = some (.ok ⟨cs.length, file.length, .clean, cs⟩) := by
  obtain ⟨s, hscan, hs⟩ := journalScan_total head fuel enough
  obtain ⟨hdel, hend⟩ := hs.eq_of_parses parse rfl
  have hv := hs.verdict
  have hin := hs.inside
  rw [hend] at hv
  have hlen := congrArg List.length hend
  rw [List.length_drop, List.length_nil] at hlen
  have hstatus : s.status = .clean := by
    cases hst : s.status with
    | clean => rfl
    | tornTail =>
        rw [hst] at hv
        cases hv
    | corrupt =>
        rw [hst] at hv
        cases hv
  rw [hscan, ← hdel, ← hs.counted, ← hstatus, show file.length = s.validBytes by omega]

theorem journalScan_written_clean {cs : List Command} (hcs : ∀ c ∈ cs, Journaled c) (fuel : Nat)
    (enough : (written cs).length < fuel) :
    journalScan fuel (written cs) = some (.ok ⟨cs.length, (written cs).length, .clean, cs⟩) := by
  have hf : fileHeader.length = kJournalHeaderBytes := rfl
  refine journalScan_clean ?_ fuel enough ?_
  · rw [written_eq]
    exact List.take_left' hf
  · rw [written_eq, List.drop_left' hf]
    simpa [map_recorded hcs] using parses_journalBytes cs []

theorem recover_then_append {file : Bytes} (head : file.take kJournalHeaderBytes = fileHeader)
    {c : Command} (hc : Journaled c) {fuel : Nat}
    (enough : file.length + (recordBytes c).length < fuel) :
    ∃ s w s₁ s₂, journalScan fuel file = some (.ok s) ∧
      JournalWriter.recover fuel file = some (.ok w) ∧ w = { file := file.take s.validBytes } ∧
      journalScan fuel w.file = some (.ok s₁) ∧ s₁.status = .clean ∧ s₁.delivered = s.delivered ∧
      journalScan fuel (w.append c).flush.file = some (.ok s₂) ∧ s₂.status = .clean ∧
      s₂.delivered = s.delivered ++ [c] := by
  obtain ⟨s, hscan, hs⟩ := journalScan_total head fuel (by omega)
  obtain ⟨hhead, hparse⟩ := hs.take head
  have hle := hs.header
  have hlen : (file.take s.validBytes).length ≤ file.length := by rw [List.length_take]; omega
  have hscan₁ := journalScan_clean hhead fuel (by omega) hparse
  have h8 : kJournalHeaderBytes ≤ (file.take s.validBytes).length := by
    have := hs.inside
    rw [List.length_take]
    omega
  have hhead₂ :
      (file.take s.validBytes ++ recordBytes c).take kJournalHeaderBytes = fileHeader := by
    rw [List.take_append_of_le_length h8, hhead]
  have hparse₂ : records.Parses
      ((file.take s.validBytes ++ recordBytes c).drop kJournalHeaderBytes)
          (s.delivered ++ [c]) [] := by
    rw [List.drop_append_of_le_length h8]
    have hone := parses_journalBytes [c] []
    simp only [journalBytes, List.map_cons, List.map_nil, List.flatten_cons, List.flatten_nil,
      List.append_nil, hc.recorded_eq] at hone
    have := hparse.append (recordBytes c)
    rw [List.nil_append] at this
    exact this.trans hone
  have hscan₂ := journalScan_clean hhead₂ fuel (by rw [List.length_append]; omega) hparse₂
  have hrecover : JournalWriter.recover fuel file = some
      (.ok { file := file.take s.validBytes }) := by
    simp [JournalWriter.recover, hscan, Except.map, Nat.not_lt.mpr hle]
  exact ⟨s, _, _, _, hscan, hrecover, rfl, hscan₁, rfl, rfl, hscan₂, rfl, rfl⟩

theorem recover_short {file : Bytes} (short : file.length < kJournalHeaderBytes) (fuel : Nat) :
    JournalWriter.recover fuel file = some (.ok .create) := by
  have hlen : (file.take kJournalHeaderBytes).length ≠ kJournalHeaderBytes := by
    rw [List.length_take]
    omega
  simp only [JournalWriter.recover, journalScan, if_pos hlen]
  rfl

/-- Reading and recovering a journal are total and idempotent. -/
theorem recovery_total_and_idempotent (cs : List Command) (hcs : ∀ c ∈ cs, Journaled c)
    (tail : Bytes) (fuel : Nat) (enough : (written cs ++ tail).length < fuel) :
    (∃ s more, journalScan fuel (written cs ++ tail) = some (.ok s) ∧
      s.delivered = cs ++ more ∧ s.records = s.delivered.length ∧
      s.validBytes ≤ (written cs ++ tail).length ∧
      ∀ r c rest, readRecord r = .record c r.length → r = tail ++ rest → tail ≠ [] → rest ≠ [] →
        s.status = .tornTail ∧ more = []) ∧
    (∀ file c fuel, file.take kJournalHeaderBytes = fileHeader → Journaled c →
      file.length + (recordBytes c).length < fuel →
      ∃ s w s₁ s₂, journalScan fuel file = some (.ok s) ∧
        JournalWriter.recover fuel file = some (.ok w) ∧ w = { file := file.take s.validBytes } ∧
        journalScan fuel w.file = some (.ok s₁) ∧ s₁.status = .clean ∧
        s₁.delivered = s.delivered ∧
        journalScan fuel (w.append c).flush.file = some (.ok s₂) ∧ s₂.status = .clean ∧
        s₂.delivered = s.delivered ++ [c]) ∧
    (∀ file fuel, file.length < kJournalHeaderBytes →
      JournalWriter.recover fuel file = some (.ok .create)) := by
  refine ⟨?_, ?_, fun file fuel short => recover_short short fuel⟩
  · obtain ⟨s, more, hscan, hs, hdel, hmore⟩ := journalScan_written hcs tail enough
    refine ⟨s, more, hscan, hdel, hs.counted, hs.inside, ?_⟩
    intro r c rest hr hsplit hne hrest
    exact journalScan_torn hs hmore hr hsplit hne hrest
  · intro file c fuel head hc enough
    exact recover_then_append head hc enough

theorem journaled_of_recorded {c : Command} (h : recorded c = c) : Journaled c := by
  have hdec := decode_encode c []
  rw [List.append_nil] at hdec
  exact ⟨encode c, carried c, messageSize c.type, hdec, h.symm⟩

def entered : Command :=
  { orderId := 5, price := 110, qty := 3, type := .newOrder, side := .sell, seq := 1, ts := 70,
    owner := 3 }

/-- A new order, a cancel and a modify of two sessions, as the gateway stamps them. -/
def session : List Command :=
  [entered, { orderId := 5, type := .cancel, seq := 2, ts := 77, owner := 3 },
    { orderId := 6, price := 111, qty := 2, type := .modify, seq := 3, ts := 80, owner := 4 }]

theorem session_journaled : ∀ c ∈ session, Journaled c := by
  have hrec : ∀ c ∈ session, recorded c = c := by decide +kernel
  exact fun c hc => journaled_of_recorded (hrec c hc)

/-- The file ends inside a further copy of the first record. -/
theorem recovery_total_and_idempotent_torn :
    (∀ c ∈ session, Journaled c) ∧ (recordBytes entered).length = 72 ∧
      ∃ s more, journalScan 300 (written session ++ (recordBytes entered).take 30) = some (.ok s) ∧
        s.delivered = session ++ more ∧ s.status = .tornTail ∧ more = [] := by
  refine ⟨session_journaled, by decide, ?_⟩
  obtain ⟨s, more, hscan, hdel, -, -, htorn⟩ :=
    (recovery_total_and_idempotent session session_journaled
    ((recordBytes entered).take 30) 300 (by decide +kernel)).1
  have hrec : readRecord (recordBytes entered) =
      .record entered (recordBytes entered).length := by
    have := (recordAt_recordBytes entered []).readRecord
    rwa [List.append_nil, (session_journaled entered List.mem_cons_self).recorded_eq] at this
  obtain ⟨hst, hnone⟩ := htorn _ _ ((recordBytes entered).drop 30) hrec
    (List.take_append_drop 30 _).symm (by decide) (by decide)
  exact ⟨s, more, hscan, hdel, hst, hnone⟩

end ExchangeSim.Journal
