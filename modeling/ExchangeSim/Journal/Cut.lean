/- digest: A journal file cut off anywhere: what is delivered is a prefix of what was appended, and
   the end is never taken for damage. -/

import ExchangeSim.Journal.Recovery

set_option autoImplicit false
set_option relaxedAutoImplicit false

namespace ExchangeSim.Journal

open ExchangeSim.Lib
open ExchangeSim.Wire

theorem journalBytes_append (cs ds : List Command) :
    journalBytes (cs ++ ds) = journalBytes cs ++ journalBytes ds := by
  simp [journalBytes]

theorem written_append (cs ds : List Command) :
    written (cs ++ ds) = written cs ++ journalBytes ds := by
  rw [written_eq, written_eq, journalBytes_append, List.append_assoc]

private theorem readRecord_front {p back : Bytes} {c : Command} {n : Nat}
    (h : records.first (p ++ back) = some (c, n)) (hp : records.first p = none) :
    readRecord p ≠ .corrupt := by
  have hin := records.inside h
  have hlt : p.length < n := by
    by_contra hge
    have htake : (p ++ back).take n = p.take n := List.take_append_of_le_length (Nat.not_lt.mp hge)
    have halone := records.alone h (p.drop n)
    rw [htake, List.take_append_drop, hp] at halone
    cases halone
  by_cases hnil : p = []
  · rw [readRecord_endOfFile.mpr hnil]
    exact Reading.noConfusion
  · have hlen : ((p ++ back).take n).length = n := by
      rw [List.length_take]
      exact Nat.min_eq_left hin
    have hrec : readRecord ((p ++ back).take n) = .record c ((p ++ back).take n).length := by
      have halone := records.alone h []
      rw [List.append_nil] at halone
      rw [hlen]
      exact (firstRecord_iff.mp halone).readRecord
    have hcut := readRecord_cut hrec (List.length_pos_iff.mpr hnil) (by rw [hlen]; exact hlt)
    rw [List.take_take, Nat.min_eq_left (Nat.le_of_lt hlt), List.take_left' rfl] at hcut
    rw [hcut]
    exact Reading.noConfusion

theorem journalScan_cut {cs : List Command} (hcs : ∀ c ∈ cs, Journaled c) {file : Bytes}
    (head : fileHeader <+: file) (cut : file <+: written cs) {fuel : Nat}
    (enough : file.length < fuel) :
    ∃ s, journalScan fuel file = some (.ok s) ∧ Scanned file s ∧ s.delivered <+: cs ∧
    s.status ≠ .corrupt ∧
      file.take s.validBytes = written s.delivered := by
  obtain ⟨body, rfl⟩ := head
  obtain ⟨back, hback⟩ := cut
  have hlen : fileHeader.length = kJournalHeaderBytes := rfl
  obtain ⟨s, hscan, hs⟩ := journalScan_total (List.take_left' hlen) fuel enough
  have hbytes : journalBytes cs = body ++ back := by
    rw [written_eq, List.append_assoc] at hback
    exact (List.append_cancel_left hback).symm
  have hall : records.Parses (body ++ back) cs [] := by
    have hparse := parses_journalBytes cs []
    rwa [List.append_nil, map_recorded hcs, hbytes] at hparse
  have hparsed := hs.parsed
  rw [List.drop_left' hlen] at hparsed
  obtain ⟨more, hmore, hrest⟩ := (hparsed.append back).resume hall rfl
  refine ⟨s, hscan, hs, ⟨more, hmore.symm⟩, ?_, ?_⟩
  · intro hst
    have hv := hs.verdict
    rw [hst] at hv
    have hnone : records.first ((fileHeader ++ body).drop s.validBytes) = none :=
      firstRecord_eq_none .corrupt hv
    generalize hfull : (fileHeader ++ body).drop s.validBytes ++ back = full at hrest
    cases hrest with
    | done =>
        have hend := readRecord_endOfFile.mpr (List.append_eq_nil_iff.mp hfull).1
        rw [hend] at hv
        cases hv
    | frame h rest =>
        rw [← hfull] at h
        exact readRecord_front h hnone hv
  · have hdel : ∀ c ∈ s.delivered, Journaled c :=
      fun c hc => hcs c (by rw [hmore]; exact List.mem_append_left _ hc)
    have hparse := parses_journalBytes s.delivered (journalBytes more)
    rw [map_recorded hdel, ← journalBytes_append, ← hmore, hbytes] at hparse
    have htail : (fileHeader ++ body).drop s.validBytes ++ back = journalBytes more :=
      (hparsed.append back).rest_eq hparse
    have hsplit : written s.delivered ++ ((fileHeader ++ body).drop s.validBytes ++ back) =
        (fileHeader ++ body).take s.validBytes ++
        ((fileHeader ++ body).drop s.validBytes ++ back) := by
      rw [← List.append_assoc (List.take _ _), List.take_append_drop, htail,
        ← written_append, ← hmore, hback]
    exact (List.append_cancel_right hsplit).symm

theorem recover_of_scan {file : Bytes} {fuel : Nat} {s : JournalScan}
    (hscan : journalScan fuel file = some (.ok s)) (hs : Scanned file s) :
    JournalWriter.recover fuel file = some (.ok { file := file.take s.validBytes }) := by
  simp [JournalWriter.recover, hscan, Except.map, Nat.not_lt.mpr hs.header]

theorem Scanned.delivers {file : Bytes} {s : JournalScan} (hs : Scanned file s) {cs : List Command}
    (hcs : ∀ c ∈ cs, Journaled c) (hfront : written cs <+: file) : cs <+: s.delivered := by
  obtain ⟨back, rfl⟩ := hfront
  have hparse := parses_journalBytes cs back
  rw [map_recorded hcs] at hparse
  have hdrop : (written cs ++ back).drop kJournalHeaderBytes = journalBytes cs ++ back := by
    rw [written_eq, List.append_assoc]
    exact List.drop_left' rfl
  rw [← hdrop] at hparse
  obtain ⟨more, hmore, -⟩ := hs.extends hparse
  exact ⟨more, hmore.symm⟩

end ExchangeSim.Journal
