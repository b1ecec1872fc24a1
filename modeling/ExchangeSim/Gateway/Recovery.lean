/- digest: A server that is killed is rebuilt from its journal as it was after some of its commands,
   over any number of servers one after another. -/

import ExchangeSim.Gateway.Server
import ExchangeSim.Gateway.Stored

set_option autoImplicit false
set_option relaxedAutoImplicit false

namespace ExchangeSim.Gateway

open Lib (Bytes)
open Journal (Journaled JournalWriter JournalStatus written written_append journalBytes
    fileHeader journalScan)

/-! ### Numbers -/

/-- The commands carry the numbers from 1 on. -/
def Consecutive (cs : List Command) : Prop := ∀ i c, cs[i]? = some c → c.seq = UInt64.ofNat (i + 1)

theorem Consecutive.concat {cs : List Command} (h : Consecutive cs) {c : Command}
    (hc : c.seq = UInt64.ofNat (cs.length + 1)) :
    Consecutive (cs ++ [c]) := by
  intro i d hd
  by_cases hi : i < cs.length
  · rw [List.getElem?_append_left hi] at hd
    exact h i d hd
  · rw [List.getElem?_append_right (Nat.not_lt.mp hi)] at hd
    obtain ⟨hi0, rfl⟩ : i - cs.length = 0 ∧ c = d := by
      cases hsub : i - cs.length with
      | zero =>
          rw [hsub] at hd
          exact ⟨rfl, Option.some.inj hd⟩
      | succ n =>
          rw [hsub] at hd
          cases hd
    rw [hc]
    congr 2
    omega

theorem Consecutive.front {cs ds : List Command} (h : Consecutive ds)
    (hfront : cs <+: ds) : Consecutive cs := by
  obtain ⟨more, rfl⟩ := hfront
  intro i c hc
  refine h i c ?_
  have hi : i < cs.length := (List.getElem?_eq_some_iff.mp hc).1
  rwa [List.getElem?_append_left hi]

section Servers

/-! ### Replaying a journal -/

variable {G : Type} {desk : Desk G} {fresh : G} {r r' : Recovered G}

namespace Recovered

theorem replay_append (r : Recovered G) (cs ds : List Command) :
    r.replay desk (cs ++ ds) = (r.replay desk cs).bind fun r => r.replay desk ds :=
  List.foldlM_append ..

theorem replay_concat {cs : List Command} (h : r.replay desk cs = some r') {c : Command} {g : G}
    {events : List Event} (hc : desk.process r'.gate c = some (g, events)) :
    ∃ r'', r.replay desk (cs ++ [c]) = some r'' ∧ r''.gate = g ∧
      r''.digest = r'.digest ++ events := by
  obtain ⟨r'', hr'', hg, hd⟩ : ∃ r'', r'.apply desk c = some r'' ∧ r''.gate = g ∧
      r''.digest = r'.digest ++ events := by
    rw [apply, hc]
    exact ⟨_, rfl, rfl, rfl⟩
  refine ⟨r'', ?_, hg, hd⟩
  rw [replay_append, h, Option.bind_some, replay, List.foldlM_cons, hr'']
  rfl

theorem replay_seq {cs : List Command}
    (h : ({ gate := fresh } : Recovered G).replay desk cs = some r) (hcs : Consecutive cs) :
    r.seq = UInt64.ofNat cs.length := by
  rcases List.eq_nil_or_concat cs with rfl | ⟨cs, c, rfl⟩
  · cases h
    rfl
  · rw [List.concat_eq_append] at h hcs ⊢
    rw [replay_append] at h
    obtain ⟨r₀, -, hlast⟩ := Option.bind_eq_some_iff.mp h
    have hseq : r.seq = c.seq := by
      simp only [replay, List.foldlM_cons, List.foldlM_nil, Option.bind_eq_bind,
        Option.bind_eq_some_iff] at hlast
      obtain ⟨r₁, happly, hend⟩ := hlast
      cases hend
      obtain ⟨p, -, rfl⟩ := Option.map_eq_some_iff.mp happly
      rfl
    have hc : (cs ++ [c])[cs.length]? = some c := List.getElem?_concat_length ..
    rw [hseq, hcs cs.length c hc, List.length_append, List.length_singleton]

private theorem le_larger32 (a b : UInt32) : a ≤ (if a < b then b else a) ∧
    b ≤ (if a < b then b else a) := by
  split
  · rename_i h
    exact ⟨UInt32.le_of_lt h, UInt32.le_refl b⟩
  · rename_i h
    exact ⟨UInt32.le_refl a, UInt32.not_lt.mp h⟩

private theorem le_larger64 (a b : UInt64) : a ≤ (if a < b then b else a) ∧
    b ≤ (if a < b then b else a) := by
  split
  · rename_i h
    exact ⟨UInt64.le_of_lt h, UInt64.le_refl b⟩
  · rename_i h
    exact ⟨UInt64.le_refl a, UInt64.not_lt.mp h⟩

theorem replay_max {cs : List Command} (h : r.replay desk cs = some r') :
    (r.maxOwner ≤ r'.maxOwner ∧ r.maxOrderId ≤ r'.maxOrderId) ∧
      ∀ c ∈ cs, c.owner ≤ r'.maxOwner ∧ c.orderId ≤ r'.maxOrderId := by
  induction cs generalizing r with
  | nil =>
      cases h
      exact ⟨⟨UInt32.le_refl _, UInt64.le_refl _⟩, by simp⟩
  | cons c cs ih =>
      rw [replay, List.foldlM_cons] at h
      obtain ⟨r₁, happly, hrest⟩ := Option.bind_eq_some_iff.mp h
      obtain ⟨p, -, rfl⟩ := Option.map_eq_some_iff.mp happly
      obtain ⟨hmono, hall⟩ := ih hrest
      obtain ⟨hold, hnew⟩ := le_larger32 r.maxOwner c.owner
      obtain ⟨hold', hnew'⟩ := le_larger64 r.maxOrderId c.orderId
      refine ⟨⟨UInt32.le_trans hold hmono.1, UInt64.le_trans hold' hmono.2⟩, fun d hd => ?_⟩
      rcases List.mem_cons.mp hd with rfl | hd
      · exact ⟨UInt32.le_trans hnew hmono.1, UInt64.le_trans hnew' hmono.2⟩
      · exact hall d hd

end Recovered

/-! ### What the loop keeps in the journal -/

def Action.processed : Action → List Command
  | .process _ c _ => [c]
  | _ => []

/-- The commands that the engine has been given. -/
def processed (log : List Action) : List Command := log.flatMap Action.processed

theorem processed_append (log more : List Action) :
    processed (log ++ more) = processed log ++ processed more :=
  List.flatMap_append

theorem processed_untold {acts : List Action} (h : ∀ a ∈ acts, a.told = false) :
    processed acts = [] := by
  refine List.flatMap_eq_nil_iff.mpr fun a ha => ?_
  have hno := h a ha
  cases a <;> first | rfl | cases hno

variable {cfg : GatewayConfig} {s s' : State G} {old : List Command} {extra : Option Command}

/-- The commands of the journal: those from before, those that have been processed, and one more
that has been taken up. -/
def taken (old : List Command) (s : State G) (extra : Option Command) : List Command :=
  old ++ processed s.log ++ extra.toList

structure Journaling (desk : Desk G) (fresh : G) (old : List Command) (s : State G)
    (extra : Option Command) : Prop where
  sound : ∀ c ∈ taken old s extra, Journaled c
  consecutive : Consecutive (taken old s extra)
  stored : s.stored <+: written (taken old s extra)
  whole : s.repl.journalFailed = false → s.stored = written (taken old s extra)
  covered : written (old ++ (record s.log).covered) <+: s.repl.journal.file
  appended : (record s.log).appended <+: processed s.log ++ extra.toList
  every : s.repl.journalFailed = false → (record s.log).appended = processed s.log ++ extra.toList
  replayed : ∃ r, ({ gate := fresh } : Recovered G).replay desk (old ++ processed s.log) = some r ∧
    r.gate = s.core.gate ∧
    r.digest = s.core.digest
  next : s.repl.journalFailed = false → s.pc ≠ .crashed → s.core.seq = UInt64.ofNat
    (taken old s extra).length
  pending : s.pc.command? ≠ none → s.repl.journalFailed = false ∧ extra = s.pc.command?
  free : s.repl.journalFailed = false → s.pc ≠ .crashed → extra = s.pc.command?

theorem Stores.ok (h : Stores s s') (hok : s'.repl.journalFailed = false) :
    s.repl.journalFailed = false := by
  cases hf : s.repl.journalFailed with
  | false => rfl
  | true =>
      rw [h.failed hf] at hok
      cases hok

theorem Journaling.covers (h : Journaling desk fresh old s extra) (hst : Stores s s') :
    written (old ++ (record s'.log).covered) <+: s'.repl.journal.file := by
  rcases hst.covered with hsame | ⟨hok, hcov, hfile⟩
  · rw [hsame]
    exact h.covered.trans hst.file
  · rw [hcov]
    refine List.IsPrefix.trans ?_ hfile
    obtain ⟨more, hmore⟩ := h.appended
    rw [h.whole hok, taken, List.append_assoc, ← hmore, ← List.append_assoc,
      written_append (old ++ _)]
    exact List.prefix_append _ _

theorem Journaling.keep (h : Journaling desk fresh old s extra) (hst : Stores s s')
    (hproc : processed s'.log = processed s.log) (hcore : s'.core = s.core)
    (hcmd : s'.pc.command? = none)
    (hpc : s'.pc ≠ .crashed → s.pc ≠ .crashed ∧ s.pc.command? = none) :
    Journaling desk fresh old s' extra := by
  have htaken : taken old s' extra = taken old s extra := by rw [taken, taken, hproc]
  refine ⟨?_, ?_, ?_, ?_, h.covers hst, ?_, ?_, ?_, ?_, fun hno => absurd hcmd hno, ?_⟩
  · rw [htaken]
    exact h.sound
  · rw [htaken]
    exact h.consecutive
  · rw [htaken, hst.stored]
    exact h.stored
  · rw [htaken, hst.stored]
    exact fun hok => h.whole (hst.ok hok)
  · rw [hst.appended, hproc]
    exact h.appended
  · rw [hst.appended, hproc]
    exact fun hok => h.every (hst.ok hok)
  · rw [hproc, hcore]
    exact h.replayed
  · rw [htaken, hcore]
    exact fun hok hgo => h.next (hst.ok hok) (hpc hgo).1
  · intro hok hgo
    rw [hcmd, h.free (hst.ok hok) (hpc hgo).1, (hpc hgo).2]

theorem deliver_core (cfg : GatewayConfig) (desk : Desk G) (s : State G) (fd : Fd)
    (clientSeq : UInt64) (clientId : OrderId) (c : Command) (g : G) (events : List Event) :
    (deliver cfg desk s fd clientSeq clientId c g events).core.gate = g ∧
      (deliver cfg desk s fd clientSeq clientId c g events).core.seq = s.core.seq ∧
      (deliver cfg desk s fd clientSeq clientId c g events).core.digest =
      s.core.digest ++ events := by
  have hdigest : ∀ (k : Sink) (w : Written),
      (events.foldl k.onEvent w).digest = w.digest ++ events := by
    intro k
    induction events with
    | nil => exact fun w => (List.append_nil _).symm
    | cons e events ih =>
        intro w
        have hone : (k.onEvent w e).digest = w.digest ++ [e] := by
          simp only [Sink.onEvent]
          split
          · rfl
          · split <;> rfl
        rw [List.foldl_cons, ih, hone, List.append_assoc, List.singleton_append]
  exact ⟨rfl, rfl, hdigest _ _⟩

theorem Journaling.handle (cfg : GatewayConfig) (h : Journaling desk fresh old s extra) {fd : Fd}
    {off : Nat} {clientSeq : UInt64} {clientId : OrderId} {c : Command} {rest : List Ready}
    (hpc : s.pc = .logged fd off clientSeq clientId c rest) (i : Input) :
    processed (Gateway.handle cfg desk s fd off clientSeq clientId c rest i).log = processed s.log ∧
        Journaling desk fresh old (Gateway.handle cfg desk s fd off clientSeq clientId c rest i)
          extra ∨
      processed (Gateway.handle cfg desk s fd off clientSeq clientId c rest i).log =
      processed s.log ++ [c] ∧
        Journaling desk fresh old (Gateway.handle cfg desk s fd off clientSeq clientId c rest i)
          none := by
  have hst := stores_handle cfg desk s fd off clientSeq clientId c rest i
  have hcmd : (Gateway.handle cfg desk s fd off clientSeq clientId c rest i).pc.command? = none :=
    handle_command desk s fd off clientSeq clientId c rest i
  obtain ⟨hok, hextra⟩ := h.pending (by rw [hpc]; exact Option.some_ne_none c)
  have hextra : extra = some c := by
    rw [hextra, hpc]
    rfl
  subst hextra
  rcases (handle_cases desk s fd off clientSeq clientId c rest i :
      (Gateway.handle cfg desk s fd off clientSeq clientId c rest i).pc = .crashed ∧ _ ∨ _) with
    ⟨hcrash, hidle⟩ | ⟨pub, g, events, hrun, hidle⟩
  · left
    obtain ⟨acts, hlogs, hacts⟩ := hidle.log
    have hproc :
        processed (Gateway.handle cfg desk s fd off clientSeq clientId c rest i).log =
        processed s.log := by
      rw [hlogs.1, processed_append, processed_untold hacts, List.append_nil]
    exact ⟨hproc, h.keep hst hproc hidle.core hcmd fun hgo => absurd hcrash hgo⟩
  · right
    obtain ⟨acts, hlogs, hacts⟩ := hidle.log
    obtain ⟨hgate, hseq, hdigest⟩ :=
      deliver_core cfg desk { s with repl.pub := pub } fd clientSeq clientId c g events
    rw [← hidle.core] at hgate hseq hdigest
    have hproc : processed (Gateway.handle cfg desk s fd off clientSeq clientId c rest i).log =
        processed s.log ++ [c] := by
      have hdeliver :
        (deliver cfg desk { s with repl.pub := pub } fd clientSeq clientId c g events).log =
          s.log ++ [.process fd c events] := rfl
      rw [hlogs.1, processed_append, processed_untold hacts, List.append_nil, hdeliver,
        processed_append]
      rfl
    generalize Gateway.handle cfg desk s fd off clientSeq clientId c rest i = s' at *
    have htaken : taken old s' none = taken old s (some c) := by
      rw [taken, taken, hproc]
      simp
    refine ⟨hproc, ?_, ?_, ?_, ?_, h.covers hst, ?_, ?_, ?_, ?_, fun hno => absurd hcmd hno,
      fun _ _ => hcmd.symm⟩
    · rw [htaken]
      exact h.sound
    · rw [htaken]
      exact h.consecutive
    · rw [htaken, hst.stored]
      exact h.stored
    · rw [htaken, hst.stored]
      exact fun hok => h.whole (hst.ok hok)
    · rw [hst.appended, hproc]
      simpa using h.appended
    · rw [hst.appended, hproc]
      simpa using fun _ => h.every hok
    · obtain ⟨r, hr, hg, hd⟩ := h.replayed
      have hrun : desk.process r.gate c = some (g, events) := by
        rw [hg]
        exact hrun
      obtain ⟨r', hr', hg', hd'⟩ := Recovered.replay_concat hr hrun
      refine ⟨r', ?_, hg'.trans hgate.symm, ?_⟩
      · rw [hproc, ← List.append_assoc]
        exact hr'
      · rw [hd', hd, hdigest]
    · rw [htaken]
      intro _ _
      rw [hseq]
      exact h.next hok (by rw [hpc]; exact Pc.noConfusion)

theorem journaled_stamped {p : Bytes} {d : Command} {n : Nat} (h : Wire.decode p = .ok d n)
    (x : OrderId) (seq : UInt64) (owner : OwnerId) (ts : UInt64) :
    Journaled { d with orderId := x, seq := seq, owner := owner, ts := ts } := by
  have hplain := (Wire.decode_ok h).plain
  generalize hc : ({ d with orderId := x, seq := seq, owner := owner, ts := ts } : Command) = c
  have hdec := Wire.decode_encode c []
  rw [List.append_nil] at hdec
  refine ⟨_, _, _, hdec, ?_⟩
  subst hc
  unfold Wire.carried at hplain ⊢
  cases hty : d.type with
  | newOrder => rfl
  | cancel =>
      rw [hty] at hplain
      rw [← hplain]
  | modify =>
      rw [hty] at hplain
      rw [← hplain]

theorem Journaling.take (h : Journaling desk fresh old s none) (hok : s.repl.journalFailed = false)
    (hgo : s.pc ≠ .crashed) {cmd : Command} (hcmd : Journaled cmd)
    (hnumber : cmd.seq = s.core.seq + 1) (hproc : processed s'.log = processed s.log)
    (hgate : s'.core.gate = s.core.gate) (hdigest : s'.core.digest = s.core.digest)
    (hseq : s'.core.seq = s.core.seq + 1) (hfile : s'.repl.journal.file = s.repl.journal.file)
    (hcov : (record s'.log).covered = (record s.log).covered)
    (happ : (record s'.log).appended <+: (record s.log).appended ++ [cmd])
    (hstored : s'.stored <+: s.stored ++ Journal.recordBytes cmd)
    (hwhole : s'.repl.journalFailed = false → s'.stored = s.stored ++ Journal.recordBytes cmd ∧
      (record s'.log).appended = (record s.log).appended ++ [cmd] ∧ s'.pc.command? = some cmd)
    (hfailed : s'.repl.journalFailed = true → s'.pc.command? = none) :
    Journaling desk fresh old s' (some cmd) := by
  have htaken : taken old s' (some cmd) = taken old s none ++ [cmd] := by
    rw [taken, taken, hproc]
    simp
  have hlength : s.core.seq + 1 = UInt64.ofNat ((taken old s none).length + 1) := by
    rw [h.next hok hgo]
    simp
  have hbytes : s.stored ++ Journal.recordBytes cmd = written (taken old s none ++ [cmd]) := by
    rw [h.whole hok, written_append]
    simp [journalBytes]
  have hevery : (record s.log).appended = processed s.log := by
    rw [h.every hok]
    exact List.append_nil _
  rw [hbytes] at hstored hwhole
  rw [hevery] at happ hwhole
  refine ⟨?_, ?_, ?_, ?_, ?_, ?_, ?_, ?_, ?_, ?_, ?_⟩
  · rw [htaken]
    intro d hd
    rcases List.mem_append.mp hd with hd | hd
    · exact h.sound d hd
    · rwa [List.mem_singleton.mp hd]
  · rw [htaken]
    exact h.consecutive.concat (hnumber.trans hlength)
  · rwa [htaken]
  · rw [htaken]
    exact fun hok' => (hwhole hok').1
  · rw [hcov, hfile]
    exact h.covered
  · rwa [hproc]
  · rw [hproc]
    exact fun hok' => (hwhole hok').2.1
  · rw [hproc, hgate, hdigest]
    exact h.replayed
  · rw [htaken, hseq, hlength, List.length_append, List.length_singleton]
    exact fun _ _ => rfl
  · intro hsome
    cases hf : s'.repl.journalFailed with
    | false => exact ⟨rfl, (hwhole hf).2.2.symm⟩
    | true => exact absurd (hfailed hf) hsome
  · exact fun hok' _ => (hwhole hok').2.2.symm

theorem Journaling.stamp (cfg : GatewayConfig) (h : Journaling desk fresh old s extra) {fd : Fd}
    {off : Nat} {rest : List Ready} (hpc : s.pc = .reading fd off rest) (owner : OwnerId)
    {p : Bytes} {c : Command} {n : Nat} (hc : Wire.decode p = .ok c n) (off' : Nat) (i : Input) :
    ∃ extra', Journaling desk fresh old (Gateway.stamp cfg s fd owner off' c rest i) extra' ∧
      processed (Gateway.stamp cfg s fd owner off' c rest i).log = processed s.log := by
  have hgo : s.pc ≠ .crashed := by
    rw [hpc]
    exact Pc.noConfusion
  simp only [Gateway.stamp]
  generalize (if cfg.trustClientIds = true then (s.core.ids, c.orderId)
    else if c.type = .newOrder then s.core.ids.forNew ⟨c.orderId, c.symbol, owner⟩
    else (s.core.ids, s.core.ids.find ⟨c.orderId, c.symbol, owner⟩)) = t
  have hsound := journaled_stamped hc t.2 (s.core.seq + 1) owner i.now
  have hnumber :
    ({ c with orderId := t.2, seq := s.core.seq + 1, owner := owner, ts := i.now } : Command).seq =
    s.core.seq + 1 := rfl
  generalize ({ c with orderId := t.2, seq := s.core.seq + 1, owner := owner, ts := i.now } :
    Command) = cmd at hsound hnumber ⊢
  split
  · -- The journal had failed before: nothing is stored.
    rename_i hf
    have hno : ¬ s.repl.journalFailed = false := by simp [hf]
    exact ⟨extra, ⟨h.sound, h.consecutive, h.stored, h.whole, h.covered, h.appended,
      h.every, h.replayed,
      fun hok => absurd hok hno, fun hcmd => absurd rfl hcmd, fun hok => absurd hok hno⟩, rfl⟩
  · rename_i hok
    have hok : s.repl.journalFailed = false := Bool.eq_false_iff.mpr hok
    have hextra : extra = none := by
      rw [h.free hok hgo, hpc]
      rfl
    subst hextra
    have hsame : ∀ a : Action, a.processed = [] → processed (s.log ++ [a]) = processed s.log := by
      intro a ha
      rw [processed_append]
      change _ ++ [a].flatMap Action.processed = _
      rw [List.flatMap_singleton, ha, List.append_nil]
    cases i.append with
    | none =>
        have hrec := record_snoc s.log (.append cmd)
        have hcov : (record (s.log ++ [.append cmd])).covered = (record s.log).covered := by
          rw [hrec]
          rfl
        have happ : (record (s.log ++ [.append cmd])).appended = (record s.log).appended ++ [cmd] :=
          (congrArg Record.appended hrec).trans (List.append_assoc ..).symm
        have hbytes : s.repl.journal.file ++ (s.repl.journal.buffer ++ Journal.recordBytes cmd) =
            s.stored ++ Journal.recordBytes cmd := (List.append_assoc ..).symm
        refine ⟨some cmd, h.take hok hgo hsound hnumber (hsame (.append cmd) rfl) rfl
          rfl rfl rfl hcov
          (happ ▸ List.prefix_rfl) (hbytes ▸ List.prefix_rfl)
            (fun _ => ⟨hbytes, happ, rfl⟩) fun hf => ?_,
          hsame (.append cmd) rfl⟩
        exact absurd (hok.symm.trans hf) Bool.false_ne_true
    | some k =>
        have hrec := record_snoc s.log (.halt .journalError)
        have hcov : (record (s.log ++ [.halt .journalError])).covered = (record s.log).covered := by
          rw [hrec]
          rfl
        have hbytes :
          s.repl.journal.file ++ (s.repl.journal.buffer ++ (Journal.recordBytes cmd).take k) <+:
            s.stored ++ Journal.recordBytes cmd := by
          rw [← List.append_assoc]
          exact (List.prefix_append_right_inj _).mpr (List.take_prefix k _)
        have happ : (record (s.log ++ [.halt .journalError])).appended <+:
            (record s.log).appended ++ [cmd] := by
          rw [hrec]
          exact List.prefix_append _ _
        refine ⟨some cmd, h.take hok hgo hsound hnumber
          (hsame (.halt .journalError) rfl) rfl rfl rfl rfl
          hcov happ hbytes (fun hf => ?_) fun _ => rfl, hsame (.halt .journalError) rfl⟩
        exact absurd hf.symm Bool.false_ne_true

theorem Journaling.step (cfg : GatewayConfig) (h : Journaling desk fresh old s extra) (i : Input) :
    ∃ extra', Journaling desk fresh old (Gateway.step cfg desk s i) extra' ∧
      (processed (Gateway.step cfg desk s i).log = processed s.log ∨
        ∃ c, processed (Gateway.step cfg desk s i).log = processed s.log ++ [c]) := by
  by_cases hcmd : s.pc.command? = none
  · have hread : ∀ fd off rest (c : Conn) cmd n, s.pc = .reading fd off rest →
      Wire.next c.inp off = .command cmd n →
        Gateway.step cfg desk s i = Gateway.stamp cfg s fd c.owner (off + n) cmd rest i →
        ∃ extra', Journaling desk fresh old (Gateway.step cfg desk s i) extra' ∧
          (processed (Gateway.step cfg desk s i).log = processed s.log ∨
            ∃ c, processed (Gateway.step cfg desk s i).log = processed s.log ++ [c]) := by
      intro fd off rest c cmd n hpc hnext heq
      have hdec : Wire.decode (c.inp.drop off) = .ok cmd n := by
        rw [Wire.decode_eq_next, hnext]
        rfl
      obtain ⟨extra', hj, hproc⟩ := h.stamp cfg hpc c.owner hdec (off + n) i
      rw [heq]
      exact ⟨extra', hj, .inl hproc⟩
    rcases step_stores cfg desk s i with hst | ⟨fd, off, rest, c, cmd, n, hpc, -, hnext, heq⟩
    rotate_left
    · exact hread fd off rest c cmd n hpc hnext heq
    rcases (step_command desk s i : (Gateway.step cfg desk s i).pc.command? = none ∨ _) with hnone |
      ⟨fd, off, rest, c, cmd, n, hpc, -, hnext, heq⟩
    rotate_left
    · exact hread fd off rest c cmd n hpc hnext heq
    have hgo : (Gateway.step cfg desk s i).pc ≠ .crashed → s.pc ≠ .crashed ∧
        s.pc.command? = none := by
      refine fun hgo => ⟨fun hpc => hgo ?_, hcmd⟩
      rw [Gateway.step, hpc]
      exact hpc
    rcases (step_cases desk s i : Idle s (Gateway.step cfg desk s i) ∨ _) with hidle |
      ⟨fd, off, rest, c, cmd, n, hpc, -, hnext, heq⟩ |
      ⟨fd, off, clientSeq, clientId, c, rest, hpc, -⟩ | ⟨-, hpub⟩
    · obtain ⟨acts, hlogs, hacts⟩ := hidle.log
      have hproc : processed (Gateway.step cfg desk s i).log = processed s.log := by
        rw [hlogs.1, processed_append, processed_untold hacts, List.append_nil]
      exact ⟨extra, h.keep hst hproc hidle.core hnone hgo, .inl hproc⟩
    · exact hread fd off rest c cmd n hpc hnext heq
    · rw [hpc] at hcmd
      cases hcmd
    · obtain ⟨before, after, hlogs, hbefore, hafter⟩ := hpub.log
      have hproc : processed (Gateway.step cfg desk s i).log = processed s.log := by
        rw [hlogs.1, processed_append, processed_append, processed_untold hbefore, List.nil_append]
        exact (congrArg (_ ++ ·) (processed_untold hafter)).trans (List.append_nil _)
      exact ⟨extra, h.keep hst hproc hpub.core hnone hgo, .inl hproc⟩
  · cases hpc : s.pc with
    | logged fd off clientSeq clientId c rest =>
        have hstep :
            Gateway.step cfg desk s i = Gateway.handle cfg desk s fd off clientSeq
              clientId c rest i := by
          rw [Gateway.step, hpc]
        rw [hstep]
        rcases h.handle cfg hpc i with ⟨hproc, hj⟩ | ⟨hproc, hj⟩
        · exact ⟨extra, hj, .inl hproc⟩
        · exact ⟨none, hj, .inr ⟨c, hproc⟩⟩
    | poll | batch | reading | waiting | expiring | release | shutdown | stopped | crashed =>
        rw [hpc] at hcmd
        exact absurd rfl hcmd

theorem Journaling.run (cfg : GatewayConfig) (h : Journaling desk fresh old s extra)
    (is : List Input) :
    ∃ extra', Journaling desk fresh old (Gateway.run cfg desk s is) extra' := by
  induction is generalizing s extra with
  | nil => exact ⟨extra, h⟩
  | cons i is ih =>
      obtain ⟨extra', hj, -⟩ := h.step cfg i
      exact ih hj

theorem Journaling.reached (cfg : GatewayConfig) (h : Journaling desk fresh old s extra)
    (is : List Input) {n : Nat} (hlow : (processed s.log).length ≤ n)
    (hhigh : n ≤ (processed (Gateway.run cfg desk s is).log).length) :
    ∃ pre, pre <+: is ∧ processed (Gateway.run cfg desk s pre).log =
    (processed (Gateway.run cfg desk s is).log).take n := by
  induction is using List.reverseRecOn with
  | nil =>
      have hn : n = (processed s.log).length := Nat.le_antisymm hhigh hlow
      exact ⟨[], List.prefix_rfl, by rw [hn]; exact List.take_length.symm⟩
  | append_singleton is i ih =>
      obtain ⟨extra', hj⟩ := h.run cfg is
      obtain ⟨-, -, hproc⟩ := hj.step cfg i
      have hrun : Gateway.run cfg desk s (is ++ [i]) = Gateway.step cfg desk
          (Gateway.run cfg desk s is) i := by
        simp [Gateway.run]
      rw [← hrun] at hproc
      by_cases hn : n ≤ (processed (Gateway.run cfg desk s is).log).length
      · obtain ⟨pre, hpre, hlog⟩ := ih hn
        refine ⟨pre, hpre.trans (List.prefix_append is [i]), hlog.trans ?_⟩
        rcases hproc with hsame | ⟨c, hmore⟩
        · rw [hsame]
        · rw [hmore, List.take_append_of_le_length hn]
      · refine ⟨is ++ [i], List.prefix_rfl, (List.take_of_length_le ?_).symm⟩
        rcases hproc with hsame | ⟨c, hmore⟩
        · rw [hsame]
          exact Nat.le_of_lt (Nat.not_le.mp hn)
        · rw [hmore, List.length_append, List.length_singleton]
          exact Nat.not_le.mp hn

/-! ### Servers one after another -/

/-- The file is the front of a journal with consecutive numbers. -/
def Sane (file : Bytes) : Prop :=
  ∃ cs, (∀ c ∈ cs, Journaled c) ∧ Consecutive cs ∧ fileHeader <+: file ∧ file <+: written cs

theorem server_some (desk : Desk G) (fresh : G) {file : Bytes} (h : Sane file) (cfg : ServerConfig)
    (hrecover : cfg.recover = true) :
    ∃ scan, journalScan (file.length + 1) file = some (.ok scan) ∧ scan.status ≠ .corrupt ∧
      (∀ c ∈ scan.delivered, Journaled c) ∧ Consecutive scan.delivered ∧
      written scan.delivered <+: file ∧
      (∀ cs, (∀ c ∈ cs, Journaled c) → file <+: written cs → scan.delivered <+: cs) ∧
      (∀ cs, (∀ c ∈ cs, Journaled c) → written cs <+: file → cs <+: scan.delivered) ∧
      server desk fresh cfg (some file) =
      (({ gate := fresh } : Recovered G).replay desk scan.delivered).map fun r =>
        .ok (r.serve cfg { file := written scan.delivered }) := by
  obtain ⟨cs, hcs, hnum, hhead, hcut⟩ := h
  obtain ⟨scan, hscan, hs, hdel, hstatus, htake⟩ :=
    Journal.journalScan_cut hcs hhead hcut (Nat.lt_succ_self _)
  refine ⟨scan, hscan, hstatus, fun c hc => hcs c (hdel.subset hc), hnum.front hdel, ?_, ?_,
      fun ds hds hfront =>
    hs.delivers hds hfront, ?_⟩
  · rw [← htake]
    exact List.take_prefix _ _
  · intro ds hds hcut'
    obtain ⟨scan', hscan', -, hdel', -⟩ :=
      Journal.journalScan_cut hds hhead hcut' (Nat.lt_succ_self _)
    obtain rfl : scan = scan' := by simpa using hscan.symm.trans hscan'
    exact hdel'
  · rw [server, if_neg (by simp [hrecover]), hscan, Journal.recover_of_scan hscan hs, htake]
    dsimp only
    cases ({ gate := fresh } : Recovered G).replay desk scan.delivered <;> rfl

theorem Journaling.start {r : Recovered G} (cfg : ServerConfig) (hsound : ∀ c ∈ old, Journaled c)
    (hnum : Consecutive old) (hreplay : ({ gate := fresh } : Recovered G).replay
      desk old = some r) :
    Journaling desk fresh old (r.serve cfg { file := written old }) none := by
  have htaken : taken old (r.serve cfg { file := written old }) none = old := by
    rw [taken]
    exact (List.append_nil _).trans (List.append_nil _)
  have hstored : (r.serve cfg { file := written old }).stored = written old := List.append_nil _
  refine ⟨by rwa [htaken], by rwa [htaken], by rw [htaken, hstored],
    fun _ => by rw [htaken, hstored], ?_, List.prefix_rfl,
    fun _ => rfl, ⟨r, ?_, rfl, rfl⟩, ?_, fun hno => absurd rfl hno, fun _ _ => rfl⟩
  · change written (old ++ []) <+: written old
    rw [List.append_nil]
  · exact (congrArg _ (List.append_nil old)).trans hreplay
  · rw [htaken]
    exact fun _ _ => Recovered.replay_seq hreplay hnum

theorem Journaling.sane (h : Journaling desk fresh old s extra) (k : Nat) : Sane (s.remains k) := by
  have hfile : s.repl.journal.file <+: s.remains k := List.prefix_append _ _
  have hstored : s.remains k <+: s.stored :=
    (List.prefix_append_right_inj _).mpr (List.take_prefix k _)
  refine ⟨taken old s extra, h.sound, h.consecutive, ?_, hstored.trans h.stored⟩
  refine List.IsPrefix.trans ?_ (h.covered.trans hfile)
  rw [Journal.written_eq]
  exact List.prefix_append _ _

theorem server_serves {file : Option Bytes} (h : ∀ f ∈ file, Sane f) {cfg : ServerConfig}
    (started : server desk fresh cfg file = some (.ok s)) : ∃ old r, (∀ c ∈ old, Journaled c) ∧
    Consecutive old ∧
      ({ gate := fresh } : Recovered G).replay desk old = some r ∧
      s = r.serve cfg { file := written old } := by
  have hcreated : some (.ok (({ gate := fresh } : Recovered G).serve cfg .create)) =
      (some (.ok s) : Option (Except String (State G))) → ∃ old r, (∀ c ∈ old, Journaled c) ∧
      Consecutive old ∧
      ({ gate := fresh } : Recovered G).replay desk old = some r ∧
      s = r.serve cfg { file := written old } := by
    intro heq
    obtain rfl := Except.ok.inj (Option.some.inj heq)
    exact ⟨[], { gate := fresh }, by simp, by rintro i c ⟨⟩, rfl, rfl⟩
  cases file with
  | none => exact hcreated started
  | some file =>
      by_cases hrecover : cfg.recover = true
      · obtain ⟨scan, -, -, hsound, hnum, -, -, -, heq⟩ :=
          server_some desk fresh (h file rfl) cfg hrecover
        rw [heq] at started
        obtain ⟨r, hreplay, hr⟩ := Option.map_eq_some_iff.mp started
        exact ⟨scan.delivered, r, hsound, hnum, hreplay, (Except.ok.inj hr).symm⟩
      · rw [server, if_pos hrecover] at started
        exact hcreated started

theorem Remains.sane {file : Option Bytes} (h : Remains desk fresh file) : ∀ f ∈ file, Sane f := by
  induction h with
  | none => rintro f ⟨⟩
  | killed before started is k ih =>
      obtain ⟨old, r, hsound, hnum, hreplay, rfl⟩ := server_serves ih started
      obtain ⟨extra, hj⟩ := (Journaling.start _ hsound hnum hreplay).run _ is
      intro f hf
      obtain rfl := Option.some.inj hf
      exact hj.sane k

/-- Where a server stands that recovers `kept`: where a run stood that had processed this, or where
it would have stood after one more command. -/
structure Resumes (desk : Desk G) (cfg : GatewayConfig) (s : State G) (is : List Input)
    (kept : List Command) (s' : State G) :
    Prop where
  within : kept <+: processed (Gateway.run cfg desk s is).log → ∃ pre, pre <+: is ∧
    processed (Gateway.run cfg desk s pre).log = kept ∧
    s'.core.gate = (Gateway.run cfg desk s pre).core.gate ∧
    s'.core.digest = (Gateway.run cfg desk s pre).core.digest
  beyond : ∀ c, kept = processed (Gateway.run cfg desk s is).log ++ [c] → ∃ events,
    desk.process (Gateway.run cfg desk s is).core.gate c = some (s'.core.gate, events) ∧
    s'.core.digest = (Gateway.run cfg desk s is).core.digest ++ events

/-- What is left of a server that is killed after the inputs `is`, with the first `k` bytes of what
was not flushed: the journal holds `old`, from which the server started, and then `kept`. -/
structure AfterKill (desk : Desk G) (fresh : G) (cfg : GatewayConfig) (old : List Command)
    (s : State G) (is : List Input) (k : Nat) (scan : Journal.JournalScan) (kept : List Command) :
    Prop where
  scanned : journalScan (((Gateway.run cfg desk s is).remains k).length + 1)
    ((Gateway.run cfg desk s is).remains k) = some (.ok scan)
  sound : scan.status ≠ .corrupt
  delivered : scan.delivered = old ++ kept
  consecutive : Consecutive scan.delivered
  covered : (record (Gateway.run cfg desk s is).log).covered <+: kept
  /-- At most one command was taken up and not processed. -/
  taken : ∃ extra : Option Command,
    kept <+: processed (Gateway.run cfg desk s is).log ++ extra.toList ∧
    ((Gateway.run cfg desk s is).repl.journalFailed = false →
      (record (Gateway.run cfg desk s is).log).appended =
        processed (Gateway.run cfg desk s is).log ++ extra.toList)
  resumes : ∀ cfg' : ServerConfig, cfg'.recover = true → ∃ s',
    server desk fresh cfg' (some ((Gateway.run cfg desk s is).remains k)) = some (.ok s') ∧
      s'.repl.journal = { file := written scan.delivered } ∧
      s'.core.seq = UInt64.ofNat scan.delivered.length ∧
      Resumes desk cfg s is kept s'

end Servers

section Exact

open Book (OrderBook StoreLayout IndexHash)
open Engine (RiskGate MatchingEngine RiskConfig)

variable {σ : Type} [StoreLayout σ] {numSymbols : UInt32} {bookCfg : BookConfig} {risk : RiskConfig}

theorem replay_total {books : SymbolId → Book.PriorityBook} (ok : bookCfg.Accepted)
    {r : Recovered (RiskGate (OrderBook σ))} (h : r.gate.Holds numSymbols bookCfg risk books)
    (cs : List Command) : ∃ r', r.replay desk cs = some r' := by
  induction cs generalizing r books with
  | nil => exact ⟨r, rfl⟩
  | cons c cs ih =>
      obtain ⟨g', events, books', hrun, hholds, -⟩ := h.call ok (.process c)
      obtain ⟨r₁, hone, hgate⟩ : ∃ r₁, r.apply desk c = some r₁ ∧ r₁.gate = g' := by
        have hrun : desk.process r.gate c = some (g', events) := hrun
        rw [Recovered.apply, hrun]
        exact ⟨_, rfl, rfl⟩
      rw [← hgate] at hholds
      obtain ⟨r', hrest⟩ := ih hholds
      refine ⟨r', ?_⟩
      rw [Recovered.replay, List.foldlM_cons, hone]
      exact hrest

theorem server_total (numSymbols : UInt32) (bookCfg : BookConfig) (risk : RiskConfig)
    (hash : IndexHash) (ok : bookCfg.Accepted) {file : Option Bytes} (h : ∀ f ∈ file, Sane f)
    (cfg : ServerConfig) :
    ∃ s, server desk (RiskGate.make (MatchingEngine.make hash numSymbols bookCfg) risk : RiskGate
      (OrderBook σ)) cfg file =
      some (.ok s) := by
  cases file with
  | none => exact ⟨_, rfl⟩
  | some file =>
      by_cases hrecover : cfg.recover = true
      · obtain ⟨scan, -, -, -, -, -, -, -, heq⟩ := server_some desk
          (RiskGate.make (MatchingEngine.make hash numSymbols bookCfg) risk : RiskGate
            (OrderBook σ)) (h file rfl) cfg hrecover
        obtain ⟨r, hreplay⟩ :=
          replay_total (r :=
            { gate := RiskGate.make (MatchingEngine.make hash numSymbols bookCfg) risk }) ok
          (RiskGate.holds_make (σ := σ) hash numSymbols ok risk) scan.delivered
        rw [heq, hreplay]
        exact ⟨_, rfl⟩
      · rw [server, if_pos hrecover]
        exact ⟨_, rfl⟩

theorem Journaling.afterKill (ok : bookCfg.Accepted) (hash : IndexHash)
    {old : List Command} {s : State (RiskGate (OrderBook σ))}
    (hstart : Journaling desk (RiskGate.make (MatchingEngine.make hash numSymbols bookCfg) risk)
      old s none) (hlog : s.log = []) (cfg : GatewayConfig) (is : List Input) (k : Nat) :
    ∃ scan kept, AfterKill desk
      (RiskGate.make (MatchingEngine.make hash numSymbols bookCfg) risk) cfg old s is k scan
      kept := by
  let fresh : RiskGate (OrderBook σ) :=
    RiskGate.make (MatchingEngine.make hash numSymbols bookCfg) risk
  let dead := Gateway.run cfg desk s is
  obtain ⟨extra, hj⟩ := hstart.run cfg is
  have hj : Journaling desk fresh old dead extra := hj
  have hsane := hj.sane k
  have hfile : dead.repl.journal.file <+: dead.remains k := List.prefix_append _ _
  have hstored : dead.remains k <+: dead.stored :=
    (List.prefix_append_right_inj _).mpr (List.take_prefix k _)
  obtain ⟨scan, hscan, hstatus, hjournaled, hconsecutive, -, hfront, hholds, -⟩ :=
    server_some desk fresh hsane {} rfl
  have hcov : old ++ (record dead.log).covered <+: scan.delivered := by
    refine hholds _ (fun c hc => hj.sound c ?_) (hj.covered.trans hfile)
    obtain ⟨more, hmore⟩ := hj.appended
    rw [taken, List.append_assoc, ← hmore, Record.appended]
    rcases List.mem_append.mp hc with hc | hc
    · exact List.mem_append_left _ hc
    · exact List.mem_append_right _ (List.mem_append_left _ (List.mem_append_left _ hc))
  have hdel : scan.delivered <+: taken old dead extra := hfront _ hj.sound (hstored.trans hj.stored)
  obtain ⟨kept, hkept⟩ := (List.prefix_append old _).trans hcov
  rw [← hkept] at hcov hdel
  rw [taken, List.append_assoc] at hdel
  have hcov := (List.prefix_append_right_inj old).mp hcov
  have hdel := (List.prefix_append_right_inj old).mp hdel
  refine ⟨scan, kept, hscan, hstatus, hkept.symm, hconsecutive, hcov,
    ⟨extra, hdel, hj.every⟩, fun cfg' hrecover => ?_⟩
  obtain ⟨scan', hscan', -, -, -, -, -, -, hserver'⟩ := server_some desk fresh hsane cfg' hrecover
  obtain rfl : scan = scan' := by simpa using hscan.symm.trans hscan'
  obtain ⟨r', hreplay'⟩ := replay_total (r := { gate := fresh }) ok
    (RiskGate.holds_make (σ := σ) hash numSymbols ok risk) scan.delivered
  rw [hreplay'] at hserver'
  refine ⟨_, hserver', rfl, Recovered.replay_seq hreplay' hconsecutive, fun hfull => ?_,
    fun c hmore => ?_⟩
  · have hnone : (processed s.log).length ≤ kept.length := by
      rw [hlog]
      exact Nat.zero_le _
    obtain ⟨pre, hpre, htake⟩ := hstart.reached cfg is hnone hfull.length_le
    have hlog : processed (Gateway.run cfg desk s pre).log = kept :=
      htake.trans (List.prefix_iff_eq_take.mp hfull).symm
    obtain ⟨extra₁, hj₁⟩ := hstart.run cfg pre
    obtain ⟨r₁, hreplay₁, hgate, hdigest⟩ := hj₁.replayed
    rw [hlog, hkept, hreplay'] at hreplay₁
    obtain rfl := Option.some.inj hreplay₁
    exact ⟨pre, hpre, hlog, hgate, hdigest⟩
  · obtain ⟨r₁, hreplay₁, hgate, hdigest⟩ := hj.replayed
    rw [← hkept, hmore, ← List.append_assoc, Recovered.replay_append, hreplay₁,
      Option.bind_some] at hreplay'
    obtain ⟨r₂, happly, hend⟩ := Option.bind_eq_some_iff.mp hreplay'
    obtain rfl := Option.some.inj hend
    obtain ⟨⟨g, events⟩, hrun, rfl⟩ := Option.map_eq_some_iff.mp happly
    exact ⟨events, hgate ▸ hrun, by rw [← hdigest]; rfl⟩

/-- However many servers have been killed before, the next one starts. If it is killed too, its
journal holds what it started from and then a front of the commands it processed, with everything a
flush covers, at most followed by a command that was taken up and not processed; and the server that
recovers stands where the dead one stood after these. -/
theorem crash_recovery_exact (numSymbols : UInt32) (bookCfg : BookConfig) (risk : RiskConfig)
    (hash : IndexHash) (ok : bookCfg.Accepted) (file : Option Bytes)
    (before : Remains desk (RiskGate.make (MatchingEngine.make hash numSymbols bookCfg)
      risk : RiskGate (OrderBook σ)) file)
    (cfg : ServerConfig) :
    let fresh : RiskGate (OrderBook σ) :=
  RiskGate.make (MatchingEngine.make hash numSymbols bookCfg) risk
    ∃ old s, server desk fresh cfg file = some (.ok s) ∧ s.repl.journal = { file := written old } ∧
      ∀ is k, ∃ scan kept,
        let dead := Gateway.run cfg.gateway desk s is
        journalScan ((dead.remains k).length + 1) (dead.remains k) = some (.ok scan) ∧
          scan.status ≠ .corrupt ∧
          scan.delivered = old ++ kept ∧ Consecutive scan.delivered ∧
          (record dead.log).covered <+: kept ∧
          (∃ extra : Option Command, kept <+: processed dead.log ++ extra.toList) ∧
          ∀ cfg' : ServerConfig, cfg'.recover = true → ∃ s',
          server desk fresh cfg' (some (dead.remains k)) = some (.ok s') ∧
            s'.repl.journal = { file := written scan.delivered } ∧
            s'.core.seq = UInt64.ofNat scan.delivered.length ∧
            Resumes desk cfg.gateway s is kept s' := by
  intro fresh
  obtain ⟨s, hserver⟩ : ∃ s, server desk fresh cfg file = some (.ok s) :=
    server_total numSymbols bookCfg risk hash ok before.sane cfg
  obtain ⟨old, r, hsound, hnum, hreplay, rfl⟩ := server_serves before.sane hserver
  refine ⟨old, _, hserver, rfl, fun is k => ?_⟩
  have hstart : Journaling desk fresh old (r.serve cfg { file := written old }) none :=
    .start cfg hsound hnum hreplay
  obtain ⟨scan, kept, h⟩ := hstart.afterKill ok hash rfl cfg.gateway is k
  obtain ⟨extra, hkept, -⟩ := h.taken
  exact ⟨scan, kept, h.scanned, h.sound, h.delivered, h.consecutive, h.covered, ⟨extra, hkept⟩,
    h.resumes⟩

/-- What a server leaves that is killed between an append and the engine, with the record handed to
the operating system. -/
def leftBehind : Bytes :=
  (Gateway.run {} desk (start smallGate .create none [] 0 1 1) (fullSocket.take 7)).remains 72

theorem leftBehind_remains : Remains desk smallGate (some leftBehind) := by
  have started :
    server desk smallGate {} none = some (.ok (start smallGate .create none [] 0 1 1)) := rfl
  exact .killed .none started (fullSocket.take 7) 72

theorem crash_recovery_exact_between :
    ∃ old s, server desk smallGate {} (some leftBehind) = some (.ok s) ∧
    s.repl.journal = { file := written old } ∧
      ∀ is k, ∃ scan kept,
        let dead := Gateway.run {} desk s is
        journalScan ((dead.remains k).length + 1) (dead.remains k) = some (.ok scan) ∧
          scan.status ≠ .corrupt ∧
          scan.delivered = old ++ kept ∧ Consecutive scan.delivered ∧
          (record dead.log).covered <+: kept ∧
          (∃ extra : Option Command, kept <+: processed dead.log ++ extra.toList) ∧
          ∀ cfg' : ServerConfig, cfg'.recover = true → ∃ s', server desk smallGate cfg'
            (some (dead.remains k)) = some (.ok s') ∧
            s'.repl.journal = { file := written scan.delivered } ∧
            s'.core.seq = UInt64.ofNat scan.delivered.length ∧
            Resumes desk {} s is kept s' :=
  crash_recovery_exact 1 { numLevels := 64, maxOrders := 4 } {} Book.scatterHash (by decide)
    (some leftBehind)
    leftBehind_remains {}

end Exact

end ExchangeSim.Gateway
