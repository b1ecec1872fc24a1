/- digest: No report leaves before its command is journaled and acknowledged, as long as no session
   that is written to in the middle of a batch holds a report of that batch. -/

import ExchangeSim.Gateway.Gateway
import ExchangeSim.Lib.Trace
import Mathlib.Data.List.Induction

set_option autoImplicit false
set_option relaxedAutoImplicit false

namespace ExchangeSim.Gateway

open Lib (Always)
open Book (OrderBook AosStore scatterHash)
open Engine (RiskGate)
open ExchangeSim.Stream (Publisher Sent Datagram)

/-- The commands of a log: those a successful flush covers, those appended since, and those of
the batch that is not committed yet. -/
structure Record where
  covered : List Command := []
  pending : List Command := []
  batch : List Command := []

def Record.step (r : Record) : Action → Record
  | .poll => { r with batch := [] }
  | .commit => { r with batch := [] }
  | .append c => { r with pending := r.pending ++ [c], batch := r.batch ++ [c] }
  | .flush => { r with covered := r.covered ++ r.pending, pending := [] }
  | _ => r

def record (log : List Action) : Record := log.foldl Record.step {}

/-- What the log has appended to the journal. -/
def Record.appended (r : Record) : List Command := r.covered ++ r.pending

theorem record_append (log more : List Action) :
    record (log ++ more) = more.foldl Record.step (record log) :=
  List.foldl_append

@[simp] theorem record_snoc (log : List Action) (a : Action) :
    record (log ++ [a]) = (record log).step a :=
  record_append log [a]

/-- An action that says nothing about the journal, the batches, the responses or a halt. -/
def Action.plain : Action → Bool
  | .poll | .commit | .append _ | .flush | .send .. | .halt _ => false
  | .accept .. | .close _ | .closeAll | .process .. | .datagram _ | .replicaLost | .marketData .. =>
      true

theorem Record.step_plain (r : Record) {a : Action} (h : a.plain = true) : r.step a = r := by
  cases a <;> first | rfl | cases h

theorem record_plain (log : List Action) {more : List Action} (h : ∀ a ∈ more, a.plain = true) :
    record (log ++ more) = record log := by
  rw [record_append]
  induction more with
  | nil => rfl
  | cons a more ih =>
      rw [List.foldl_cons, Record.step_plain _ (h a List.mem_cons_self)]
      exact ih fun b hb => h b (List.mem_cons_of_mem a hb)

theorem record_batch_subset (log : List Action) : ∀ c ∈ (record log).batch,
    c ∈ (record log).appended := by
  induction log using List.reverseRecOn with
  | nil =>
      intro c hc
      cases hc
  | append_singleton log a ih =>
      rw [record_snoc]
      intro c hc
      cases a with
      | append x =>
          rcases List.mem_append.mp hc with hc | hc
          · rcases List.mem_append.mp (ih c hc) with h | h
            · exact List.mem_append_left _ h
            · exact List.mem_append_right _ (List.mem_append_left _ h)
          · exact List.mem_append_right _ (List.mem_append_right _ hc)
      | flush =>
          rw [Record.appended, Record.step, List.append_nil]
          exact ih c hc
      | poll => cases hc
      | commit => cases hc
      | _ => exact ih c hc

/-- A report may leave: its command is covered by a successful flush, and if the gateway waits for
a replica that is not lost, it is acknowledged. -/
def MayLeave (cfg : GatewayConfig) (r : Record) (acked : UInt64) (lost : Bool)
    (item : Item) : Prop :=
  (∃ c ∈ r.covered, c.seq = item.seq) ∧ (cfg.waitReplica = true → lost = false → item.seq ≤ acked)

/-- What the log must say about a call of `send`. -/
def SendOk (cfg : GatewayConfig) (pre : List Action) : Action → Prop
  | .send _ items acked lost => ∀ item ∈ items, MayLeave cfg (record pre) acked lost item
  | _ => True

structure CommitBeforeRespond (cfg : GatewayConfig) (log : List Action) : Prop where
  sends : Always (SendOk cfg) log
  halts : ∀ pre why post, log = pre ++ .halt why :: post → ∀ c ∈ (record pre).batch,
    ∀ fd items acked lost, .send fd items acked lost ∈ log → ∀ item ∈ items, item.seq ≠ c.seq

variable {G : Type} {cfg : GatewayConfig} {P : Prop} {base : UInt64} {s : State G}

/-- What a step of the loop asks of the state before it: the sequence number can be increased, and a
session that is about to be written to in the middle of a batch holds no report of that batch. -/
structure Calm (s : State G) : Prop where
  unwrapped : s.core.seq.toNat + 1 < 2 ^ 64
  writable : ∀ fd r rest, s.pc = .batch (.conn fd true r :: rest) → s.repl.halted = none →
    ∀ c, s.sessions.conns fd = some c → ∀ item ∈ c.unsent, ∀ cmd ∈ (record s.log).batch,
    item.seq ≠ cmd.seq

/-- What `Calm` says about the place of the loop. -/
def calmHere (s : State G) : Bool :=
  match s.pc with
  | .batch (.conn fd true _ :: _) =>
      s.repl.halted.isSome || (match s.sessions.conns fd with
        | none => true
        | some c => c.unsent.all fun item => (record s.log).batch.all fun cmd => item.seq ≠ cmd.seq)
  | _ => true

theorem calm_iff : Calm s ↔ s.core.seq.toNat + 1 < 2 ^ 64 ∧ calmHere s = true := by
  constructor
  · intro h
    refine ⟨h.unwrapped, ?_⟩
    rw [calmHere]
    split
    · rename_i fd r rest hpc
      cases hrun : s.repl.halted with
      | some why => rfl
      | none =>
          cases hc : s.sessions.conns fd with
          | none => rfl
          | some c => simpa using h.writable fd r rest hpc hrun c hc
    · rfl
  · rintro ⟨hseq, hhere⟩
    refine ⟨hseq, fun fd r rest hpc hrun c hc => ?_⟩
    simp only [calmHere, hpc] at hhere
    simpa [hrun, hc] using hhere

instance : Decidable (Calm s) := decidable_of_iff _ calm_iff.symm

/-- The place in the loop says how far the batch has got. -/
def Placed (cfg : GatewayConfig) (s : State G) : Prop :=
  match s.pc with
  | .poll => (record s.log).batch = []
  | .batch _ => s.batch.journaledAny = false → (record s.log).batch = []
  | .reading .. => s.batch.journaledAny = false → (record s.log).batch = []
  | .logged _ _ _ _ c _ => c ∈ (record s.log).batch
  | .waiting _ => (record s.log).pending = []
  | .expiring => (record s.log).pending = []
  | .release => s.repl.halted = none → (record s.log).pending = [] ∧
      (cfg.waitReplica = true → s.repl.replicaLost = false →
        ∀ c ∈ (record s.log).appended, c.seq ≤ s.repl.acked)
  | .shutdown => True
  | .stopped => True
  | .crashed => True

structure Told (cfg : GatewayConfig) (log : List Action) (released : UInt64)
    (halted : Option Halt) : Prop where
  sends : Always (SendOk cfg) log
  sent : ∀ fd items acked lost, .send fd items acked lost ∈ log → ∀ item ∈ items,
    item.seq ≤ released
  halts : ∀ pre why post, log = pre ++ .halt why :: post → ∀ c ∈ (record pre).batch,
    released < c.seq
  running : halted = none → ∀ why, .halt why ∉ log

/-- Whatever was in the journal at a commit is released. -/
def Commits (log : List Action) (released : UInt64) : Prop :=
  ∀ pre post, log = pre ++ .commit :: post → ∀ c ∈ (record pre).appended, c.seq ≤ released

/-- The journal numbers its commands from `base + 1` on, up to the last sequence number unless it
has failed. -/
structure Sequenced (base : UInt64) (failed : Bool) (seq : UInt64) (cs : List Command) : Prop where
  consecutive : ∀ i c, cs[i]? = some c → c.seq.toNat = base.toNat + 1 + i
  full : failed = false → seq.toNat = base.toNat + cs.length

structure Held (cfg : GatewayConfig) (calm : Prop) (base : UInt64) (s : State G) : Prop where
  told : calm → Told cfg s.log s.released s.repl.halted
  failed : s.repl.journalFailed = true → s.repl.halted ≠ none
  released_le : s.released ≤ s.core.seq
  later : ∀ c ∈ (record s.log).batch, s.released < c.seq
  earlier : ∀ c ∈ (record s.log).appended, c ∉ (record s.log).batch → c.seq ≤ s.released
  pending : ∀ c ∈ (record s.log).pending, c ∈ (record s.log).batch
  numbered : ∀ c ∈ (record s.log).appended, c.seq ≤ s.core.seq
  acked : cfg.waitReplica = true → s.repl.replicaLost = false →
    ∀ c ∈ (record s.log).appended, c.seq ≤ s.released → c.seq ≤ s.repl.acked
  items : ∀ fd c, s.sessions.conns fd = some c → ∀ item ∈ c.out, ∃ cmd ∈ (record s.log).appended,
    cmd.seq = item.seq
  publisher : cfg.waitReplica = true → s.repl.pub.isSome = true
  commits : Commits s.log s.released
  sequenced : Sequenced base s.repl.journalFailed s.core.seq (record s.log).appended

theorem Told.commitBeforeRespond {log : List Action} {released : UInt64} {halted : Option Halt}
    (h : Told cfg log released halted) : CommitBeforeRespond cfg log where
  sends := h.sends
  halts pre why post he c hc fd items acked lost hsend item hitem := by
    have hlt := h.halts pre why post he c hc
    have hle := h.sent fd items acked lost hsend item hitem
    intro heq
    rw [heq] at hle
    exact Std.lt_irrefl (Std.lt_of_lt_of_le hlt hle)

theorem Held.mayLeave (h : Held cfg P base s) {cmd : Command} (hcmd : cmd ∈ (record s.log).appended)
    (hle : cmd.seq ≤ s.released) {item : Item} (he : cmd.seq = item.seq) :
    MayLeave cfg (record s.log) s.repl.acked s.repl.replicaLost item := by
  constructor
  · rcases List.mem_append.mp hcmd with hcov | hpend
    · exact ⟨cmd, hcov, he⟩
    · have hlt := h.later cmd (h.pending cmd hpend)
      exact absurd (Std.lt_of_lt_of_le hlt hle) Std.lt_irrefl
  · intro hwait hlost
    rw [← he]
    exact h.acked hwait hlost cmd hcmd hle

/-! ### What a step changes -/

structure Quietly (s s' : State G) : Prop where
  log : ∃ acts, s'.log = s.log ++ acts ∧ ∀ a ∈ acts, a.plain = true
  released : s'.released = s.released
  seq : s'.core.seq = s.core.seq
  halted : s'.repl.halted = s.repl.halted
  failed : s'.repl.journalFailed = s.repl.journalFailed
  lost : s'.repl.replicaLost = false → s.repl.replicaLost = false
  acked : s.repl.acked ≤ s'.repl.acked
  pub : s.repl.pub.isSome = true → s'.repl.pub.isSome = true
  items : ∀ fd c, s'.sessions.conns fd = some c → ∀ item ∈ c.out,
    (∃ fd' c', s.sessions.conns fd' = some c' ∧ item ∈ c'.out) ∨ ∃ cmd ∈ (record s.log).appended,
    cmd.seq = item.seq

theorem Quietly.record {s' : State G} (h : Quietly s s') : record s'.log = record s.log := by
  obtain ⟨acts, hlog, hplain⟩ := h.log
  rw [hlog, record_plain _ hplain]

theorem Quietly.refl (s : State G) : Quietly s s where
  log := ⟨[], (List.append_nil _).symm, fun _ h => nomatch h⟩
  released := rfl
  seq := rfl
  halted := rfl
  failed := rfl
  lost := id
  acked := UInt64.le_refl _
  pub := id
  items fd c hc _ hitem := .inl ⟨fd, c, hc, hitem⟩

theorem Quietly.trans {s' s'' : State G} (h : Quietly s s') (h' : Quietly s' s'') :
    Quietly s s'' where
  log := by
    obtain ⟨acts, hlog, hplain⟩ := h.log
    obtain ⟨acts', hlog', hplain'⟩ := h'.log
    refine ⟨acts ++ acts', by rw [hlog', hlog, List.append_assoc], fun a ha => ?_⟩
    rcases List.mem_append.mp ha with ha | ha
    · exact hplain a ha
    · exact hplain' a ha
  released := h'.released.trans h.released
  seq := h'.seq.trans h.seq
  halted := h'.halted.trans h.halted
  failed := h'.failed.trans h.failed
  lost hl := h.lost (h'.lost hl)
  acked := UInt64.le_trans h.acked h'.acked
  pub hp := h'.pub (h.pub hp)
  items fd c hc item hitem := by
    rcases h'.items fd c hc item hitem with ⟨fd', c', hc', hitem'⟩ | hcmd
    · exact h.items fd' c' hc' item hitem'
    · rw [h.record] at hcmd
      exact .inr hcmd

private theorem split_append {log more pre post : List Action} {a : Action}
    (h : log ++ more = pre ++ a :: post) (hmore : a ∉ more) : ∃ post', log = pre ++ a :: post' := by
  rcases List.append_eq_append_iff.mp h with ⟨mid, hpre, hmore'⟩ | ⟨mid, hlog, hpost⟩
  · exfalso
    apply hmore
    rw [hmore']
    simp
  · cases mid with
    | nil =>
        exfalso
        apply hmore
        rw [List.nil_append] at hpost
        rw [← hpost]
        exact List.mem_cons_self
    | cons b mid =>
        obtain ⟨rfl, -⟩ := List.cons.inj hpost
        exact ⟨mid, hlog⟩

theorem Commits.more {log more : List Action} {released : UInt64} (h : Commits log released)
    (hmore : .commit ∉ more) :
    Commits (log ++ more) released := by
  intro pre post he
  obtain ⟨post', he'⟩ := split_append he hmore
  exact h pre post' he'

theorem Commits.commit {log : List Action} {released released' : UInt64} (h : Commits log released)
    (hle : released ≤ released') (hnew : ∀ c ∈ (record log).appended, c.seq ≤ released') :
    Commits (log ++ [.commit]) released' := by
  intro pre post he c hc
  rcases List.append_eq_append_iff.mp he with ⟨mid, hpre, hmore⟩ | ⟨mid, hlog, hpost⟩
  · cases mid with
    | nil =>
        rw [hpre, List.append_nil] at hc
        exact hnew c hc
    | cons a mid =>
        have := congrArg List.length hmore
        simp at this
  · cases mid with
    | nil =>
        rw [List.append_nil] at hlog
        rw [← hlog] at hc
        exact hnew c hc
    | cons a mid =>
        obtain ⟨rfl, -⟩ := List.cons.inj hpost
        exact UInt64.le_trans (h pre mid hlog c hc) hle

/-- An action that is neither a response nor a halt. -/
def Action.silent : Action → Bool
  | .send .. | .halt _ => false
  | _ => true

theorem Action.silent_of_plain {a : Action} (h : a.plain = true) : a.silent = true := by
  cases a <;> first | rfl | cases h

theorem Told.more {log more : List Action} {released : UInt64} {halted : Option Halt}
    (h : Told cfg log released halted) (hmore : ∀ a ∈ more, a.silent = true) :
    Told cfg (log ++ more) released halted where
  sends := by
    refine h.sends.append fun pre a ha => ?_
    have := hmore a ha
    cases a <;> trivial
  sent fd items acked lost hsend := by
    rcases List.mem_append.mp hsend with hsend | hsend
    · exact h.sent fd items acked lost hsend
    · cases hmore _ hsend
  halts pre why post he := by
    obtain ⟨post', he'⟩ := split_append he fun hc => nomatch hmore _ hc
    exact h.halts pre why post' he'
  running hrun why hc := by
    rcases List.mem_append.mp hc with hc | hc
    · exact h.running hrun why hc
    · cases hmore _ hc

theorem Told.snoc {log : List Action} {released : UInt64} {halted : Option Halt}
    (h : Told cfg log released halted) {a : Action} (ha : a.silent = true) :
    Told cfg (log ++ [a]) released halted := by
  refine h.more fun b hb => ?_
  rw [List.mem_singleton.mp hb]
  exact ha

theorem Told.halt {log : List Action} {released : UInt64} {halted : Option Halt}
    (h : Told cfg log released halted)
    (later : ∀ c ∈ (record log).batch, released < c.seq) (why : Halt) :
    Told cfg (log ++ [.halt why]) released (some why) where
  sends := h.sends.snoc trivial
  sent fd items acked lost hsend := by
    rcases List.mem_append.mp hsend with hsend | hsend
    · exact h.sent fd items acked lost hsend
    · simp at hsend
  halts pre why' post he c hc := by
    rcases List.append_eq_append_iff.mp he with ⟨mid, hpre, hmore⟩ | ⟨mid, hlog, hpost⟩
    · cases mid with
      | nil =>
          rw [hpre, List.append_nil] at hc
          exact later c hc
      | cons a mid =>
          have := congrArg List.length hmore
          simp at this
    · cases mid with
      | nil =>
          rw [List.append_nil] at hlog
          rw [← hlog] at hc
          exact later c hc
      | cons a mid =>
          obtain ⟨rfl, -⟩ := List.cons.inj hpost
          exact h.halts pre why' mid hlog c hc
  running hrun := nomatch hrun

theorem Told.send {log : List Action} {released : UInt64} {halted : Option Halt}
    (h : Told cfg log released halted) {fd : Fd} {items : List Item} {acked : UInt64} {lost : Bool}
    (ok : ∀ item ∈ items, MayLeave cfg (record log) acked lost item ∧ item.seq ≤ released) :
    Told cfg (log ++ [.send fd items acked lost]) released halted where
  sends := h.sends.snoc fun item hitem => (ok item hitem).1
  sent fd' items' acked' lost' hs item hitem := by
    rcases List.mem_append.mp hs with hs | hs
    · exact h.sent fd' items' acked' lost' hs item hitem
    · cases List.mem_singleton.mp hs
      exact (ok item hitem).2
  halts pre why post he := by
    obtain ⟨post', he'⟩ := split_append he (by simp)
    exact h.halts pre why post' he'
  running hrun why hc := by
    rcases List.mem_append.mp hc with hc | hc
    · exact h.running hrun why hc
    · simp at hc

theorem Told.release {log : List Action} {released released' : UInt64} {halted : Option Halt}
    (h : Told cfg log released halted) (hrun : halted = none) (hle : released ≤ released') :
    Told cfg log released' halted where
  sends := h.sends
  sent fd items acked lost hsend item hitem :=
    UInt64.le_trans (h.sent fd items acked lost hsend item hitem) hle
  halts pre why post he := absurd (by rw [he]; simp) (h.running hrun why)
  running := h.running

theorem Held.quietly (h : Held cfg P base s) {s' : State G} (q : Quietly s s') :
    Held cfg P base s' := by
  obtain ⟨acts, hlog, hplain⟩ := q.log
  have hrec := q.record
  refine ⟨?_, ?_, ?_, ?_, ?_, ?_, ?_, ?_, ?_, fun hw => q.pub (h.publisher hw), ?_, ?_⟩
  · rw [hlog, q.released, q.halted]
    exact fun hq => (h.told hq).more fun a ha => a.silent_of_plain (hplain a ha)
  · rw [q.failed, q.halted]
    exact h.failed
  · rw [q.released, q.seq]
    exact h.released_le
  · rw [hrec, q.released]
    exact h.later
  · rw [hrec, q.released]
    exact h.earlier
  · rw [hrec]
    exact h.pending
  · rw [hrec, q.seq]
    exact h.numbered
  · intro hw hlost c hc hle
    rw [hrec] at hc
    rw [q.released] at hle
    exact UInt64.le_trans (h.acked hw (q.lost hlost) c hc hle) q.acked
  · intro fd c hc item hitem
    rw [hrec]
    rcases q.items fd c hc item hitem with ⟨fd', c', hc', hitem'⟩ | hcmd
    · exact h.items fd' c' hc' item hitem'
    · exact hcmd
  · rw [hlog, q.released]
    exact h.commits.more fun hc => nomatch hplain _ hc
  · rw [q.failed, q.seq, hrec]
    exact h.sequenced

/-- The gateway halts, with what is left of the journal: the commands of its batch have not been
released. -/
theorem Held.halting (h : Held cfg P base s) (w : Journal.JournalWriter) (failed : Bool)
    (hf : failed = false → s.repl.journalFailed = false) (why : Halt) :
    Held cfg P base (haltWith { s with repl.journal := w, repl.journalFailed := failed } why) := by
  have hrec : record (s.log ++ [Action.halt why]) = record s.log := record_snoc s.log _
  have hseqd : Sequenced base failed s.core.seq (record (s.log ++ [Action.halt why])).appended := by
    rw [hrec]
    exact ⟨h.sequenced.consecutive, fun hno => h.sequenced.full (hf hno)⟩
  refine ⟨fun hq => (h.told hq).halt h.later why, ?_, h.released_le, ?_, ?_, ?_, ?_, ?_,
    ?_, h.publisher, h.commits.more (by simp), hseqd⟩
  · intro _ hnone
    cases hnone
  all_goals
    change ∀ _, _
    simp only [Gateway.haltWith, State.emit, hrec]
  · exact h.later
  · exact h.earlier
  · exact h.pending
  · exact h.numbered
  · exact h.acked
  · exact h.items

theorem Held.haltWith (h : Held cfg P base s) (why : Halt) : Held cfg P base (haltWith s why) :=
  h.halting s.repl.journal s.repl.journalFailed id why

theorem Held.flushed (h : Held cfg P base s) (w : Journal.JournalWriter) :
    Held cfg P base (State.emit { s with repl.journal := w } [.flush]) := by
  have hrec : record (s.log ++ [Action.flush]) =
      { record s.log with
        covered := (record s.log).covered ++ (record s.log).pending, pending := [] } :=
    record_snoc s.log _
  have happ : (record (s.log ++ [Action.flush])).appended = (record s.log).appended := by
    rw [hrec, Record.appended, List.append_nil]
    rfl
  refine ⟨fun hq => (h.told hq).snoc rfl, h.failed, h.released_le, ?_, ?_, ?_, ?_, ?_,
    ?_, h.publisher, h.commits.more (by simp), by rw [State.emit, happ]; exact h.sequenced⟩
  all_goals
    change ∀ _, _
    simp only [State.emit, happ]
  · rw [hrec]
    exact h.later
  · rw [hrec]
    exact h.earlier
  · rw [hrec]
    intro c hc
    cases hc
  · exact h.numbered
  · exact h.acked
  · exact h.items

theorem Held.appended (h : Held cfg P base s)
    (unwrapped : s.core.seq.toNat + 1 < 2 ^ 64) {c : Command} (hok : s.repl.journalFailed = false)
    (hseq : c.seq = s.core.seq + 1) (ids : ClientIdMap) (w : Journal.JournalWriter) :
    Held cfg P base (State.emit { s with
      core.ids := ids, core.seq := s.core.seq + 1, repl.journal := w } [.append c]) := by
  have hnext : (s.core.seq + 1).toNat = s.core.seq.toNat + 1 := by
    rw [UInt64.toNat_add, show (1 : UInt64).toNat = 1 from rfl, Nat.mod_eq_of_lt unwrapped]
  have hgrow : s.core.seq < s.core.seq + 1 := by
    rw [UInt64.lt_iff_toNat_lt, hnext]
    exact Nat.lt_succ_self _
  have hrec : record (s.log ++ [Action.append c]) =
      { record s.log with
        pending := (record s.log).pending ++ [c], batch := (record s.log).batch ++ [c] } :=
    record_snoc s.log _
  have happ : (record (s.log ++ [Action.append c])).appended = (record s.log).appended ++ [c] := by
    rw [hrec, Record.appended, Record.appended, List.append_assoc]
  have hlater : s.released < c.seq := by
    rw [hseq]
    exact Std.lt_of_le_of_lt h.released_le hgrow
  have hfull := h.sequenced.full hok
  have hseqd : Sequenced base s.repl.journalFailed (s.core.seq + 1)
      (record (s.log ++ [Action.append c])).appended := by
    rw [happ]
    refine ⟨fun i x hx => ?_, fun _ => ?_⟩
    · rcases Nat.lt_or_ge i (record s.log).appended.length with hi | hi
      · rw [List.getElem?_append_left hi] at hx
        exact h.sequenced.consecutive i x hx
      · rw [List.getElem?_append_right hi, List.getElem?_singleton] at hx
        split at hx
        · cases hx
          rw [hseq, hnext]
          omega
        · cases hx
    · rw [hnext, List.length_append, List.length_singleton]
      omega
  refine ⟨fun hq => (h.told hq).snoc rfl, h.failed,
    Std.le_of_lt (Std.lt_of_le_of_lt h.released_le hgrow), ?_, ?_, ?_, ?_, ?_, ?_,
    h.publisher, h.commits.more (by simp), hseqd⟩
  all_goals
    change ∀ _, _
    simp only [State.emit, happ]
  · rw [hrec]
    intro x hx
    rcases List.mem_append.mp hx with hx | hx
    · exact h.later x hx
    · rw [List.mem_singleton.mp hx]
      exact hlater
  · rw [hrec]
    intro x hx hout
    rcases List.mem_append.mp hx with hx | hx
    · exact h.earlier x hx fun hb => hout (List.mem_append_left _ hb)
    · exact absurd (List.mem_append_right _ hx) hout
  · rw [hrec]
    intro x hx
    rcases List.mem_append.mp hx with hx | hx
    · exact List.mem_append_left _ (h.pending x hx)
    · exact List.mem_append_right _ hx
  · intro x hx
    rcases List.mem_append.mp hx with hx | hx
    · exact Std.le_of_lt (Std.lt_of_le_of_lt (h.numbered x hx) hgrow)
    · rw [List.mem_singleton.mp hx, hseq]
      exact UInt64.le_refl _
  · intro hw hlost x hx hle
    rcases List.mem_append.mp hx with hx | hx
    · exact h.acked hw hlost x hx hle
    · rw [List.mem_singleton.mp hx] at hle
      exact absurd (Std.lt_of_lt_of_le hlater hle) Std.lt_irrefl
  · intro fd k hk item hitem
    obtain ⟨x, hx, he⟩ := h.items fd k hk item hitem
    exact ⟨x, List.mem_append_left _ hx, he⟩

theorem Held.polled (h : Held cfg P base s) (hnone : (record s.log).batch = []) (b : Batch) :
    Held cfg P base (State.emit { s with batch := b } [.poll]) := by
  have hrec : record (s.log ++ [Action.poll]) = record s.log := by
    rw [record_snoc, Record.step, ← hnone]
  refine ⟨fun hq => (h.told hq).snoc rfl, h.failed, h.released_le, ?_, ?_, ?_, ?_, ?_,
    ?_, h.publisher, h.commits.more (by simp), by rw [State.emit, hrec]; exact h.sequenced⟩
  all_goals
    change ∀ _, _
    simp only [State.emit, hrec]
  · exact h.later
  · exact h.earlier
  · exact h.pending
  · exact h.numbered
  · exact h.acked
  · exact h.items

theorem Held.committed (h : Held cfg P base s) (hrun : s.repl.halted = none)
    (hnone : (record s.log).pending = [])
    (hack : cfg.waitReplica = true → s.repl.replicaLost = false → ∀ c ∈ (record s.log).appended,
      c.seq ≤ s.repl.acked) :
    Held cfg P base (State.emit { s with released := s.core.seq } [.commit]) := by
  have hrec : record (s.log ++ [Action.commit]) = { record s.log with batch := [] } :=
    record_snoc s.log _
  have happ : (record (s.log ++ [Action.commit])).appended = (record s.log).appended := by
    rw [hrec]
    rfl
  refine ⟨fun hq => ((h.told hq).release hrun h.released_le).snoc rfl, h.failed, UInt64.le_refl _,
    ?_, ?_, ?_, ?_, ?_, ?_, h.publisher,
    h.commits.commit h.released_le h.numbered, by rw [State.emit, happ]; exact h.sequenced⟩
  all_goals
    change ∀ _, _
    simp only [State.emit, happ]
  · rw [hrec]
    intro x hx
    cases hx
  · intro x hx _
    exact h.numbered x hx
  · rw [hrec]
    intro x hx
    rw [hnone] at hx
    cases hx
  · exact h.numbered
  · intro hw hlost x hx _
    exact hack hw hlost x hx
  · exact h.items

/-! ### Writing to sessions -/

structure Writes (s s' : State G) : Prop where
  record : record s'.log = record s.log
  released : s'.released = s.released
  core : s'.core = s.core
  repl : s'.repl = s.repl
  batch : s'.batch = s.batch
  pc : s'.pc = s.pc
  items : ∀ fd c, s'.sessions.conns fd = some c → ∃ c', s.sessions.conns fd = some c' ∧
    (∀ item ∈ c.out, item ∈ c'.out) ∧ ∀ item ∈ c.unsent, item ∈ c'.unsent

theorem Writes.refl (s : State G) : Writes s s :=
  ⟨rfl, rfl, rfl, rfl, rfl, rfl, fun _ c hc => ⟨c, hc, fun _ h => h, fun _ h => h⟩⟩

theorem Writes.trans {s' s'' : State G} (h : Writes s s') (h' : Writes s' s'') : Writes s s'' where
  record := h'.record.trans h.record
  released := h'.released.trans h.released
  core := h'.core.trans h.core
  repl := h'.repl.trans h.repl
  batch := h'.batch.trans h.batch
  pc := h'.pc.trans h.pc
  items fd c hc := by
    obtain ⟨c', hc', hout, hun⟩ := h'.items fd c hc
    obtain ⟨c'', hc'', hout', hun'⟩ := h.items fd c' hc'
    exact ⟨c'', hc'', fun i hi => hout' i (hout i hi), fun i hi => hun' i (hun i hi)⟩

theorem closeConn_writes (s : State G) (fd : Fd) : Writes s (closeConn s fd) := by
  refine ⟨record_snoc s.log _, rfl, rfl, rfl, rfl, rfl, fun fd' c hc =>
    ⟨c, ?_, fun _ h => h, fun _ h => h⟩⟩
  simp only [closeConn, State.emit] at hc
  split at hc
  · exact hc
  · by_cases hfd : fd' = fd
    · subst hfd
      simp at hc
    · simpa [Function.update_of_ne hfd] using hc

theorem Conn.unsent_mono (c : Conn) {off : Nat} (h : c.outOff ≤ off) :
    ∀ item ∈ ({ c with outOff := off } : Conn).unsent, item ∈ c.unsent := by
  intro item hitem
  have hmono : c.outOff / kReportSize ≤ off / kReportSize := Nat.div_le_div_right h
  have hdrop : c.out.drop (off / kReportSize) = c.unsent.drop
      (off / kReportSize - c.outOff / kReportSize) := by
    rw [Conn.unsent, List.drop_drop, Nat.add_sub_cancel' hmono]
  rw [Conn.unsent, hdrop] at hitem
  exact List.mem_of_mem_drop hitem

theorem sendLoop_spec (c : Conn) (answers : List SendResult) :
    (∀ items ∈ (sendLoop c answers).2, ∀ item ∈ items, item ∈ c.unsent) ∧
      ∀ c', (sendLoop c answers).1 = some c' → c'.out = c.out ∧ c.outOff ≤ c'.outOff := by
  induction answers generalizing c with
  | nil =>
      rw [sendLoop]
      split <;> simp
  | cons r rs ih =>
      by_cases hleft : c.outOff < c.out.length * kReportSize
      · cases r with
        | again => simp [sendLoop, hleft]
        | error => simp [sendLoop, hleft]
        | sent n =>
            cases n with
            | zero => simp [sendLoop, hleft]
            | succ n =>
                have hmore := Conn.unsent_mono c (Nat.le_add_right c.outOff
                  (min (n + 1) (c.out.length * kReportSize - c.outOff)))
                obtain ⟨hitems, hout⟩ := ih { c with
                  outOff := c.outOff + min (n + 1) (c.out.length * kReportSize - c.outOff) }
                simp only [sendLoop, if_pos hleft]
                refine ⟨fun items hi item hitem => ?_, fun c' hc' => ?_⟩
                · rcases List.mem_cons.mp hi with rfl | hi
                  · exact hitem
                  · exact hmore item (hitems items hi item hitem)
                · obtain ⟨h1, h2⟩ := hout c' hc'
                  exact ⟨h1, Nat.le_trans (Nat.le_add_right _ _) h2⟩
      · simp [sendLoop, hleft]

theorem settle_spec (c : Conn) : (∀ item ∈ (settle c).out, item ∈ c.out) ∧
    ∀ item ∈ (settle c).unsent, item ∈ c.unsent := by
  have hdef : settle c = if c.outOff = c.out.length * kReportSize then
      { c with out := [], outOff := 0, wantOut := false, paused := false } else
      { c with
        wantOut := decide (c.outOff < c.out.length * kReportSize)
        paused := decide (c.out.length * kReportSize - c.outOff > 16 * 2 ^ 20) } := by
    rw [settle]
    split <;> simp
  rw [hdef]
  split
  · simp [Conn.unsent]
  · exact ⟨fun _ h => h, fun _ h => h⟩

theorem Conn.unsent_subset (c : Conn) {item : Item} (h : item ∈ c.unsent) : item ∈ c.out :=
  List.mem_of_mem_drop h

/-- The reports of a session that may be written to now. -/
def Writable (s : State G) (fd : Fd) : Prop :=
  ∀ c, s.sessions.conns fd = some c → ∀ item ∈ c.unsent,
    ∃ cmd ∈ (record s.log).appended, cmd.seq = item.seq ∧ cmd.seq ≤ s.released

theorem Held.sending (h : Held cfg P base s) (fd : Fd) {sent : List (List Item)}
    (hsent : P → ∀ items ∈ sent, ∀ item ∈ items,
      ∃ cmd ∈ (record s.log).appended, cmd.seq = item.seq ∧ cmd.seq ≤ s.released) :
    Held cfg P base (s.emit (sent.map fun items =>
      .send fd items s.repl.acked s.repl.replicaLost)) ∧
      Writes s (s.emit (sent.map fun items => .send fd items s.repl.acked s.repl.replicaLost)) := by
  induction sent generalizing s with
  | nil =>
      have hid : s.emit [] = s := by rw [State.emit, List.append_nil]
      rw [List.map_nil, hid]
      exact ⟨h, .refl s⟩
  | cons items sent ih =>
      have hrec : record (s.log ++ [Action.send fd items s.repl.acked s.repl.replicaLost]) =
          record s.log :=
        record_snoc s.log _
      have hone : Held cfg P base (s.emit [.send fd items s.repl.acked s.repl.replicaLost]) := by
        have ok : P → ∀ item ∈ items,
          MayLeave cfg (record s.log) s.repl.acked s.repl.replicaLost item ∧
            item.seq ≤ s.released := by
          intro hq item hitem
          obtain ⟨cmd, hcmd, he, hle⟩ := hsent hq items List.mem_cons_self item hitem
          exact ⟨h.mayLeave hcmd hle he, he ▸ hle⟩
        refine ⟨fun hq => (h.told hq).send (ok hq), h.failed, h.released_le, ?_, ?_, ?_, ?_, ?_,
          ?_, h.publisher, h.commits.more (by simp), by rw [State.emit, hrec]; exact h.sequenced⟩
        all_goals
          change ∀ _, _
          simp only [State.emit, hrec]
        · exact h.later
        · exact h.earlier
        · exact h.pending
        · exact h.numbered
        · exact h.acked
        · exact h.items
      have hmore : P → ∀ items' ∈ sent, ∀ item ∈ items', ∃ cmd ∈ (record (s.emit
          [.send fd items s.repl.acked s.repl.replicaLost]).log).appended, cmd.seq = item.seq ∧
              cmd.seq ≤ s.released := by
        intro hq items' hi
        rw [State.emit, hrec]
        exact hsent hq items' (List.mem_cons_of_mem items hi)
      obtain ⟨h1, h2⟩ := ih hone hmore
      have hemit :
        s.emit ((items :: sent).map fun items => .send fd items s.repl.acked s.repl.replicaLost) =
          (s.emit [.send fd items s.repl.acked s.repl.replicaLost]).emit
            (sent.map fun items => .send fd items s.repl.acked s.repl.replicaLost) := by
        simp [State.emit]
      rw [hemit]
      refine ⟨h1, Writes.trans ?_ h2⟩
      exact ⟨hrec, rfl, rfl, rfl, rfl, rfl, fun _ c hc => ⟨c, hc, fun _ h => h, fun _ h => h⟩⟩

theorem Writes.quietly {s' : State G} (h : Writes s s')
    (hlog : ∃ acts, s'.log = s.log ++ acts ∧ ∀ a ∈ acts, a.plain = true) :
    Quietly s s' where
  log := hlog
  released := h.released
  seq := by rw [h.core]
  halted := by rw [h.repl]
  failed := by rw [h.repl]
  lost := by
    rw [h.repl]
    exact id
  acked := by
    rw [h.repl]
    exact UInt64.le_refl _
  pub := by
    rw [h.repl]
    exact id
  items fd c hc item hitem := by
    obtain ⟨c', hc', hout, _⟩ := h.items fd c hc
    exact .inl ⟨fd, c', hc', hout item hitem⟩

theorem Held.closeConn (h : Held cfg P base s) (fd : Fd) : Held cfg P base (closeConn s fd) :=
  h.quietly ((closeConn_writes s fd).quietly ⟨[.close fd], rfl, by simp [Action.plain]⟩)

theorem Held.tryWrite (h : Held cfg P base s) {fd : Fd} (ok : P → Writable s fd)
    (answers : List SendResult) :
    Held cfg P base (tryWrite s fd answers) ∧ Writes s (tryWrite s fd answers) := by
  rw [Gateway.tryWrite]
  cases hc : s.sessions.conns fd with
  | none => exact ⟨h, .refl s⟩
  | some c =>
      obtain ⟨hitems, hout⟩ := sendLoop_spec c answers
      obtain ⟨hsend, hw⟩ := h.sending fd fun hq items hi item hitem => ok hq c hc item
        (hitems items hi item hitem)
      simp only
      cases hc' : (sendLoop c answers).1 with
      | none => exact ⟨hsend.closeConn fd, hw.trans (closeConn_writes _ fd)⟩
      | some c' =>
          obtain ⟨hsame, hoff⟩ := hout c' hc'
          obtain ⟨hset, hset'⟩ := settle_spec c'
          have hw' : Writes s { s.emit ((sendLoop c answers).2.map fun items =>
              .send fd items s.repl.acked s.repl.replicaLost) with
              sessions.conns := Function.update s.sessions.conns fd (some (settle c')) } := by
            refine ⟨hw.record, rfl, rfl, rfl, rfl, rfl, fun fd' k hk => ?_⟩
            by_cases hfd : fd' = fd
            · subst hfd
              simp only [Function.update_self] at hk
              cases hk
              refine ⟨c, hc, fun item hitem => ?_, fun item hitem => ?_⟩
              · rw [← hsame]
                exact hset item hitem
              · have hin := hset' item hitem
                rw [Conn.unsent, hsame] at hin
                exact Conn.unsent_mono c hoff item hin
            · simp only [Function.update_of_ne hfd] at hk
              exact ⟨k, hk, fun _ h => h, fun _ h => h⟩
          refine ⟨hsend.quietly ?_, hw'⟩
          refine ⟨⟨[], (List.append_nil _).symm, fun _ hx => nomatch hx⟩, rfl, rfl, rfl, rfl, id,
            UInt64.le_refl _, id, ?_⟩
          intro fd' k hk item hitem
          obtain ⟨k', hk', hout', _⟩ := hw'.items fd' k hk
          exact .inl ⟨fd', k', hk', hout' item hitem⟩

theorem Held.writeTouched (h : Held cfg P base s) (ok : P → ∀ fd, Writable s fd) (fds : List Fd)
    (answers : List (List SendResult)) :
    Held cfg P base (writeTouched s fds answers) ∧ Writes s (writeTouched s fds answers) := by
  induction fds generalizing s answers with
  | nil => exact ⟨h, .refl s⟩
  | cons fd fds ih =>
      obtain ⟨h1, hw⟩ := h.tryWrite (fun hq => ok hq fd) (answers.headD [])
      have ok' : P → ∀ fd', Writable (Gateway.tryWrite s fd (answers.headD [])) fd' := by
        intro hq fd' c hc item hitem
        obtain ⟨c', hc', _, hun⟩ := hw.items fd' c hc
        rw [hw.record, hw.released]
        exact ok hq fd' c' hc' item (hun item hitem)
      obtain ⟨h2, hw'⟩ := ih h1 ok' answers.tail
      exact ⟨h2, hw.trans hw'⟩

/-! ### The steps of the loop -/

theorem at_quietly (s : State G) (pc : Pc) : Quietly s (s.at pc) :=
  ⟨⟨[], (List.append_nil _).symm, fun _ h => nomatch h⟩, rfl, rfl, rfl, rfl, id,
    UInt64.le_refl _, id, fun fd c hc _ hitem => .inl ⟨fd, c, hc, hitem⟩⟩

theorem Held.at (h : Held cfg P base s) (pc : Pc) : Held cfg P base (s.at pc) :=
  h.quietly (at_quietly s pc)

/-- Before the commit of a batch with a command, the loop knows of the command. -/
def Begun (s : State G) : Prop := s.batch.journaledAny = false → (record s.log).batch = []

theorem publisherCall_quietly (s : State G) {f : Publisher → Publisher × List Sent}
    (hf : ∀ p : Publisher, p.acked ≤ (f p).1.acked) : Quietly s (publisherCall s f) := by
  rw [publisherCall]
  cases hp : s.repl.pub with
  | none => exact .refl s
  | some p =>
      refine ⟨⟨_, rfl, ?_⟩, rfl, rfl, rfl, rfl, id, ?_, fun _ => rfl, fun fd c hc _ hitem =>
        .inl ⟨fd, c, hc, hitem⟩⟩
      · intro a ha
        obtain ⟨d, _, rfl⟩ := List.mem_map.mp ha
        rfl
      · simp only [State.emit, Replication.acked, hp, Option.map_some, Option.getD_some]
        exact hf p

@[simp] theorem publisherCall_core (s : State G) (f : Publisher → Publisher × List Sent) :
    (publisherCall s f).core = s.core := by
  rw [publisherCall]
  split <;> rfl

@[simp] theorem publisherCall_batch (s : State G) (f : Publisher → Publisher × List Sent) :
    (publisherCall s f).batch = s.batch := by
  rw [publisherCall]
  split <;> rfl

theorem service_quietly (s : State G) (group : List Datagram) (control : List (Nat × Datagram)) :
    Quietly s (publisherCall s fun p => p.service group control) :=
  publisherCall_quietly s fun p => p.service_acked group control

theorem heartbeat_quietly (s : State G) (now interval : UInt64) :
    Quietly s (publisherCall s fun p => p.heartbeatIfIdle now interval) :=
  publisherCall_quietly s fun p => UInt64.le_of_eq (p.heartbeatIfIdle_acked now interval).symm

theorem record_haltWith (s : State G) (why : Halt) : record (haltWith s why).log = record s.log :=
  record_snoc s.log _

theorem fenceCheck_cases (s : State G) :
    fenceCheck s = s ∨ (s.repl.halted = none ∧ fenceCheck s = haltWith s .fenced) := by
  rw [fenceCheck]
  split
  · exact .inl rfl
  · split
    · rename_i h
      exact .inr ⟨h.2, rfl⟩
    · exact .inl rfl

theorem Held.fenceCheck (h : Held cfg P base s) : Held cfg P base (fenceCheck s) ∧
    record (fenceCheck s).log = record s.log := by
  rcases fenceCheck_cases s with he | ⟨_, he⟩
  · rw [he]
    exact ⟨h, rfl⟩
  · rw [he]
    exact ⟨h.haltWith .fenced, record_haltWith s .fenced⟩

theorem fenceCheck_batch (s : State G) : (Gateway.fenceCheck s).batch = s.batch := by
  rcases fenceCheck_cases s with he | ⟨_, he⟩
  · rw [he]
  · rw [he]
    rfl

theorem Held.serviceAndCheck (h : Held cfg P base s) (group : List Datagram)
    (control : List (Nat × Datagram)) :
    Held cfg P base (serviceAndCheck s group control) ∧
    record (serviceAndCheck s group control).log = record s.log ∧
      (serviceAndCheck s group control).batch = s.batch := by
  have q := service_quietly s group control
  obtain ⟨h1, h2⟩ := (h.quietly q).fenceCheck
  refine ⟨h1, h2.trans q.record, ?_⟩
  rw [Gateway.serviceAndCheck, fenceCheck_batch, publisherCall_batch]

theorem accept_quietly (s : State G) (fds : List Fd) : Quietly s (accept s fds) ∧
    (accept s fds).batch = s.batch := by
  induction fds generalizing s with
  | nil => exact ⟨.refl s, rfl⟩
  | cons fd fds ih =>
      rw [accept]
      obtain ⟨q, hb⟩ :=
        ih (State.emit { s with sessions := ⟨if (s.sessions.conns fd).isSome then s.sessions.conns
        else Function.update s.sessions.conns fd (some { owner := s.sessions.nextOwner }),
        Function.update s.sessions.ownerFd s.sessions.nextOwner (some fd),
        s.sessions.nextOwner + 1⟩ }
        [.accept fd s.sessions.nextOwner])
      refine ⟨Quietly.trans ?_ q, hb⟩
      refine ⟨⟨[.accept fd s.sessions.nextOwner], rfl, by simp [Action.plain]⟩, rfl, rfl, rfl, rfl,
        id, UInt64.le_refl _, id, ?_⟩
      intro fd' c hc item hitem
      simp only [State.emit] at hc
      split at hc
      · exact .inl ⟨fd', c, hc, hitem⟩
      · by_cases hfd : fd' = fd
        · subst hfd
          rw [Function.update_self] at hc
          cases hc
          cases hitem
        · rw [Function.update_of_ne hfd] at hc
          exact .inl ⟨fd', c, hc, hitem⟩

theorem Held.journalFlush (h : Held cfg P base s) (failed : Option Nat) :
    Held cfg P base (journalFlush s failed).1 ∧
    (record (journalFlush s failed).1.log).batch = (record s.log).batch ∧
      (record (journalFlush s failed).1.log).appended = (record s.log).appended ∧
      ((journalFlush s failed).2 = true → (record (journalFlush s failed).1.log).pending = [] ∧
        (journalFlush s failed).1.repl = { s.repl with journal := s.repl.journal.flush }) ∧
      ((journalFlush s failed).2 = false → (journalFlush s failed).1.repl.halted ≠ none) := by
  by_cases hfail : s.repl.journalFailed = true
  · have hdef : Gateway.journalFlush s failed = (s, false) := by simp [Gateway.journalFlush, hfail]
    rw [hdef]
    exact ⟨h, rfl, rfl, by simp, fun _ => h.failed hfail⟩
  · cases failed with
    | none =>
        have hdef : Gateway.journalFlush s none =
            (State.emit { s with repl.journal := s.repl.journal.flush } [.flush], true) := by
          simp [Gateway.journalFlush, hfail]
        rw [hdef]
        have hrec : record (s.log ++ [Action.flush]) =
            { record s.log with
              covered := (record s.log).covered ++ (record s.log).pending, pending := [] } :=
          record_snoc s.log _
        refine ⟨h.flushed _, ?_, ?_, fun _ => ⟨?_, rfl⟩, by simp⟩
        · exact (congrArg Record.batch hrec).trans rfl
        · refine (congrArg Record.appended hrec).trans ?_
          rw [Record.appended, List.append_nil]
          rfl
        · exact congrArg Record.pending hrec
    | some k =>
        let w : Journal.JournalWriter :=
          { file := s.repl.journal.file ++ s.repl.journal.buffer.take k
            buffer := s.repl.journal.buffer.drop k }
        have hdef : Gateway.journalFlush s (some k) =
            (Gateway.haltWith { s with repl.journal := w, repl.journalFailed := true }
              .journalError, false) := by
          simp [Gateway.journalFlush, hfail, w]
        rw [hdef]
        have hrec :=
          record_haltWith { s with repl.journal := w, repl.journalFailed := true } .journalError
        refine ⟨h.halting w true (fun hno => nomatch hno) .journalError, ?_,
          ?_, by simp, fun _ => ?_⟩
        · exact congrArg Record.batch hrec
        · exact congrArg Record.appended hrec
        · simp [Gateway.haltWith, State.emit]

/-- A sync through `journal_io`: without success the gateway has halted, unless the journal had
failed before. -/
theorem Held.journalSync (h : Held cfg P base s) (failed : Option Nat) (fsync : Bool) :
    Held cfg P base (journalSync s failed fsync).1 ∧
    (record (journalSync s failed fsync).1.log).batch = (record s.log).batch ∧
      (journalSync s failed fsync).1.batch = s.batch := by
  obtain ⟨hf, hbatch, _, _, _⟩ := h.journalFlush failed
  have hsame : (Gateway.journalFlush s failed).1.batch = s.batch := by
    simp only [Gateway.journalFlush]
    split
    · rfl
    · cases failed <;> rfl
  simp only [Gateway.journalSync]
  split
  · refine ⟨hf.halting _ true (fun hno => nomatch hno) .journalError, ?_, hsame⟩
    exact (congrArg Record.batch (record_haltWith _ .journalError)).trans hbatch
  · exact ⟨hf, hbatch, hsame⟩

theorem appendReport_items {conns : Fd → Option Conn} {fd : Fd} {new : Item} {fd' : Fd} {c : Conn}
    (hc : appendReport conns fd new fd' = some c) {item : Item} (hitem : item ∈ c.out) :
    item = new ∨ ∃ c', conns fd' = some c' ∧ item ∈ c'.out := by
  cases hk : conns fd with
  | none =>
      simp only [appendReport, hk] at hc
      exact .inr ⟨c, hc, hitem⟩
  | some k =>
      simp only [appendReport, hk] at hc
      by_cases hfd : fd' = fd
      · subst hfd
        rw [Function.update_self] at hc
        cases hc
        rcases List.mem_append.mp hitem with hitem | hitem
        · exact .inr ⟨k, hk, hitem⟩
        · exact .inl (List.mem_singleton.mp hitem)
      · rw [Function.update_of_ne hfd] at hc
        exact .inr ⟨c, hc, hitem⟩

theorem Sink.onEvent_items (k : Sink) (w : Written) (e : Event) {fd : Fd} {c : Conn}
    (hc : (k.onEvent w e).conns fd = some c) {item : Item} (hitem : item ∈ c.out) :
    item.seq = k.seq ∨ ∃ c', w.conns fd = some c' ∧ item ∈ c'.out := by
  simp only [Sink.onEvent] at hc
  split at hc
  · rcases appendReport_items hc hitem with rfl | h
    · exact .inl rfl
    · exact .inr h
  · split at hc
    · rcases appendReport_items hc hitem with rfl | h
      · exact .inl rfl
      · exact .inr h
    · rcases appendReport_items hc hitem with rfl | ⟨c', hc', hitem'⟩
      · exact .inl rfl
      · rcases appendReport_items hc' hitem' with rfl | h
        · exact .inl rfl
        · exact .inr h

theorem Sink.foldl_items (k : Sink) (events : List Event) (w : Written) {fd : Fd} {c : Conn}
    (hc : (events.foldl k.onEvent w).conns fd = some c) {item : Item} (hitem : item ∈ c.out) :
    item.seq = k.seq ∨ ∃ c', w.conns fd = some c' ∧ item ∈ c'.out := by
  induction events generalizing w with
  | nil => exact .inr ⟨c, hc, hitem⟩
  | cons e events ih =>
      rcases ih (k.onEvent w e) hc with h | ⟨c', hc', hitem'⟩
      · exact .inl h
      · exact k.onEvent_items w e hc' hitem'

theorem deliver_quietly (cfg : GatewayConfig) (desk : Desk G) (s : State G) (fd : Fd)
    (clientSeq : UInt64) (clientId : OrderId) {c : Command} (hc : c ∈ (record s.log).appended)
    (g : G) (events : List Event) :
    Quietly s (deliver cfg desk s fd clientSeq clientId c g events) := by
  refine ⟨⟨[.process fd c events], rfl, by simp [Action.plain]⟩, rfl, rfl, rfl, rfl, id,
    UInt64.le_refl _, id, ?_⟩
  intro fd' k hk item hitem
  simp only [deliver, State.emit] at hk
  rcases appendReport_items hk hitem with rfl | ⟨k', hk', hitem'⟩
  · exact .inr ⟨c, hc, rfl⟩
  · rcases Sink.foldl_items _ events _ hk' hitem' with h | ⟨k'', hk'', hitem''⟩
    · exact .inr ⟨c, hc, h.symm⟩
    · exact .inl ⟨fd', k'', hk'', hitem''⟩

/-- The invariant of the loop. -/
def Inv (cfg : GatewayConfig) (calm : Prop) (base : UInt64) (s : State G) : Prop :=
  Held cfg calm base s ∧ Placed cfg s

theorem Inv.handle {desk : Desk G} {fd : Fd} {off : Nat} {clientSeq : UInt64}
    {clientId : OrderId} {c : Command} {rest : List Ready} (h : Held cfg P base s)
    (hc : c ∈ (record s.log).batch) (i : Input) :
    Inv cfg P base (handle cfg desk s fd off clientSeq clientId c rest i) := by
  have crash : ∀ s : State G, Held cfg P base s → Inv cfg P base (s.at .crashed) :=
    fun s hs => ⟨hs.at .crashed, trivial⟩
  rw [Gateway.handle]
  split
  · exact crash _ h
  rename_i pub heq
  -- The publisher has staged the command; the loop goes on as without one.
  have hpub : (s.repl.pub.isSome = true → pub.isSome = true) ∧
      s.repl.acked ≤ (pub.map Publisher.acked).getD 0 := by
    rw [Replication.acked]
    cases hp : s.repl.pub with
    | none =>
        rw [hp] at heq
        obtain rfl := Option.some.inj heq
        exact ⟨id, UInt64.le_refl _⟩
    | some p =>
        rw [hp] at heq
        obtain ⟨p', hstaged, rfl⟩ := Option.map_eq_some_iff.mp heq
        exact ⟨fun _ => rfl, UInt64.le_of_eq (Publisher.publish_acked hstaged).symm⟩
  have q : Quietly s { s with repl.pub := pub } :=
    ⟨⟨[], (List.append_nil _).symm, List.forall_mem_nil _⟩, rfl, rfl, rfl, rfl, id, hpub.2, hpub.1,
      fun fd c hc _ hitem => .inl ⟨fd, c, hc, hitem⟩⟩
  have h1 := h.quietly q
  simp only
  cases desk.process s.core.gate c with
  | none => exact crash _ h1
  | some r =>
      obtain ⟨g, events⟩ := r
      have q' := deliver_quietly cfg desk { s with repl.pub := pub } fd clientSeq clientId
        (record_batch_subset s.log c hc) g events
      have h2 := h1.quietly q'
      generalize hs2 :
        deliver cfg desk { s with repl.pub := pub } fd clientSeq clientId c g events = s2 at h2 q'
      have hany : s2.batch.journaledAny = true := by
        rw [← hs2]
        rfl
      have h3 : Held cfg P base { s2 with repl.sinceSync := (syncDue cfg s2.repl.sinceSync).2 } :=
        h2.quietly ⟨⟨[], (List.append_nil _).symm, List.forall_mem_nil _⟩, rfl, rfl, rfl, rfl, id,
          UInt64.le_refl _, id, fun fd c hc _ hitem => .inl ⟨fd, c, hc, hitem⟩⟩
      simp only [hs2]
      by_cases hdue : (syncDue cfg s2.repl.sinceSync).1 = true
      · rw [if_pos hdue]
        obtain ⟨h4, _, hbatch⟩ := h3.journalSync i.flush i.fsync
        have begun : Begun (Gateway.journalSync
            { s2 with repl.sinceSync := (syncDue cfg s2.repl.sinceSync).2 } i.flush i.fsync).1 := by
          intro hnone
          rw [hbatch] at hnone
          rw [hany] at hnone
          cases hnone
        split
        · exact ⟨h4.at _, begun⟩
        · exact ⟨h4.at _, begun⟩
      · rw [if_neg hdue]
        refine ⟨h3.at _, fun hnone => ?_⟩
        change s2.batch.journaledAny = false at hnone
        rw [hany] at hnone
        cases hnone

theorem Inv.onReady (h : Held cfg P base s) (begun : Begun s) {fd : Fd} {w r : Bool}
    {rest : List Ready} (calm : P → w = true → s.repl.halted = none → ∀ c,
      s.sessions.conns fd = some c → ∀ item ∈ c.unsent,
      ∀ cmd ∈ (record s.log).batch, item.seq ≠ cmd.seq) (i : Input) :
    Inv cfg P base (onReady s fd w r rest i) := by
  rw [Gateway.onReady]
  split
  · exact ⟨h.at _, begun⟩
  rename_i hrun
  rw [not_not] at hrun
  have hwrite : Held cfg P base (if w = true then tryWrite s fd i.sends else s) ∧
      Writes s (if w = true then tryWrite s fd i.sends else s) := by
    split
    · rename_i hw
      refine h.tryWrite (fun hq c hc item hitem => ?_) i.sends
      obtain ⟨cmd, hcmd, he⟩ := h.items fd c hc item (c.unsent_subset hitem)
      refine ⟨cmd, hcmd, he, h.earlier cmd hcmd fun hb => ?_⟩
      exact calm hq hw hrun c hc item hitem cmd hb he.symm
    · exact ⟨h, .refl s⟩
  obtain ⟨h1, hw⟩ := hwrite
  generalize (if w = true then tryWrite s fd i.sends else s) = s1 at h1 hw
  have begun1 : Begun s1 := by
    intro hnone
    rw [hw.record]
    rw [hw.batch] at hnone
    exact begun hnone
  simp only
  cases hc : s1.sessions.conns fd with
  | none => exact ⟨h1.at _, begun1⟩
  | some c =>
      simp only
      split
      · exact ⟨h1.at _, begun1⟩
      · cases i.received with
        | closed =>
            refine ⟨(h1.closeConn fd).at _, fun hnone => ?_⟩
            have hw' := closeConn_writes s1 fd
            exact (congrArg Record.batch hw'.record).trans (begun1 hnone)
        | again => exact ⟨h1.at _, begun1⟩
        | data p =>
            refine ⟨Held.at (h1.quietly ?_) _, begun1⟩
            refine ⟨⟨[], (List.append_nil _).symm, fun _ hx => nomatch hx⟩, rfl, rfl, rfl, rfl, id,
              UInt64.le_refl _, id, ?_⟩
            intro fd' k hk item hitem
            by_cases hfd : fd' = fd
            · subst hfd
              simp only [Function.update_self] at hk
              cases hk
              exact .inl ⟨fd', c, hc, hitem⟩
            · simp only [Function.update_of_ne hfd] at hk
              exact .inl ⟨fd', k, hk, hitem⟩

theorem Held.numbering (h : Held cfg P base s) (unwrapped : s.core.seq.toNat + 1 < 2 ^ 64)
    (hfail : s.repl.journalFailed = true) (ids : ClientIdMap) :
    Held cfg P base { s with core.ids := ids, core.seq := s.core.seq + 1 } := by
  have hgrow : s.core.seq ≤ s.core.seq + 1 := by
    rw [UInt64.le_iff_toNat_le, UInt64.toNat_add, show (1 : UInt64).toNat = 1 from rfl,
      Nat.mod_eq_of_lt unwrapped]
    exact Nat.le_succ _
  exact ⟨h.told, h.failed, UInt64.le_trans h.released_le hgrow, h.later, h.earlier, h.pending,
    fun c hc => UInt64.le_trans (h.numbered c hc) hgrow, h.acked, h.items, h.publisher, h.commits,
    h.sequenced.consecutive, fun hno => by rw [hfail] at hno; cases hno⟩

theorem Inv.stamp (h : Held cfg P base s) (begun : Begun s)
    (unwrapped : s.core.seq.toNat + 1 < 2 ^ 64) (fd : Fd) (owner : OwnerId) (off : Nat)
    (c : Command) (rest : List Ready) (i : Input) :
    Inv cfg P base (stamp cfg s fd owner off c rest i) := by
  simp only [Gateway.stamp]
  generalize (if cfg.trustClientIds = true then (s.core.ids, c.orderId)
    else if c.type = .newOrder then s.core.ids.forNew ⟨c.orderId, c.symbol, owner⟩
    else (s.core.ids, s.core.ids.find ⟨c.orderId, c.symbol, owner⟩)) = named
  split
  · rename_i hfail
    exact ⟨(h.numbering unwrapped hfail named.1).at _, begun⟩
  · rename_i hok
    rw [Bool.not_eq_true] at hok
    cases i.append with
    | none =>
        refine ⟨Held.at (h.appended unwrapped hok rfl named.1 _) _, ?_⟩
        change _ ∈ (record (s.log ++ [_])).batch
        rw [record_snoc]
        exact List.mem_append_right _ List.mem_cons_self
    | some k =>
        have hhalt :=
          h.halting { s.repl.journal with
            buffer := s.repl.journal.buffer ++ (Journal.recordBytes { c with
              orderId := named.2, seq := s.core.seq + 1, owner := owner, ts := i.now }).take k }
            true (fun hno => nomatch hno) .journalError
        refine ⟨Held.at (hhalt.numbering unwrapped rfl named.1) _, fun hnone => ?_⟩
        change (record (s.log ++ [_])).batch = []
        rw [record_snoc]
        exact begun hnone

theorem Inv.read (h : Held cfg P base s) (begun : Begun s)
    (unwrapped : s.core.seq.toNat + 1 < 2 ^ 64) (fd : Fd) (off : Nat) (rest : List Ready)
    (i : Input) : Inv cfg P base (read cfg s fd off rest i) := by
  rw [Gateway.read]
  cases hc : s.sessions.conns fd with
  | none => exact ⟨h.at _, begun⟩
  | some c =>
      simp only
      cases Wire.next c.inp off with
      | wait =>
          refine ⟨Held.at (h.quietly ?_) _, begun⟩
          refine ⟨⟨[], (List.append_nil _).symm, fun _ hx => nomatch hx⟩, rfl, rfl, rfl, rfl, id,
            UInt64.le_refl _, id, ?_⟩
          intro fd' k hk item hitem
          by_cases hfd : fd' = fd
          · subst hfd
            simp only [Function.update_self] at hk
            cases hk
            exact .inl ⟨fd', c, hc, hitem⟩
          · simp only [Function.update_of_ne hfd] at hk
            exact .inl ⟨fd', k, hk, hitem⟩
      | lost =>
          refine ⟨(h.closeConn fd).at _, fun hnone => ?_⟩
          exact (congrArg Record.batch (closeConn_writes s fd).record).trans (begun hnone)
      | skip n => exact ⟨h.at _, begun⟩
      | command cmd n => exact Inv.stamp h begun unwrapped fd c.owner (off + n) cmd rest i

private theorem Held.releasable (h : Held cfg P base s) (hnone : (record s.log).batch = []) :
    s.repl.halted = none → (record s.log).pending = [] ∧
      (cfg.waitReplica = true → s.repl.replicaLost = false →
        ∀ c ∈ (record s.log).appended, c.seq ≤ s.repl.acked) := by
  intro _
  constructor
  · refine List.eq_nil_iff_forall_not_mem.mpr fun c hc => ?_
    have := h.pending c hc
    rw [hnone] at this
    cases this
  · intro hw hlost c hc
    refine h.acked hw hlost c hc (h.earlier c hc ?_)
    rw [hnone]
    exact List.not_mem_nil

theorem Inv.commit (h : Held cfg P base s) (begun : Begun s) (i : Input) :
    Inv cfg P base (commit cfg s i) := by
  simp only [Gateway.commit]
  by_cases hany : s.batch.journaledAny = true
  swap
  · rw [if_neg hany]
    exact ⟨h.at _, h.releasable (begun (by simpa using hany))⟩
  rw [if_pos hany]
  obtain ⟨h1, hbatch, _, hdone, hbad⟩ := h.journalFlush i.flush
  by_cases hok : (Gateway.journalFlush s i.flush).2 = true
  swap
  · rw [if_neg hok]
    exact ⟨h1.at _, fun hrun => absurd hrun (hbad (by simpa using hok))⟩
  rw [if_pos hok]
  obtain ⟨hpending, hrepl⟩ := hdone hok
  generalize (Gateway.journalFlush s i.flush).1 = s1 at h1 hpending hrepl
  cases hp : s1.repl.pub with
  | none =>
      refine ⟨h1.at _, fun _ => ⟨hpending, fun hw => ?_⟩⟩
      have := h1.publisher hw
      rw [hp] at this
      cases this
  | some p =>
      simp only
      have q : Quietly s1 (if p.fenced = true then s1 else publisherCall s1 fun p =>
        p.flush i.flushNow) := by
        split
        · exact .refl s1
        · exact publisherCall_quietly s1 fun p => UInt64.le_of_eq (p.flush_acked i.flushNow).symm
      have h2 := h1.quietly q
      have hpending2 := (congrArg Record.pending q.record).trans hpending
      generalize (if p.fenced = true then s1 else publisherCall s1 fun p => p.flush i.flushNow) =
        s2 at h2 hpending2
      split
      · exact ⟨h2.at _, hpending2⟩
      · rename_i hwait
        refine ⟨h2.at _, fun hrun => ⟨hpending2, fun hw hlost => ?_⟩⟩
        change s2.repl.halted = none at hrun
        change s2.repl.replicaLost = false at hlost
        exact absurd ⟨hw, by simpa using hlost, hrun⟩ hwait

/-- While the replica is waited for, whoever sees its acknowledgement of the last command may
release. -/
private theorem Held.awaited (h : Held cfg P base s) (hpending : (record s.log).pending = [])
    (hack : s.core.seq ≤ s.repl.acked) :
    Inv cfg P base (s.at .release) := by
  refine ⟨h.at _, fun _ => ⟨hpending, fun _ _ c hc => ?_⟩⟩
  exact UInt64.le_trans (h.numbered c hc) hack

private theorem Held.atRelease (h : Held cfg P base s) (hhalt : s.repl.halted ≠ none) :
    Inv cfg P base (s.at .release) :=
  ⟨h.at _, fun hrun => absurd hrun hhalt⟩

theorem Inv.expire (h : Held cfg P base s) (hpending : (record s.log).pending = []) (i : Input) :
    Inv cfg P base (expire cfg s i) := by
  obtain ⟨h1, hrec, _⟩ := h.serviceAndCheck i.group i.control
  rw [Gateway.expire]
  generalize Gateway.serviceAndCheck s i.group i.control = s1 at h1 hrec
  simp only
  split
  · rename_i hhalt
    exact h1.atRelease hhalt
  · split
    · exact (h1.haltWith .replicaLost).atRelease (by simp [Gateway.haltWith, State.emit])
    · refine ⟨Held.at ?_ _, fun _ => ⟨?_, fun _ hlost => nomatch hlost⟩⟩
      · refine h1.quietly ⟨⟨[.replicaLost], rfl, by simp [Action.plain]⟩, rfl, rfl, rfl, rfl, ?_,
          UInt64.le_refl _, id, fun fd c hc _ hitem => .inl ⟨fd, c, hc, hitem⟩⟩
        intro hlost
        cases hlost
      · change (record (s1.log ++ [_])).pending = []
        rw [record_snoc, ← hpending, ← hrec]
        rfl

theorem Inv.waitPass (h : Held cfg P base s) (hpending : (record s.log).pending = [])
    (since : UInt64) (i : Input) :
    Inv cfg P base (waitPass cfg s since i) := by
  rw [Gateway.waitPass]
  split
  · rename_i hack
    exact h.awaited hpending hack
  have q := service_quietly s i.group i.control
  have h1 := h.quietly q
  have hpending1 := (congrArg Record.pending q.record).trans hpending
  generalize (publisherCall s fun p => p.service i.group i.control) = s1 at h1 hpending1
  simp only
  split
  · rename_i hack
    exact h1.awaited hpending1 hack
  obtain ⟨h2, hrec⟩ := h1.fenceCheck
  have hpending2 := (congrArg Record.pending hrec).trans hpending1
  generalize Gateway.fenceCheck s1 = s2 at h2 hpending2
  split
  · rename_i hhalt
    exact h2.atRelease hhalt
  split
  · exact ⟨h2.at _, hpending2⟩
  · have q' := heartbeat_quietly s2 i.now 2000000
    exact ⟨(h2.quietly q').at _, (congrArg Record.pending q'.record).trans hpending2⟩

theorem publishMd_quietly (cfg : GatewayConfig) (desk : Desk G) (s : State G) :
    Quietly s (publishMd cfg desk s) ∧ (publishMd cfg desk s).repl = s.repl := by
  rw [publishMd]
  split
  · refine ⟨⟨⟨[_], rfl, ?_⟩, rfl, rfl, rfl, rfl, id, UInt64.le_refl _, id,
      fun fd c hc _ hitem => .inl ⟨fd, c, hc, hitem⟩⟩, rfl⟩
    simp [Action.plain]
  · exact ⟨.refl s, rfl⟩

theorem Inv.release (desk : Desk G) (h : Held cfg P base s)
    (ready : s.repl.halted = none → (record s.log).pending = [] ∧
      (cfg.waitReplica = true → s.repl.replicaLost = false →
      ∀ c ∈ (record s.log).appended, c.seq ≤ s.repl.acked)) (i : Input) :
    Inv cfg P base (release cfg desk s i) := by
  rw [Gateway.release]
  split
  · refine ⟨Held.at (h.quietly ?_) _, trivial⟩
    refine ⟨⟨[.closeAll], rfl, by simp [Action.plain]⟩, rfl, rfl, rfl, rfl, id,
      UInt64.le_refl _, id, ?_⟩
    intro fd c hc
    cases hc
  rename_i hrun
  rw [not_not] at hrun
  obtain ⟨hpending, hack⟩ := ready hrun
  have h1 := h.committed hrun hpending hack
  have hnone :
      (record (State.emit { s with released := s.core.seq } [.commit]).log).batch = [] := by
    change (record (s.log ++ [_])).batch = []
    rw [record_snoc, Record.step]
  generalize hs1 : State.emit { s with released := s.core.seq } [.commit] = s1 at h1 hnone
  have hall : s1.released = s1.core.seq := by
    rw [← hs1]
    rfl
  have q := (publishMd_quietly cfg desk s1).1.trans
    (heartbeat_quietly (publishMd cfg desk s1) i.now 20000000)
  have h2 := h1.quietly q
  simp only
  generalize (publisherCall (publishMd cfg desk s1) fun p => p.heartbeatIfIdle i.now 20000000) =
    s2 at q h2
  -- Everything that has been numbered is released, so every buffer may be written.
  have ok : P → ∀ fd, Writable s2 fd := by
    intro _ fd c hc item hitem
    obtain ⟨cmd, hcmd, he⟩ := h2.items fd c hc item (c.unsent_subset hitem)
    refine ⟨cmd, hcmd, he, ?_⟩
    rw [q.released, hall, ← q.seq]
    exact h2.numbered cmd hcmd
  obtain ⟨h3, hw⟩ := h2.writeTouched ok s2.batch.touched i.writes
  refine ⟨h3.at _, ?_⟩
  change (record (writeTouched s2 s2.batch.touched i.writes).log).batch = []
  rw [hw.record, q.record]
  exact hnone

theorem Inv.shutdown (h : Held cfg P base s) (i : Input) : Inv cfg P base (shutdown s i) := by
  rw [Gateway.shutdown]
  obtain ⟨h1, _, _⟩ := h.journalSync i.flush i.fsync
  have q := publisherCall_quietly (Gateway.journalSync s i.flush i.fsync).1 fun p =>
    UInt64.le_of_eq (p.finish_acked i.now).symm
  exact ⟨(h1.quietly q).at _, trivial⟩

theorem Inv.step (desk : Desk G) (h : Inv cfg P base s) (unwrapped : s.core.seq.toNat + 1 < 2 ^ 64)
    (calm : P → Calm s) (i : Input) : Inv cfg P base (step cfg desk s i) := by
  obtain ⟨h, placed⟩ := h
  rw [Placed] at placed
  rw [Gateway.step]
  cases hpc : s.pc with
  | poll =>
      rw [hpc] at placed
      simp only at placed ⊢
      split
      · exact ⟨h.at _, trivial⟩
      · refine ⟨(h.polled placed _).at _, fun _ => ?_⟩
        change (record (s.log ++ [_])).batch = []
        rw [record_snoc, Record.step]
  | batch rest =>
      rw [hpc] at placed
      simp only at placed
      cases rest with
      | nil => exact Inv.commit h placed i
      | cons e rest =>
          cases e with
          | listener =>
              obtain ⟨q, hb⟩ := accept_quietly s i.accepted
              refine ⟨(h.quietly q).at _, fun hnone => ?_⟩
              change (accept s i.accepted).batch.journaledAny = false at hnone
              rw [hb] at hnone
              exact (congrArg Record.batch q.record).trans (placed hnone)
          | control =>
              obtain ⟨h1, hrec, hb⟩ := h.serviceAndCheck i.group i.control
              refine ⟨h1.at _, fun hnone => ?_⟩
              change (serviceAndCheck s i.group i.control).batch.journaledAny = false at hnone
              rw [hb] at hnone
              exact (congrArg Record.batch hrec).trans (placed hnone)
          | conn fd w r =>
              refine Inv.onReady h placed (fun hq hw hrun => ?_) i
              subst hw
              exact (calm hq).writable fd r rest hpc hrun
  | reading fd off rest =>
      rw [hpc] at placed
      exact Inv.read h placed unwrapped fd off rest i
  | logged fd off clientSeq clientId c rest =>
      rw [hpc] at placed
      exact Inv.handle h placed i
  | waiting since =>
      rw [hpc] at placed
      exact Inv.waitPass h placed since i
  | expiring =>
      rw [hpc] at placed
      exact Inv.expire h placed i
  | release =>
      rw [hpc] at placed
      exact Inv.release desk h placed i
  | shutdown => exact Inv.shutdown h i
  | stopped =>
      refine ⟨h, ?_⟩
      rw [Placed, hpc]
      trivial
  | crashed =>
      refine ⟨h, ?_⟩
      rw [Placed, hpc]
      trivial

theorem Inv.start (gate : G) (journal : Journal.JournalWriter) {pub : Option Publisher}
    (digest : List Event) (seq : UInt64) (nextOwner : OwnerId) (firstExchangeId : OrderId)
    (hpub : cfg.waitReplica = true → pub.isSome = true) :
    Inv cfg P seq (Gateway.start gate journal pub digest seq nextOwner firstExchangeId) := by
  have none : record (Gateway.start gate journal pub digest seq nextOwner firstExchangeId).log =
    {} := rfl
  refine ⟨⟨?_, ?_, UInt64.le_refl _, ?_, ?_, ?_, ?_, ?_, ?_, hpub, fun pre post h => ?_, ?_⟩, rfl⟩
  · refine fun _ => ⟨Lib.always_nil, ?_, ?_, ?_⟩
    · intro fd items acked lost h
      cases h
    · intro pre why post h
      exact absurd h (by simp [Gateway.start])
    · intro _ why h
      cases h
  · intro h
    cases h
  · rw [none]
    intro c hc
    cases hc
  · rw [none]
    intro c hc
    cases hc
  · rw [none]
    intro c hc
    cases hc
  · rw [none]
    intro c hc
    cases hc
  · rw [none]
    intro _ _ c hc
    cases hc
  · intro fd c hc
    cases hc
  · exact absurd h (by simp [Gateway.start])
  · rw [none]
    exact ⟨fun i c hc => by simp [Record.appended] at hc, fun _ => rfl⟩

theorem Inv.run (desk : Desk G) (h : Inv cfg True base s) (is : List Input)
    (calm : ∀ pre, pre <+: is → Calm (run cfg desk s pre)) :
    Inv cfg True base (run cfg desk s is) := by
  induction is generalizing s with
  | nil => exact h
  | cons i is ih =>
      have hcalm := calm [] List.nil_prefix
      refine ih (h.step desk hcalm.unwrapped (fun _ => hcalm) i) fun pre hpre => ?_
      exact calm (i :: pre) (List.cons_prefix_cons.mpr ⟨rfl, hpre⟩)

/-- In every run whose states are calm, no report leaves before its command is journaled and
acknowledged, and none of a command whose batch the gateway halted in. -/
theorem commits_before_responding (cfg : GatewayConfig) (desk : Desk G) (gate : G)
    (journal : Journal.JournalWriter) (pub : Option Publisher) (digest : List Event) (seq : UInt64)
    (nextOwner : OwnerId) (firstExchangeId : OrderId)
    (hpub : cfg.waitReplica = true → pub.isSome = true) (is : List Input)
    (calm : ∀ pre, pre <+: is →
      Calm (run cfg desk (start gate journal pub digest seq nextOwner firstExchangeId) pre)) :
    CommitBeforeRespond cfg (run cfg desk
      (start gate journal pub digest seq nextOwner firstExchangeId) is).log :=
  (((Inv.start gate journal digest seq nextOwner firstExchangeId hpub).run desk is calm).1.told
    trivial).commitBeforeRespond

/-! ### A session that is written to too early -/

def smallGate : RiskGate (OrderBook AosStore) :=
  .make ⟨1, fun s => .make scatterHash (UInt32.ofNat s) { numLevels := 64, maxOrders := 4 }⟩ {}

def smallOrder (id : OrderId) (side : Side) (qty : Qty) : Command :=
  { orderId := id, price := 5, qty := qty, seq := 1, type := .newOrder, side := side }

/-- A step that asks for nothing but defaults. -/
def idle : Input := {}

/-- Session 3 enters an order whose reports do not fit its socket. -/
def fullSocket : List Input :=
  [{ ready := [.listener] }, { accepted := [3, 4] }, idle, idle,
    { ready := [.conn 3 false true] }, { received := .data (Wire.encode (smallOrder 7 .sell 2)) },
    idle, idle, idle, idle,
    { writes := [[.sent 10, .again]] }]

/-- Its socket takes the rest before the next command. -/
def drained : List Input := fullSocket ++
  [{ ready := [.conn 3 true false] }, { sends := [.sent 1000] }, idle, idle,
    { ready := [.conn 4 false true] }, { received := .data (Wire.encode (smallOrder 9 .buy 1)) },
    idle, idle, idle, idle, idle]

theorem commits_before_responding_small :
    (∀ pre, pre <+: drained → Calm (run {} desk (start smallGate .create none [] 0 1 1) pre)) ∧
      CommitBeforeRespond {} (run {} desk (start smallGate .create none [] 0 1 1) drained).log := by
  have calm : ∀ pre, pre <+: drained →
      Calm (run {} desk (start smallGate .create none [] 0 1 1) pre) := by
    have hall : ∀ pre ∈ drained.inits,
        Calm (run {} desk (start smallGate .create none [] 0 1 1) pre) := by
      decide +kernel
    exact fun pre hpre => hall pre ((List.mem_inits pre drained).mpr hpre)
  exact ⟨calm, commits_before_responding {} desk smallGate .create none [] 0 1 1
    (by decide) drained calm⟩

/-- Session 4 trades with the order, and session 3 becomes writable in the same batch. -/
def overtaken : List Input := fullSocket ++
  [{ ready := [.conn 4 false true, .conn 3 true false] },
    { received := .data (Wire.encode (smallOrder 9 .buy 1)) },
    idle, idle, idle, { sends := [.sent 1000] }]

/-- The report of the trade is passed to `send` while the command is only in the journal's
buffer. -/
theorem responds_before_commit :
    ¬ CommitBeforeRespond {} (run {} desk
      (start smallGate .create none [] 0 1 1) overtaken).log := by
  intro h
  have hsend : ∃ items, (run {} desk (start smallGate .create none [] 0 1 1) overtaken).log =
      (run {} desk (start smallGate .create none [] 0 1 1) overtaken).log.dropLast ++
      [.send 3 items 0 false] ∧
      ∃ item ∈ items, item.seq = 2 := by
    exact ⟨[⟨1, .exec (acceptedEvent 0 7 .sell 5 2) 1⟩, ⟨1, .done 0 1⟩,
      ⟨2, .exec (tradeEvent 0 0 7 .buy 5 1 1) 0⟩], by decide +kernel, by decide⟩
  obtain ⟨items, hlog, item, hitem, hseq⟩ := hsend
  obtain ⟨c, hc, he⟩ := (h.sends _ _ [] hlog item hitem).1
  have hnone :
    ∀ c ∈ (record (run {} desk (start smallGate .create none [] 0 1 1)
      overtaken).log.dropLast).covered,
      c.seq ≠ 2 := by
    decide +kernel
  exact hnone c hc (he.trans hseq)

end ExchangeSim.Gateway
