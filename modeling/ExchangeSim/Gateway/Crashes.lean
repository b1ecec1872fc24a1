/- digest: What any number of servers leave that are killed one after another: the journal that is
   recovered, and ids and owners that are not in it. -/

import ExchangeSim.Gateway.Unused

set_option autoImplicit false
set_option relaxedAutoImplicit false

namespace ExchangeSim.Gateway

open Journal (written journalScan)
open Lib (Bytes)

section Steps

variable {G : Type} {cfg : GatewayConfig} {desk : Desk G} {s s' : State G} {old : List Command}
    {first : OwnerId}

/-! ### What a step hands out -/

/-- An order that gets an exchange id in the step from `s` to `s'` gets one that none of the
commands `cs` bears. -/
def IdsNew (cs : List Command) (s s' : State G) : Prop :=
  ∀ k x, s'.core.ids.fwd k = some x → s.core.ids.fwd k ≠ some x → ∀ c ∈ cs, c.orderId ≠ x

/-- A session that gets an owner in the step from `s` to `s'` gets one that none of the commands
`cs` bears. -/
def OwnersNew (cs : List Command) (s s' : State G) : Prop :=
  ∀ fd o, s'.seats.owner fd = some o → s.seats.owner fd ≠ some o → ∀ c ∈ cs, c.owner ≠ o

theorem forNew_hands_out (m : ClientIdMap) (key k : Key) {x : OrderId}
    (h : (m.forNew key).1.fwd k = some x) : m.fwd k = some x ∨ x = m.next := by
  rw [ClientIdMap.forNew] at h
  split at h
  · exact .inl h
  · cases hkey : m.fwd key with
    | some y =>
        rw [hkey] at h
        exact .inl h
    | none =>
        rw [hkey] at h
        have h : Function.update m.fwd key (some m.next) k = some x := h
        by_cases hk : k = key
        · subst hk
          rw [Function.update_self] at h
          exact .inr (Option.some.inj h).symm
        · rw [Function.update_of_ne hk] at h
          exact .inl h

theorem step_hands_out (cfg : GatewayConfig) (desk : Desk G) (s : State G) (i : Input)
    {k : Key} {x : OrderId} (h : (step cfg desk s i).core.ids.fwd k = some x) :
    s.core.ids.fwd k = some x ∨ (cfg.trustClientIds = false ∧ x = s.core.ids.next) := by
  rcases step_bare cfg desk s i with hbare | ⟨fd, off, rest, conn, cmd, -, heq⟩
  · exact .inl (hbare.fwd k x h)
  · rw [heq, (stamp_cases cfg s fd conn.owner off cmd rest i).1] at h
    cases trust : cfg.trustClientIds with
    | true =>
        simp only [trust, if_true] at h
        exact .inl h
    | false =>
        simp only [trust, Bool.false_eq_true, if_false] at h
        split at h
        · exact (forNew_hands_out _ _ k h).imp_right fun hx => ⟨rfl, hx⟩
        · exact .inl h

theorem FreshIds.new (h : cfg.trustClientIds = false → FreshIds old s) (i : Input) :
    IdsNew (old ++ (record s.log).appended) s (Gateway.step cfg desk s i) := by
  intro k x hx hnew c hc heq
  obtain ⟨trust, rfl⟩ := (step_hands_out cfg desk s i hx).resolve_left hnew
  exact absurd heq (UInt64.ne_of_lt ((h trust).ids c hc))

theorem Roster.seat_foldl (acts : List Action) (r : Roster) {fd : Fd} {n : Nat}
    (h : (acts.foldl Roster.step r).seat fd = some n) : r.seat fd = some n ∨ r.count ≤ n := by
  induction acts generalizing r with
  | nil => exact .inl h
  | cons a acts ih =>
      have hone : (r.step a).seat fd = some n → r.seat fd = some n ∨ r.count ≤ n := by
        intro ha
        cases a with
        | accept f owner =>
            by_cases hopen : (r.seat f).isSome
            · rw [Roster.step, if_pos hopen] at ha
              exact .inl ha
            · rw [Roster.step, if_neg hopen] at ha
              have ha : Function.update r.seat f (some r.count) fd = some n := ha
              by_cases hf : fd = f
              · subst hf
                rw [Function.update_self] at ha
                exact .inr (Nat.le_of_eq (Option.some.inj ha))
              · rw [Function.update_of_ne hf] at ha
                exact .inl ha
        | close f =>
            have ha : Function.update r.seat f none fd = some n := ha
            by_cases hf : fd = f
            · subst hf
              rw [Function.update_self] at ha
              cases ha
            · rw [Function.update_of_ne hf] at ha
              exact .inl ha
        | closeAll => cases ha
        | process f c events =>
            rw [Roster.step] at ha
            split at ha <;> exact .inl ha
        | _ => exact .inl ha
      rcases ih (r.step a) h with hseat | hle
      · exact hone hseat
      · exact .inr (Nat.le_trans (r.count_step a) hle)

theorem FreshOwners.new (h : FreshOwners first old s) (i : Input)
    (hcount : first.toNat + (roster s.log).count < 2 ^ 32)
    (hcount' : first.toNat + (roster (Gateway.step cfg desk s i).log).count < 2 ^ 32) :
    OwnersNew (old ++ (record s.log).appended) s (Gateway.step cfg desk s i) := by
  intro fd o ho hnew c hc heq
  have h' : FreshOwners first old (Gateway.step cfg desk s i) := h.step i hcount
  rw [h'.seated.owner fd] at ho
  obtain ⟨n, hn, rfl⟩ := Option.map_eq_some_iff.mp ho
  obtain ⟨acts, hlogs⟩ := step_logs cfg desk s i
  have hlt := h'.seated.below fd n hn
  rw [hlogs.1, roster_append] at hn
  rcases Roster.seat_foldl acts (roster s.log) hn with hsame | hle
  · exact hnew (by rw [h.seated.owner fd, hsame]; rfl)
  · have hlow := h.owners c hc
    rw [heq, owner_toNat (by omega)] at hlow
    omega

end Steps

/-! ### Any number of crashes -/

section Crashes

open Book (OrderBook StoreLayout IndexHash)
open Engine (RiskGate MatchingEngine RiskConfig)

variable {σ : Type} [StoreLayout σ]

/-- However many servers have been killed before, the next one starts from the journal they left. If
it is killed too, its journal holds what it started from and then a front of the commands it took
up, and the server that recovers stands where the dead one stood after these. While the counters
have not wrapped, no order gets an id and no session an owner that the journal holds. -/
theorem recovery_exact_over_crashes (numSymbols : UInt32) (bookCfg : BookConfig)
    (risk : RiskConfig) (hash : IndexHash) (ok : bookCfg.Accepted) (file : Option Bytes)
    (before : Remains desk (RiskGate.make (MatchingEngine.make hash numSymbols bookCfg)
      risk : RiskGate (OrderBook σ)) file)
    (cfg : ServerConfig) :
    let fresh : RiskGate (OrderBook σ) :=
      RiskGate.make (MatchingEngine.make hash numSymbols bookCfg) risk
    ∃ old s, server desk fresh cfg file = some (.ok s) ∧ s.repl.journal = { file := written old } ∧
      ∀ is, (∀ k, ∃ scan kept, AfterKill desk fresh cfg.gateway old s is k scan kept) ∧
        ∀ i,
        let s₁ := run cfg.gateway desk s is
        let s₂ := step cfg.gateway desk s₁ i
        ((cfg.gateway.trustClientIds = false →
            ∀ pre, pre <+: is → (run cfg.gateway desk s pre).core.ids.next ≠ 0) →
          IdsNew (old ++ (record s₁.log).appended) s₁ s₂) ∧
        (s.sessions.nextOwner ≠ 0 →
          (∀ pre, pre <+: is ++ [i] → s.sessions.nextOwner.toNat +
            (roster (run cfg.gateway desk s pre).log).count < 2 ^ 32) →
          OwnersNew (old ++ (record s₁.log).appended) s₁ s₂) := by
  intro fresh
  obtain ⟨s, hserver⟩ : ∃ s, server desk fresh cfg file = some (.ok s) :=
    server_total numSymbols bookCfg risk hash ok before.sane cfg
  obtain ⟨old, r, hsound, hnum, hreplay, rfl⟩ := server_serves before.sane hserver
  have hstart : Journaling desk fresh old (r.serve cfg { file := written old }) none :=
    .start cfg hsound hnum hreplay
  refine ⟨old, _, hserver, rfl, fun is =>
    ⟨hstart.afterKill ok hash rfl cfg.gateway is, fun i => ?_⟩⟩
  refine ⟨fun unwrapped => FreshIds.new (fun trust => ?_) i, fun positive room => ?_⟩
  · have hpositive : r.maxOrderId + 1 ≠ 0 := unwrapped trust [] List.nil_prefix
    exact (FreshIds.start hreplay cfg hpositive).run trust is (unwrapped trust)
  · have hfront := List.prefix_append is [i]
    have howned : FreshOwners (r.maxOwner + 1) old
        (run cfg.gateway desk (r.serve cfg { file := written old }) is) :=
      (FreshOwners.start hreplay cfg positive).run is fun pre hpre => room pre (hpre.trans hfront)
    refine howned.new i (room is hfront) ?_
    rw [← run_snoc]
    exact room _ List.prefix_rfl

/-- A server that starts from what another one left, and is killed after it has handled an order. -/
theorem recovery_exact_over_crashes_again : ∃ old s,
    server desk smallGate {} (some leftBehind) = some (.ok s) ∧ s.core.seq = 1 ∧
      (∃ scan kept, AfterKill desk smallGate {} old s fullSocket 0 scan kept) ∧
      IdsNew (old ++ (record (run {} desk s (fullSocket.take 6)).log).appended)
        (run {} desk s (fullSocket.take 6))
        (step {} desk (run {} desk s (fullSocket.take 6)) idle) ∧
      OwnersNew (old ++ (record (run {} desk s (fullSocket.take 6)).log).appended)
        (run {} desk s (fullSocket.take 6))
        (step {} desk (run {} desk s (fullSocket.take 6)) idle) := by
  obtain ⟨old, s, started, -, hrun⟩ := recovery_exact_over_crashes 1
    { numLevels := 64, maxOrders := 4 } {} Book.scatterHash (by decide) (some leftBehind)
    leftBehind_remains {}
  have hroom : ∀ s ∈ (server desk smallGate {} (some leftBehind)).bind Except.toOption,
      s.core.seq = 1 ∧ s.sessions.nextOwner ≠ 0 ∧
      ∀ pre ∈ (fullSocket.take 6 ++ [idle]).inits, (run {} desk s pre).core.ids.next ≠ 0 ∧
        s.sessions.nextOwner.toNat + (roster (run {} desk s pre).log).count < 2 ^ 32 := by
    decide +kernel
  have hmem : s ∈ (server desk smallGate {} (some leftBehind)).bind Except.toOption := by
    have started : server desk smallGate {} (some leftBehind) = some (.ok s) := started
    rw [started]
    rfl
  obtain ⟨hseq, hpositive, hroom⟩ := hroom s hmem
  obtain ⟨hids, howners⟩ := (hrun (fullSocket.take 6)).2 idle
  refine ⟨old, s, started, hseq, (hrun fullSocket).1 0, hids fun _ pre hpre => ?_,
    howners hpositive fun pre hpre => ?_⟩
  · exact (hroom pre ((List.mem_inits pre _).mpr (hpre.trans (List.prefix_append _ _)))).1
  · exact (hroom pre ((List.mem_inits pre _).mpr hpre)).2

end Crashes

/-! ### Where the counters wrap -/

section Wraps

variable {G : Type} {s : State G}

/-- A session comes and goes. -/
def visitor : List Input :=
  [{ ready := [.listener] }, { accepted := [3] }, idle, idle, { ready := [.conn 3 false true] },
    { received := .closed }, idle, idle]

/-- The loop is at its start, and nobody is at 3. -/
structure Vacant (s : State G) : Prop where
  pc : s.pc = .poll
  seat : s.sessions.conns 3 = none
  running : s.repl.halted = none
  alone : s.repl.pub = none

theorem Vacant.visit (h : Vacant s) (desk : Desk G) :
    Vacant (run {} desk s visitor) ∧
      (run {} desk s visitor).sessions.nextOwner = s.sessions.nextOwner + 1 ∧
      ∃ acts, (run {} desk s visitor).log = s.log ++ acts ∧ ∀ a ∈ acts, a.told = false := by
  obtain ⟨hpc, hseat, hrun, hpub⟩ := h
  obtain ⟨sessions, core, repl, batch, pc, released, log⟩ := s
  obtain ⟨conns, ownerFd, nextOwner⟩ := sessions
  obtain ⟨journal, journalFailed, pub, replicaLost, halted, sinceSync⟩ := repl
  simp only at hpc hseat hrun hpub
  subst hpc hrun hpub
  have heq : run {} desk ⟨⟨conns, ownerFd, nextOwner⟩, core,
      ⟨journal, journalFailed, none, replicaLost, none, sinceSync⟩, batch, .poll, released, log⟩
        visitor =
      ⟨⟨Function.update (Function.update conns 3 (some { owner := nextOwner })) 3 none,
        Function.update (Function.update ownerFd nextOwner (some 3)) nextOwner none,
        nextOwner + 1⟩, core, ⟨journal, journalFailed, none, replicaLost, none, sinceSync⟩,
        { batch with journaledAny := false, touched := [] }, .poll, core.seq,
        log ++ [.poll, .accept 3 nextOwner, .commit, .poll, .close 3, .commit]⟩ := by
    simp [run, visitor, step, State.emit, State.at, accept, hseat, commit, release,
      publishMd, publisherCall, writeTouched, onReady, closeConn, idle]
  rw [heq]
  refine ⟨⟨rfl, by simp, rfl, rfl⟩, rfl, _, rfl, ?_⟩
  simp [Action.told]
theorem Vacant.visits (h : Vacant s) (desk : Desk G) (n : Nat) :
    Vacant (run {} desk s (List.replicate n visitor).flatten) ∧
      (run {} desk s (List.replicate n visitor).flatten).sessions.nextOwner =
        s.sessions.nextOwner + UInt32.ofNat n ∧
      ∃ acts, (run {} desk s (List.replicate n visitor).flatten).log = s.log ++ acts ∧
        ∀ a ∈ acts, a.told = false := by
  induction n generalizing s with
  | zero => exact ⟨h, (UInt32.add_zero _).symm, [], (List.append_nil _).symm, by simp⟩
  | succ n ih =>
      obtain ⟨hvacant, hnext, acts, hlog, hacts⟩ := h.visit desk
      obtain ⟨hvacant', hnext', acts', hlog', hacts'⟩ := ih hvacant
      have hrun : run {} desk s (List.replicate (n + 1) visitor).flatten =
          run {} desk (run {} desk s visitor) (List.replicate n visitor).flatten := by
        rw [List.replicate_succ, List.flatten_cons, run, List.foldl_append]
        rfl
      rw [hrun]
      refine ⟨hvacant', ?_, acts ++ acts', by rw [hlog', hlog, List.append_assoc], fun a ha => ?_⟩
      · rw [hnext', hnext, UInt32.ofNat_add]
        grind
      · rcases List.mem_append.mp ha with ha | ha
        · exact hacts a ha
        · exact hacts' a ha

theorem Vacant.comes (h : Vacant s) (desk : Desk G) :
    (run {} desk s [{ ready := [.listener] }]).log = s.log ++ [.poll] ∧
      (run {} desk s [{ ready := [.listener] }]).seats.owner 3 = none ∧
      (step {} desk (run {} desk s [{ ready := [.listener] }]) { accepted := [3] }).seats.owner 3 =
        some s.sessions.nextOwner := by
  simp [run, step, h.pc, State.emit, State.at, State.seats, accept, h.seat]

/-- Session 3 enters an order, and leaves. -/
def ordered : List Input :=
  [{ ready := [.listener] }, { accepted := [3] }, idle, idle, { ready := [.conn 3 false true] },
    { received := .data (Wire.encode (smallOrder 7 .sell 2)) }, idle, idle, idle, idle, idle,
    { ready := [.conn 3 false true] }, { received := .closed }, idle, idle]

/-- After the order of owner 1, so many sessions come and go that the next one is owner 1 again. -/
def lastVisit : List Input := ordered ++ (List.replicate (2 ^ 32 - 1) visitor).flatten ++
  [{ ready := [.listener] }]

end Wraps

/-- A session that names its orders itself, by 1 and by the last id. -/
def ownNames : List Input :=
  [{ ready := [.listener] }, { accepted := [3] }, idle, idle, { ready := [.conn 3 false true] },
    { received := .data (Wire.encode (smallOrder 1 .sell 2) ++
        Wire.encode (smallOrder (2 ^ 64 - 1) .sell 2)) }, idle, idle, idle, idle, idle, idle]

/-- What a server leaves that trusts these names. -/
def namedLeft : Bytes :=
  (run { trustClientIds := true } desk (start smallGate .create none [] 0 1 1) ownNames).remains 0

/-- The commands of its journal. -/
def namedJournal : List Command :=
  [{ smallOrder 1 .sell 2 with owner := 1 },
    { smallOrder (2 ^ 64 - 1) .sell 2 with owner := 1, seq := 2 }]

/-- Two orders for the server that recovers; the second is at hand. -/
def renamed : List Input :=
  [{ ready := [.listener] }, { accepted := [3] }, idle, idle, { ready := [.conn 3 false true] },
    { received := .data (Wire.encode (smallOrder 7 .sell 2) ++
        Wire.encode (smallOrder 8 .sell 2)) }, idle, idle]

theorem namedLeft_remains : Remains desk smallGate (some namedLeft) := by
  have started : server desk smallGate { gateway := { trustClientIds := true } } none =
      some (.ok (start smallGate .create none [] 0 1 1)) := rfl
  exact .killed .none started ownNames 0

/-- The recovered server calls the second order 1, as one in its journal is called. -/
theorem renamed_reuses : ∃ s, server desk smallGate {} (some namedLeft) = some (.ok s) ∧
    s.repl.journal = { file := written namedJournal } ∧
    ¬ IdsNew namedJournal (run {} desk s renamed) (step {} desk (run {} desk s renamed) idle) := by
  obtain ⟨s, started⟩ : ∃ s, server desk smallGate {} (some namedLeft) = some (.ok s) :=
    server_total 1 { numLevels := 64, maxOrders := 4 } {} Book.scatterHash (by decide)
      namedLeft_remains.sane {}
  have hrun : ∀ s ∈ (server desk smallGate {} (some namedLeft)).bind Except.toOption,
      s.repl.journal = { file := written namedJournal } ∧
        (run {} desk s renamed).core.ids.fwd ⟨8, 0, 2⟩ ≠ some 1 ∧
        (step {} desk (run {} desk s renamed) idle).core.ids.fwd ⟨8, 0, 2⟩ = some 1 := by
    decide +kernel
  rw [started] at hrun
  obtain ⟨hjournal, hbefore, hafter⟩ := hrun s rfl
  refine ⟨s, started, hjournal, fun h => ?_⟩
  exact h ⟨8, 0, 2⟩ 1 hafter hbefore { smallOrder 1 .sell 2 with owner := 1 } List.mem_cons_self rfl

theorem ordered_vacant {s : State (Engine.RiskGate (Book.OrderBook Book.AosStore))}
    (hs : s = run {} desk (start smallGate .create none [] 0 1 1) ordered) : Vacant s := by
  subst hs
  exact ⟨by decide +kernel, by decide +kernel, by decide +kernel,
    Option.isNone_iff_eq_none.mp (by decide +kernel)⟩

/-- After 2^32 - 1 visits a session is owner 1 again. -/
theorem lastVisit_reuses :
    let s := run {} desk (start smallGate .create none [] 0 1 1) lastVisit
    ¬ OwnersNew (record s.log).appended s (step {} desk s { accepted := [3] }) := by
  intro s h
  generalize hbase : run {} desk (start smallGate .create none [] 0 1 1) ordered = base
  have hvacant : Vacant base := ordered_vacant hbase.symm
  obtain ⟨hlater, hnext, acts, hlog, hacts⟩ := hvacant.visits desk (2 ^ 32 - 1)
  generalize hlast : run {} desk base (List.replicate (2 ^ 32 - 1) visitor).flatten = last at *
  have hs : s = run {} desk last [{ ready := [.listener] }] := by
    change run {} desk _ (ordered ++ _ ++ _) = _
    rw [run, List.foldl_append, List.foldl_append]
    change run {} desk (run {} desk (run {} desk _ ordered) _) _ = _
    rw [hbase, hlast]
  obtain ⟨hpoll, hempty, hseat⟩ := hlater.comes desk
  rw [← hs] at hpoll hempty hseat
  have howner : last.sessions.nextOwner = 1 := by
    have hfirst : base.sessions.nextOwner = 2 := by
      rw [← hbase]
      decide +kernel
    rw [hnext, hfirst]
    decide
  have happended : (record s.log).appended = (record base.log).appended := by
    rw [hpoll, hlog, List.append_assoc]
    refine appended_quiet _ fun a ha => ?_
    rcases List.mem_append.mp ha with ha | ha
    · exact untold_appends hacts a ha
    · rw [List.mem_singleton.mp ha]
      exact fun _ => Action.noConfusion
  have hjournaled : ∃ c ∈ (record base.log).appended, c.owner = 1 := by
    rw [← hbase]
    decide +kernel
  obtain ⟨c, hc, hone⟩ := hjournaled
  rw [howner] at hseat
  exact h 3 1 hseat (by rw [hempty]; simp) c (by rw [happended]; exact hc) hone

/-- A kill between an append and the engine leaves one command more than have been processed; with
the last id in the journal the next order gets 0, and the one after it 1; and the owners of sessions
begin again after the last one. -/
theorem crashes_exceed_processed_and_wrap :
    (∃ scan, journalScan (leftBehind.length + 1) leftBehind = some (.ok scan) ∧
      ¬ scan.delivered <+: processed
        (run {} desk (start smallGate .create none [] 0 1 1) (fullSocket.take 7)).log) ∧
    (Remains desk smallGate (some namedLeft) ∧
      ∃ s, server desk smallGate {} (some namedLeft) = some (.ok s) ∧
        s.repl.journal = { file := written namedJournal } ∧
        ¬ IdsNew namedJournal (run {} desk s renamed) (step {} desk (run {} desk s renamed) idle)) ∧
    ¬ OwnersNew
      (record (run {} desk (start smallGate .create none [] 0 1 1) lastVisit).log).appended
      (run {} desk (start smallGate .create none [] 0 1 1) lastVisit)
      (step {} desk (run {} desk (start smallGate .create none [] 0 1 1) lastVisit)
        { accepted := [3] }) := by
  refine ⟨?_, ⟨namedLeft_remains, renamed_reuses⟩, lastVisit_reuses⟩
  have hnone : processed
      (run {} desk (start smallGate .create none [] 0 1 1) (fullSocket.take 7)).log = [] := by
    decide +kernel
  have hone : ((journalScan (leftBehind.length + 1) leftBehind).bind Except.toOption).map
      (fun scan => scan.delivered.length) = some 1 := by
    decide +kernel
  obtain ⟨scan, hscan, hlength⟩ := Option.map_eq_some_iff.mp hone
  obtain ⟨r, hr, hok⟩ := Option.bind_eq_some_iff.mp hscan
  cases r with
  | error e => cases hok
  | ok scan' =>
      obtain rfl := Option.some.inj hok
      refine ⟨_, hr, fun h => ?_⟩
      rw [hnone] at h
      rw [List.prefix_nil.mp h] at hlength
      cases hlength

end ExchangeSim.Gateway
