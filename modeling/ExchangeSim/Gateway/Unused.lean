/- digest: No order id and no owner that a journal holds is handed out again, however often the
   server is killed and recovers. -/

import ExchangeSim.Gateway.IdMap
import ExchangeSim.Gateway.Recovery

set_option autoImplicit false
set_option relaxedAutoImplicit false

namespace ExchangeSim.Gateway

open Journal (written)

/-! ### The id map -/

namespace ClientIdMap

/-- Every id that the map gives out is below its counter. -/
def Below (m : ClientIdMap) : Prop := ∀ k x, m.fwd k = some x → x < m.next

theorem below_make (first : OrderId) : (make first).Below := by
  rintro k x ⟨⟩

theorem lt_succ {x : UInt64} (h : x + 1 ≠ 0) : x < x + 1 := by
  have hx : (x + 1).toNat ≠ 0 := fun hz => h (UInt64.toNat_inj.mp hz)
  have hlt := x.toNat_lt
  rw [UInt64.lt_iff_toNat_lt]
  rw [UInt64.toNat_add] at hx ⊢
  have hone : (1 : UInt64).toNat = 1 := rfl
  rw [hone] at hx ⊢
  omega

variable {m : ClientIdMap}

theorem Below.find (h : m.Below) (hz : m.next ≠ 0) (k : Key) : m.find k < m.next := by
  rw [ClientIdMap.find]
  cases hk : m.fwd k with
  | none => exact UInt64.pos_iff_ne_zero.mpr hz
  | some x => exact h k x hk

theorem Below.forNew (h : m.Below) (hz : m.next ≠ 0) (k : Key) (hnext : (m.forNew k).1.next ≠ 0) :
    m.next ≤ (m.forNew k).1.next ∧ (m.forNew k).2 < (m.forNew k).1.next ∧ (m.forNew k).1.Below := by
  rw [ClientIdMap.forNew] at hnext ⊢
  split
  · exact ⟨UInt64.le_refl _, UInt64.pos_iff_ne_zero.mpr hz, h⟩
  · rename_i hid
    rw [if_neg hid] at hnext
    cases hk : m.fwd k with
    | some x => exact ⟨UInt64.le_refl _, h k x hk, h⟩
    | none =>
        rw [hk] at hnext
        have hlt : m.next < m.next + 1 := lt_succ hnext
        refine ⟨UInt64.le_of_lt hlt, hlt, fun k' x hx => ?_⟩
        by_cases hkk : k' = k
        · subst hkk
          simp only [Function.update_self] at hx
          rw [← Option.some.inj hx]
          exact hlt
        · simp only [Function.update_of_ne hkk] at hx
          exact UInt64.lt_trans (h k' x hx) hlt

theorem retire_sub (m : ClientIdMap) (x : OrderId) :
    (m.retire x).next = m.next ∧ ∀ k y, (m.retire x).fwd k = some y → m.fwd k = some y := by
  rw [retire]
  cases m.rev x with
  | none => exact ⟨rfl, fun _ _ h => h⟩
  | some key =>
      refine ⟨rfl, fun k y hk => ?_⟩
      by_cases hkk : k = key
      · subst hkk
        simp at hk
      · simpa [Function.update_of_ne hkk] using hk

end ClientIdMap

theorem retireDead_sub {G : Type} (desk : Desk G) (g : G) (symbol : SymbolId) (m : ClientIdMap)
    (xs : List OrderId) :
    (retireDead desk g symbol m xs).next = m.next ∧
      ∀ k y, (retireDead desk g symbol m xs).fwd k = some y → m.fwd k = some y := by
  induction xs generalizing m with
  | nil => exact ⟨rfl, fun _ _ h => h⟩
  | cons x xs ih =>
      rw [retireDead]
      split
      · obtain ⟨hnext, hfwd⟩ := ih (m.retire x)
        obtain ⟨hnext₀, hfwd₀⟩ := m.retire_sub x
        exact ⟨hnext.trans hnext₀, fun k y hk => hfwd₀ k y (hfwd k y hk)⟩
      · exact ih m

/-! ### What the log tells -/

theorem appended_quiet (log : List Action) {acts : List Action}
    (h : ∀ a ∈ acts, ∀ c, a ≠ .append c) :
    (record (log ++ acts)).appended = (record log).appended := by
  rw [record_append]
  generalize record log = r
  induction acts generalizing r with
  | nil => rfl
  | cons a acts ih =>
      have hone : (r.step a).appended = r.appended := by
        cases a with
        | append c => exact absurd rfl (h _ List.mem_cons_self c)
        | flush => simp [Record.step, Record.appended]
        | _ => rfl
      exact (ih (fun b hb => h b (List.mem_cons_of_mem a hb)) (r.step a)).trans hone

theorem untold_appends {acts : List Action} (h : ∀ a ∈ acts, a.told = false) :
    ∀ a ∈ acts, ∀ c, a ≠ .append c := by
  rintro a ha c rfl
  cases h _ ha

theorem Roster.count_step (r : Roster) (a : Action) : r.count ≤ (r.step a).count := by
  cases a with
  | accept fd owner => exact Nat.le_succ _
  | process fd c events =>
      rw [Roster.step]
      split <;> exact Nat.le_refl _
  | _ => exact Nat.le_refl _

theorem roster_count_le (log acts : List Action) :
    (roster log).count ≤ (roster (log ++ acts)).count := by
  rw [roster_append]
  generalize roster log = r
  induction acts generalizing r with
  | nil => exact Nat.le_refl _
  | cons a acts ih => exact Nat.le_trans (r.count_step a) (ih (r.step a))

theorem owner_toNat {x : OwnerId} {n : Nat} (h : x.toNat + n < 2 ^ 32) :
    (x + UInt32.ofNat n).toNat = x.toNat + n := by
  rw [UInt32.toNat_add, UInt32.toNat_ofNat', Nat.mod_eq_of_lt (a := n) (by omega),
    Nat.mod_eq_of_lt h]

/-! ### Runs -/

variable {G : Type} {cfg : GatewayConfig} {desk : Desk G} {s s' : State G} {old : List Command}
    {first : OwnerId}

/-- The owners of the commands are those of sessions up to now. -/
structure FreshOwners (first : OwnerId) (old : List Command) (s : State G) : Prop where
  seated : Seated first s.seats (roster s.log)
  owners : ∀ c ∈ old ++ (record s.log).appended, c.owner.toNat < first.toNat + (roster s.log).count

/-- The ids of the commands have been given out before. -/
structure FreshIds (old : List Command) (s : State G) : Prop where
  positive : s.core.ids.next ≠ 0
  below : s.core.ids.Below
  ids : ∀ c ∈ old ++ (record s.log).appended, c.orderId < s.core.ids.next

theorem Seated.after {t : Seats} {r : Roster} (h : Seated first t r) (acts : List Action) :
    Seated first (t.after acts) (acts.foldl Roster.step r) := by
  induction acts generalizing t r with
  | nil => exact h
  | cons a acts ih => exact ih (h.step a)

theorem FreshOwners.logs (h : FreshOwners first old s) {acts : List Action}
    (hlogs : Logs s s' acts) : Seated first s'.seats (roster s'.log) := by
  rw [hlogs.1, hlogs.2, roster_append]
  exact h.seated.after acts

theorem appended_logs {acts : List Action} (hlogs : Logs s s' acts)
    (hacts : ∀ a ∈ acts, ∀ c, a ≠ .append c) :
    (record s'.log).appended = (record s.log).appended := by
  rw [hlogs.1, appended_quiet _ hacts]

theorem FreshOwners.keep (h : FreshOwners first old s) {acts : List Action}
    (hlogs : Logs s s' acts) (hacts : ∀ a ∈ acts, ∀ c, a ≠ .append c) :
    FreshOwners first old s' := by
  refine ⟨h.logs hlogs, ?_⟩
  rw [appended_logs hlogs hacts, hlogs.1]
  exact fun c hc => Nat.lt_of_lt_of_le (h.owners c hc)
    (Nat.add_le_add_left (roster_count_le _ _) _)

theorem FreshIds.keep (h : FreshIds old s) {acts : List Action} (hlogs : Logs s s' acts)
    (hacts : ∀ a ∈ acts, ∀ c, a ≠ .append c) (hnext : s.core.ids.next ≤ s'.core.ids.next)
    (hbelow : s'.core.ids.Below) : FreshIds old s' := by
  refine ⟨?_, hbelow, ?_⟩
  · exact UInt64.pos_iff_ne_zero.mp
      (Std.lt_of_lt_of_le (UInt64.pos_iff_ne_zero.mpr h.positive) hnext)
  · rw [appended_logs hlogs hacts]
    exact fun c hc => Std.lt_of_lt_of_le (h.ids c hc) hnext

theorem appended_snoc {c : Command} (hlogs : Logs s s' [.append c]) :
    old ++ (record s'.log).appended = (old ++ (record s.log).appended) ++ [c] := by
  rw [hlogs.1, record_snoc, Record.appended, Record.appended, List.append_assoc, List.append_assoc]
  rfl

theorem FreshOwners.stamp (h : FreshOwners first old s) {fd : Fd} {k : Conn}
    (hconn : s.sessions.conns fd = some k) (off : Nat) (c : Command) (rest : List Ready) (i : Input)
    (hcount : first.toNat + (roster s.log).count < 2 ^ 32) :
    FreshOwners first old (Gateway.stamp cfg s fd k.owner off c rest i) := by
  obtain ⟨-, hcase⟩ := stamp_cases cfg s fd k.owner off c rest i
  rcases hcase with ⟨-, -, acts, hlogs, hacts⟩ | ⟨-, -, hlogs, -⟩
  · exact h.keep hlogs (untold_appends hacts)
  refine ⟨h.logs hlogs, ?_⟩
  intro d hd
  have hcount' : (roster (Gateway.stamp cfg s fd k.owner off c rest i).log).count =
      (roster s.log).count := by
    rw [hlogs.1, roster_append]
    rfl
  rw [hcount']
  rw [appended_snoc hlogs] at hd
  rcases List.mem_append.mp hd with hd | hd
  · exact h.owners d hd
  · have hseat := h.seated.owner fd
    have howns : s.seats.owner fd = some k.owner := by
      change (s.sessions.conns fd).map Conn.owner = some k.owner
      rw [hconn]
      rfl
    rw [howns] at hseat
    obtain ⟨n, hn, howner⟩ := Option.map_eq_some_iff.mp hseat.symm
    have hlow := h.seated.below fd n hn
    rw [List.mem_singleton.mp hd]
    change k.owner.toNat < _
    rw [← howner, owner_toNat (by omega)]
    omega

theorem FreshIds.stamp (h : FreshIds old s) (trust : cfg.trustClientIds = false) (fd : Fd)
    (owner : OwnerId) (off : Nat) (c : Command) (rest : List Ready) (i : Input)
    (hnext : (Gateway.stamp cfg s fd owner off c rest i).core.ids.next ≠ 0) :
    FreshIds old (Gateway.stamp cfg s fd owner off c rest i) := by
  obtain ⟨hcore, hcase⟩ := stamp_cases cfg s fd owner off c rest i
  simp only [trust, Bool.false_eq_true, if_false] at hcore hcase
  have hids : ∀ t : ClientIdMap × OrderId,
      t = (if c.type = .newOrder then s.core.ids.forNew ⟨c.orderId, c.symbol, owner⟩
        else (s.core.ids, s.core.ids.find ⟨c.orderId, c.symbol, owner⟩)) → t.1.next ≠ 0 →
      s.core.ids.next ≤ t.1.next ∧ t.2 < t.1.next ∧ t.1.Below := by
    intro t ht hz
    split at ht
    · subst ht
      exact h.below.forNew h.positive _ hz
    · subst ht
      exact ⟨UInt64.le_refl _, h.below.find h.positive _, h.below⟩
  generalize (if c.type = .newOrder then s.core.ids.forNew ⟨c.orderId, c.symbol, owner⟩
    else (s.core.ids, s.core.ids.find ⟨c.orderId, c.symbol, owner⟩)) = t at hcore hcase hids
  generalize Gateway.stamp cfg s fd owner off c rest i = s' at *
  have hids' : s'.core.ids = t.1 := by rw [hcore]
  rw [hids'] at hnext
  obtain ⟨hle, hlt, hbelow⟩ := hids t rfl hnext
  rw [← hids'] at hle hlt hbelow hnext
  rcases hcase with ⟨-, -, acts, hlogs, hacts⟩ | ⟨-, -, hlogs, -⟩
  · exact h.keep hlogs (untold_appends hacts) hle hbelow
  refine ⟨hnext, hbelow, fun d hd => ?_⟩
  rw [appended_snoc hlogs] at hd
  rcases List.mem_append.mp hd with hd | hd
  · exact Std.lt_of_lt_of_le (h.ids d hd) hle
  · rw [List.mem_singleton.mp hd]
    exact hlt

/-- Nothing is appended, and no id is given out. -/
structure Bare (s s' : State G) : Prop where
  log : ∃ acts, Logs s s' acts ∧ ∀ a ∈ acts, ∀ c, a ≠ .append c
  next : s'.core.ids.next = s.core.ids.next
  fwd : ∀ k x, s'.core.ids.fwd k = some x → s.core.ids.fwd k = some x

theorem bare_of_core {acts : List Action} (hlogs : Logs s s' acts)
    (hacts : ∀ a ∈ acts, ∀ c, a ≠ .append c) (hcore : s'.core = s.core) : Bare s s' :=
  ⟨⟨acts, hlogs, hacts⟩, by rw [hcore], by rw [hcore]; exact fun _ _ h => h⟩

theorem Idle.bare (h : Idle s s') : Bare s s' := by
  obtain ⟨acts, hlogs, hacts⟩ := h.log
  exact bare_of_core hlogs (untold_appends hacts) h.core

theorem Bare.trans {s'' : State G} (h : Bare s s') (h' : Bare s' s'') : Bare s s'' := by
  obtain ⟨acts, hlogs, hacts⟩ := h.log
  obtain ⟨acts', hlogs', hacts'⟩ := h'.log
  refine ⟨⟨acts ++ acts', hlogs.trans hlogs', fun a ha => ?_⟩, h'.next.trans h.next,
    fun k x hx => h.fwd k x (h'.fwd k x hx)⟩
  rcases List.mem_append.mp ha with ha | ha
  · exact hacts a ha
  · exact hacts' a ha

theorem bare_deliver (cfg : GatewayConfig) (desk : Desk G) (s : State G) (fd : Fd)
    (clientSeq : UInt64) (clientId : OrderId) (c : Command) (g : G) (events : List Event) :
    Bare s (deliver cfg desk s fd clientSeq clientId c g events) := by
  have hlogs : Logs s (deliver cfg desk s fd clientSeq clientId c g events)
      [.process fd c events] := deliver_logs cfg desk s fd clientSeq clientId c g events
  have hacts : ∀ a ∈ [Action.process fd c events], ∀ d, a ≠ .append d := by
    rintro a ha d rfl
    cases List.mem_singleton.mp ha
  cases trust : cfg.trustClientIds with
  | true =>
      refine ⟨⟨_, hlogs, hacts⟩, ?_, fun k x hx => ?_⟩
      · simp [deliver, State.emit, trust]
      · simpa [deliver, State.emit, trust] using hx
  | false =>
      obtain ⟨xs, -, hids⟩ := deliver_ids trust desk s fd clientSeq clientId c g events
      obtain ⟨hnext, hfwd⟩ := retireDead_sub desk g c.symbol s.core.ids xs
      exact ⟨⟨_, hlogs, hacts⟩, by rw [hids, hnext], by rw [hids]; exact hfwd⟩

/-- Only where a command is taken up does the journal grow, and are ids given out. -/
theorem step_bare (cfg : GatewayConfig) (desk : Desk G) (s : State G) (i : Input) :
    Bare s (step cfg desk s i) ∨ ∃ fd off rest k cmd, s.sessions.conns fd = some k ∧
      step cfg desk s i = stamp cfg s fd k.owner off cmd rest i := by
  rcases (step_cases desk s i : Idle s (step cfg desk s i) ∨ _) with hidle |
    ⟨fd, off, rest, k, cmd, n, -, hconn, -, heq⟩ |
    ⟨fd, off, clientSeq, clientId, c, rest, -, heq⟩ | ⟨-, hpub⟩
  · exact .inl hidle.bare
  · exact .inr ⟨fd, off + n, rest, k, cmd, hconn, heq⟩
  · refine .inl ?_
    rw [heq]
    rcases (handle_cases desk s fd off clientSeq clientId c rest i :
        (handle cfg desk s fd off clientSeq clientId c rest i).pc = .crashed ∧ _ ∨ _) with
      ⟨-, hidle⟩ | ⟨pub, g, events, -, hidle⟩
    · exact hidle.bare
    · have hpub : Idle s { s with repl.pub := pub } := idle_silent rfl rfl id rfl rfl
      exact (hpub.bare.trans (bare_deliver cfg desk _ fd clientSeq clientId c g events)).trans
        hidle.bare
  · obtain ⟨before, after, hlogs, hbefore, hafter⟩ := hpub.log
    refine .inl (bare_of_core hlogs (fun a ha c => ?_) hpub.core)
    rcases List.mem_append.mp ha with ha | ha
    · exact untold_appends hbefore a ha c
    · rcases List.mem_cons.mp ha with rfl | ha
      · exact Action.noConfusion
      · exact untold_appends hafter a ha c

theorem FreshOwners.step (h : FreshOwners first old s) (i : Input)
    (hcount : first.toNat + (roster s.log).count < 2 ^ 32) :
    FreshOwners first old (Gateway.step cfg desk s i) := by
  rcases step_bare cfg desk s i with hbare | ⟨fd, off, rest, k, cmd, hconn, heq⟩
  · obtain ⟨acts, hlogs, hacts⟩ := hbare.log
    exact h.keep hlogs hacts
  · rw [heq]
    exact h.stamp hconn off cmd rest i hcount

theorem FreshIds.step (h : FreshIds old s) (trust : cfg.trustClientIds = false) (i : Input)
    (hnext : (Gateway.step cfg desk s i).core.ids.next ≠ 0) :
    FreshIds old (Gateway.step cfg desk s i) := by
  rcases step_bare cfg desk s i with hbare | ⟨fd, off, rest, k, cmd, -, heq⟩
  · obtain ⟨acts, hlogs, hacts⟩ := hbare.log
    refine h.keep hlogs hacts (UInt64.le_of_eq hbare.next.symm) fun k x hx => ?_
    rw [hbare.next]
    exact h.below k x (hbare.fwd k x hx)
  · rw [heq] at hnext ⊢
    exact h.stamp trust fd k.owner off cmd rest i hnext

theorem run_snoc (s : State G) (is : List Input) (i : Input) :
    Gateway.run cfg desk s (is ++ [i]) = Gateway.step cfg desk (Gateway.run cfg desk s is) i := by
  simp [Gateway.run]

theorem FreshOwners.run (h : FreshOwners first old s) (is : List Input)
    (room : ∀ pre, pre <+: is →
      first.toNat + (roster (Gateway.run cfg desk s pre).log).count < 2 ^ 32) :
    FreshOwners first old (Gateway.run cfg desk s is) := by
  induction is using List.reverseRecOn with
  | nil => exact h
  | append_singleton is i ih =>
      have hfront := List.prefix_append is [i]
      rw [run_snoc]
      exact (ih fun pre hpre => room pre (hpre.trans hfront)).step i (room is hfront)

theorem FreshIds.run (h : FreshIds old s) (trust : cfg.trustClientIds = false) (is : List Input)
    (room : ∀ pre, pre <+: is → (Gateway.run cfg desk s pre).core.ids.next ≠ 0) :
    FreshIds old (Gateway.run cfg desk s is) := by
  induction is using List.reverseRecOn with
  | nil => exact h
  | append_singleton is i ih =>
      have hnext := room _ List.prefix_rfl
      rw [run_snoc] at hnext ⊢
      have hfront := List.prefix_append is [i]
      exact (ih fun pre hpre => room pre (hpre.trans hfront)).step trust i hnext

theorem owner_succ_toNat {x : UInt32} (h : x + 1 ≠ 0) : (x + 1).toNat = x.toNat + 1 := by
  have hne : (x + 1).toNat ≠ 0 := fun hz => h (UInt32.toNat_inj.mp hz)
  have hlt := x.toNat_lt
  rw [UInt32.toNat_add] at hne ⊢
  have hone : (1 : UInt32).toNat = 1 := rfl
  rw [hone] at hne ⊢
  omega

theorem FreshOwners.start {fresh : G} {r : Recovered G}
    (hreplay : ({ gate := fresh } : Recovered G).replay desk old = some r) (cfg : ServerConfig)
    (positive : r.maxOwner + 1 ≠ 0) :
    FreshOwners (r.maxOwner + 1) old (r.serve cfg { file := written old }) := by
  obtain ⟨-, hmax⟩ := Recovered.replay_max hreplay
  refine ⟨seated_log (r.maxOwner + 1) [], fun c hc => ?_⟩
  rcases List.mem_append.mp hc with hc | hc
  · change c.owner.toNat < (r.maxOwner + 1).toNat + 0
    have hle := UInt32.le_iff_toNat_le.mp (hmax c hc).1
    rw [owner_succ_toNat positive]
    omega
  · cases hc

theorem FreshIds.start {fresh : G} {r : Recovered G}
    (hreplay : ({ gate := fresh } : Recovered G).replay desk old = some r) (cfg : ServerConfig)
    (positive : r.maxOrderId + 1 ≠ 0) : FreshIds old (r.serve cfg { file := written old }) := by
  obtain ⟨-, hmax⟩ := Recovered.replay_max hreplay
  have hid : r.maxOrderId < r.maxOrderId + 1 := ClientIdMap.lt_succ positive
  refine ⟨positive, ClientIdMap.below_make _, fun c hc => ?_⟩
  rcases List.mem_append.mp hc with hc | hc
  · exact Std.lt_of_le_of_lt (hmax c hc).2 hid
  · cases hc

structure Room (first : OwnerId) (s : State G) : Prop where
  positive : first ≠ 0
  ids : s.core.ids.next ≠ 0
  owners : first.toNat + (roster s.log).count < 2 ^ 32

/-- A server never hands out an order id or an owner of its journal again, be it one that an earlier
server took up, as long as the counters do not wrap. -/
theorem recovered_ids_unused (desk : Desk G) (fresh : G) (file : Option Lib.Bytes)
    (before : Remains desk fresh file) (cfg : ServerConfig)
    (trust : cfg.gateway.trustClientIds = false) (s : State G)
    (started : server desk fresh cfg file = some (.ok s)) :
    ∃ old, s.repl.journal = { file := written old } ∧
      ∀ is, (∀ pre, pre <+: is → Room s.sessions.nextOwner (run cfg.gateway desk s pre)) →
        ∀ c ∈ old ++ (record (run cfg.gateway desk s is).log).appended,
          c.orderId < (run cfg.gateway desk s is).core.ids.next ∧
          c.owner < (run cfg.gateway desk s is).sessions.nextOwner := by
  obtain ⟨old, r, -, -, hreplay, rfl⟩ := server_serves before.sane started
  refine ⟨old, rfl, fun is room c hc => ?_⟩
  have hfirst := room [] List.nil_prefix
  have howned : FreshOwners (r.maxOwner + 1) old
      (run cfg.gateway desk (r.serve cfg { file := written old }) is) :=
    (FreshOwners.start hreplay cfg hfirst.positive).run is fun pre hpre => (room pre hpre).owners
  have hnamed : FreshIds old (run cfg.gateway desk (r.serve cfg { file := written old }) is) :=
    (FreshIds.start hreplay cfg hfirst.ids).run trust is fun pre hpre => (room pre hpre).ids
  refine ⟨hnamed.ids c hc, ?_⟩
  have howners := (room is List.prefix_rfl).owners
  have hlow := howned.owners c hc
  have hnext :
      (run cfg.gateway desk (r.serve cfg { file := written old }) is).sessions.nextOwner = _ :=
    howned.seated.next
  have howners : (r.maxOwner + 1).toNat + _ < 2 ^ 32 := howners
  rw [hnext, UInt32.lt_iff_toNat_lt, owner_toNat howners]
  exact hlow

theorem recovered_ids_unused_between : ∃ s old, server Gateway.desk smallGate {}
    (some leftBehind) = some (.ok s) ∧
    s.repl.journal = { file := written old } ∧
      ∀ c ∈ old ++ (record (run {} Gateway.desk s fullSocket).log).appended,
        c.orderId < (run {} Gateway.desk s fullSocket).core.ids.next ∧
          c.owner < (run {} Gateway.desk s fullSocket).sessions.nextOwner := by
  obtain ⟨s, started⟩ : ∃ s, server Gateway.desk smallGate {} (some leftBehind) = some (.ok s) :=
    server_total 1 { numLevels := 64, maxOrders := 4 } {} Book.scatterHash
      (by decide) leftBehind_remains.sane {}
  have hroom : ∀ s ∈ (server Gateway.desk smallGate {} (some leftBehind)).bind Except.toOption,
    ∀ pre ∈ fullSocket.inits,
      s.sessions.nextOwner ≠ 0 ∧ (run {} Gateway.desk s pre).core.ids.next ≠ 0 ∧
        s.sessions.nextOwner.toNat + (roster (run {} Gateway.desk s pre).log).count < 2 ^ 32 := by
    decide +kernel
  rw [started] at hroom
  obtain ⟨old, hold, hrun⟩ :=
    recovered_ids_unused Gateway.desk smallGate (some leftBehind) leftBehind_remains
      {} rfl s started
  refine ⟨s, old, started, hold, hrun fullSocket fun pre hpre => ?_⟩
  obtain ⟨hpositive, hids, howners⟩ := hroom s rfl pre ((List.mem_inits pre fullSocket).mpr hpre)
  exact ⟨hpositive, hids, howners⟩

end ExchangeSim.Gateway
