/- digest: The outputs of the sessions grow by the response to a command, and by nothing else. -/

import ExchangeSim.Gateway.Core

set_option autoImplicit false
set_option relaxedAutoImplicit false

namespace ExchangeSim.Gateway

/-! ### What a report sink adds to the outputs -/

/-- The connections with more reports in their outputs. -/
def extend (conns : Fd → Option Conn) (items : Fd → List Item) : Fd → Option Conn :=
  fun f => (conns f).map fun c => { c with out := c.out ++ items f }

theorem extend_nil (conns : Fd → Option Conn) : extend conns (fun _ => []) = conns := by
  ext1 f
  simp [extend]

theorem extend_extend (conns : Fd → Option Conn) (items items' : Fd → List Item) :
    extend (extend conns items) items' = extend conns fun f => items f ++ items' f := by
  ext1 f
  rw [extend, extend, extend, Option.map_map]
  congr 1
  ext1 c
  simp only [Function.comp_apply, List.append_assoc]

theorem appendReport_eq (conns : Fd → Option Conn) (fd : Fd) (item : Item) :
    appendReport conns fd item = extend conns fun f => if f = fd then [item] else [] := by
  ext1 f
  rw [appendReport, extend]
  by_cases hf : f = fd
  · subst hf
    cases hc : conns f with
    | none => simp [hc]
    | some c => simp
  · simp only [if_neg hf, List.append_nil]
    cases conns fd with
    | none => simp
    | some c => simp [Function.update_of_ne hf]

/-- What the sink makes of an event for the session at `f`. -/
def Sink.items (k : Sink) (f : Fd) (e : Event) : List Item :=
  (if f = k.fd then [⟨k.seq, .exec (k.view e) k.clientSeq⟩] else []) ++
    if k.makerFd e = some f then [⟨k.seq, .exec (k.makerView e) 0⟩] else []

/-- What the sink makes of an event for the session at `f`, whether it translates or not. -/
def Sink.adds (k : Sink) (f : Fd) (e : Event) : List Item :=
  if k.translate then k.items f e else if f = k.fd then [⟨k.seq, .exec e k.clientSeq⟩] else []

theorem onEvent_conns (k : Sink) (w : Written) (e : Event) :
    (k.onEvent w e).conns = extend w.conns fun f => k.adds f e := by
  cases ht : k.translate with
  | false => simp [Sink.onEvent, Sink.adds, ht, appendReport_eq]
  | true =>
      simp only [Sink.onEvent, Sink.adds, ht, not_true_eq_false, if_false, if_true, Sink.items]
      cases hmaker : k.makerFd e with
      | none => simp [appendReport_eq]
      | some m =>
          simp only [appendReport_eq, extend_extend, Option.some.injEq]
          congr 1
          ext1 f
          congr 1
          simp only [eq_comm]

theorem foldl_onEvent_conns (k : Sink) (events : List Event) (w : Written) :
    (events.foldl k.onEvent w).conns = extend w.conns fun f => events.flatMap (k.adds f) := by
  induction events generalizing w with
  | nil => exact (extend_nil w.conns).symm
  | cons e events ih =>
      rw [List.foldl_cons, ih, onEvent_conns, extend_extend]
      rfl

/-! ### Outputs grow only with a response -/

section Kept

variable {G : Type} {cfg : GatewayConfig} {s s' s'' : State G}

/-- Every output is what it was, or empty. -/
def Kept (s s' : State G) : Prop := ∀ fd cn', s'.sessions.conns fd = some cn' →
  cn'.out = [] ∨ ∃ cn, s.sessions.conns fd = some cn ∧ cn'.out = cn.out

theorem Kept.refl (s : State G) : Kept s s := fun _ cn h => .inr ⟨cn, h, rfl⟩

theorem Kept.trans (h : Kept s s') (h' : Kept s' s'') : Kept s s'' := by
  intro fd cn hcn
  rcases h' fd cn hcn with hempty | ⟨cn', hcn', hout⟩
  · exact .inl hempty
  · rcases h fd cn' hcn' with hempty | ⟨cn'', hcn'', hout'⟩
    · exact .inl (hout.trans hempty)
    · exact .inr ⟨cn'', hcn'', hout.trans hout'⟩

theorem kept_of_sessions (h : s'.sessions = s.sessions) : Kept s s' := by
  intro fd cn hcn
  rw [h] at hcn
  exact .inr ⟨cn, hcn, rfl⟩

theorem kept_update {fd : Fd} {cn cn' : Conn} (hcn : s.sessions.conns fd = some cn)
    (hout : cn'.out = [] ∨ cn'.out = cn.out)
    (hconns : s'.sessions.conns = Function.update s.sessions.conns fd (some cn')) : Kept s s' := by
  intro f c hc
  rw [hconns] at hc
  by_cases hf : f = fd
  · subst hf
    rw [Function.update_self] at hc
    obtain rfl := Option.some.inj hc
    exact hout.imp_right fun heq => ⟨cn, hcn, heq⟩
  · rw [Function.update_of_ne hf] at hc
    exact .inr ⟨c, hc, rfl⟩

theorem kept_accept (s : State G) (fds : List Fd) : Kept s (accept s fds) := by
  induction fds generalizing s with
  | nil => exact .refl s
  | cons fd fds ih =>
      rw [accept]
      refine Kept.trans ?_ (ih _)
      intro f cn hcn
      change (if (s.sessions.conns fd).isSome then s.sessions.conns
        else Function.update s.sessions.conns fd (some { owner := s.sessions.nextOwner }))
          f = some cn at hcn
      split at hcn
      · exact .inr ⟨cn, hcn, rfl⟩
      · by_cases hf : f = fd
        · subst hf
          rw [Function.update_self] at hcn
          obtain rfl := Option.some.inj hcn
          exact .inl rfl
        · rw [Function.update_of_ne hf] at hcn
          exact .inr ⟨cn, hcn, rfl⟩

theorem kept_closeConn (s : State G) (fd : Fd) : Kept s (closeConn s fd) := by
  intro f cn hcn
  simp only [closeConn, State.emit] at hcn
  cases hc : s.sessions.conns fd with
  | none =>
      rw [hc] at hcn
      exact .inr ⟨cn, hcn, rfl⟩
  | some c =>
      rw [hc] at hcn
      dsimp only at hcn
      by_cases hf : f = fd
      · rw [hf, Function.update_self] at hcn
        cases hcn
      · rw [Function.update_of_ne hf] at hcn
        exact .inr ⟨cn, hcn, rfl⟩

theorem sendLoop_out (c : Conn) (answers : List SendResult) :
    ∀ c' ∈ (sendLoop c answers).1, c'.out = c.out := by
  induction answers generalizing c with
  | nil =>
      rw [sendLoop]
      split <;> simp
  | cons r rs ih =>
      rw [sendLoop.eq_def]
      simp only
      split
      · cases r with
        | sent n =>
            cases n with
            | zero => simp
            | succ n => exact ih { c with
                outOff := c.outOff + min (n + 1) (c.out.length * kReportSize - c.outOff) }
        | again => simp
        | error => simp
      · simp

theorem settle_out (c : Conn) : (settle c).out = [] ∨ (settle c).out = c.out := by
  simp only [settle]
  split
  · exact .inl rfl
  · exact .inr rfl

theorem kept_tryWrite (s : State G) (fd : Fd) (answers : List SendResult) :
    Kept s (tryWrite s fd answers) := by
  rw [tryWrite]
  cases hc : s.sessions.conns fd with
  | none => exact .refl s
  | some c =>
      have hout := sendLoop_out c answers
      dsimp only
      cases hloop : (sendLoop c answers).1 with
      | none => exact Kept.trans (kept_of_sessions rfl) (kept_closeConn _ fd)
      | some c' =>
          refine kept_update hc ?_ rfl
          rw [← hout c' hloop]
          exact settle_out c'

theorem kept_writeTouched (s : State G) (fds : List Fd) (answers : List (List SendResult)) :
    Kept s (writeTouched s fds answers) := by
  induction fds generalizing s answers with
  | nil => exact .refl s
  | cons fd fds ih => exact (kept_tryWrite s fd _).trans (ih _ _)

theorem sessions_publisherCall (s : State G)
    (f : Stream.Publisher → Stream.Publisher × List Stream.Sent) :
    (publisherCall s f).sessions = s.sessions := by
  rw [publisherCall]
  cases s.repl.pub <;> rfl

theorem sessions_fenceCheck (s : State G) : (fenceCheck s).sessions = s.sessions := by
  rw [fenceCheck]
  cases s.repl.pub with
  | none => rfl
  | some p =>
      dsimp only
      split <;> rfl

theorem sessions_journalFlush (s : State G) (failed : Option Nat) :
    (journalFlush s failed).1.sessions = s.sessions := by
  simp only [journalFlush]
  split
  · rfl
  · cases failed <;> rfl

theorem sessions_journalSync (s : State G) (failed : Option Nat) (fsync : Bool) :
    (journalSync s failed fsync).1.sessions = s.sessions := by
  have hflush := sessions_journalFlush s failed
  simp only [journalSync]
  split <;> exact hflush

theorem sessions_commit (s : State G) (i : Input) : (commit cfg s i).sessions = s.sessions := by
  have hflush := sessions_journalFlush s i.flush
  simp only [commit]
  split
  · generalize (journalFlush s i.flush).1 = s₁ at hflush
    split
    · cases s₁.repl.pub with
      | none => exact hflush
      | some p =>
          dsimp only
          have hcall :
              (if p.fenced = true then s₁ else publisherCall s₁ fun p =>
                p.flush i.flushNow).sessions = s.sessions := by
            split
            · exact hflush
            · exact (sessions_publisherCall s₁ _).trans hflush
          generalize (if p.fenced = true then s₁ else publisherCall s₁ fun p =>
            p.flush i.flushNow) = s₂ at hcall
          split <;> exact hcall
    · exact hflush
  · rfl

theorem sessions_waitPass (s : State G) (since : UInt64) (i : Input) :
    (waitPass cfg s since i).sessions = s.sessions := by
  rw [waitPass]
  split
  · rfl
  have hservice := sessions_publisherCall s fun p => p.service i.group i.control
  generalize (publisherCall s fun p => p.service i.group i.control) = s₁ at hservice
  dsimp only
  split
  · exact hservice
  have hfence := (sessions_fenceCheck s₁).trans hservice
  split
  · exact hfence
  split
  · exact hfence
  · exact (sessions_publisherCall _ _).trans hfence

theorem sessions_expire (s : State G) (i : Input) : (expire cfg s i).sessions = s.sessions := by
  have hservice : (serviceAndCheck s i.group i.control).sessions = s.sessions :=
    (sessions_fenceCheck _).trans (sessions_publisherCall s _)
  rw [expire]
  generalize serviceAndCheck s i.group i.control = s₁ at hservice
  dsimp only
  split
  · exact hservice
  split <;> exact hservice

theorem kept_onReady (s : State G) (fd : Fd) (w r : Bool) (rest : List Ready) (i : Input) :
    Kept s (onReady s fd w r rest i) := by
  rw [onReady]
  split
  · exact kept_of_sessions rfl
  have hw : Kept s (if w = true then tryWrite s fd i.sends else s) := by
    split
    · exact kept_tryWrite s fd i.sends
    · exact .refl s
  generalize (if w = true then tryWrite s fd i.sends else s) = s₁ at hw
  refine hw.trans ?_
  dsimp only
  cases hc : s₁.sessions.conns fd with
  | none => exact kept_of_sessions rfl
  | some c =>
      dsimp only
      split
      · exact kept_of_sessions rfl
      · cases i.received with
        | closed => exact kept_closeConn s₁ fd
        | again => exact kept_of_sessions rfl
        | data p =>
            have hsame : Conn.out { c with inp := c.inp ++ p } = c.out := rfl
            exact kept_update hc (.inr hsame) rfl

theorem kept_stamp (s : State G) (fd : Fd) (owner : OwnerId) (off : Nat) (c : Command)
    (rest : List Ready) (i : Input) :
    Kept s (stamp cfg s fd owner off c rest i) := by
  apply kept_of_sessions
  simp only [stamp]
  split
  · rfl
  · cases i.append <;> rfl

theorem kept_release (desk : Desk G) (s : State G) (i : Input) : Kept s (release cfg desk s i) := by
  rw [release]
  split
  · intro fd cn hcn
    cases hcn
  · dsimp only
    refine Kept.trans (kept_of_sessions ?_) (kept_writeTouched _ _ _)
    refine (sessions_publisherCall _ _).trans ?_
    rw [publishMd]
    split <;> rfl

theorem kept_step (desk : Desk G) (s : State G) (i : Input) (hnone : s.pc.command? = none) :
    Kept s (step cfg desk s i) := by
  rw [step]
  cases hpc : s.pc with
  | poll =>
      dsimp only
      split <;> exact kept_of_sessions rfl
  | batch ready =>
      cases ready with
      | nil => exact kept_of_sessions (sessions_commit s i)
      | cons r rest =>
          cases r with
          | listener => exact kept_accept s i.accepted
          | control =>
              exact kept_of_sessions ((sessions_fenceCheck _).trans (sessions_publisherCall s _))
          | conn fd w r => exact kept_onReady s fd w r rest i
  | reading fd off rest =>
      simp only [read]
      cases hc : s.sessions.conns fd with
      | none => exact kept_of_sessions rfl
      | some c =>
          dsimp only
          cases Wire.next c.inp off with
          | wait =>
              have hsame : Conn.out { c with inp := c.inp.drop off } = c.out := rfl
              exact kept_update hc (.inr hsame) rfl
          | lost => exact kept_closeConn s fd
          | skip n => exact kept_of_sessions rfl
          | command cmd n => exact kept_stamp s fd c.owner (off + n) cmd rest i
  | logged fd off clientSeq clientId c rest =>
      rw [hpc] at hnone
      cases hnone
  | waiting since => exact kept_of_sessions (sessions_waitPass s since i)
  | expiring => exact kept_of_sessions (sessions_expire s i)
  | release => exact kept_release desk s i
  | shutdown =>
      exact kept_of_sessions ((sessions_publisherCall _ _).trans
        (sessions_journalSync s i.flush i.fsync))
  | stopped => exact .refl s
  | crashed => exact .refl s

end Kept

/-- What the engine's answer to a command adds to the output of the session at `f`. -/
def responses {G : Type} (cfg : GatewayConfig) (s : State G) (fd : Fd) (clientSeq : UInt64)
    (clientId : OrderId) (c : Command) (events : List Event) (f : Fd) : List Item :=
  events.flatMap ((sinkOf cfg s fd clientSeq clientId c).adds f) ++ if f = fd then
    [⟨c.seq, .done c.symbol clientSeq⟩] else []

theorem deliver_conns {G : Type} {cfg : GatewayConfig} (desk : Desk G) (s : State G) (fd : Fd)
    (clientSeq : UInt64) (clientId : OrderId) (c : Command) (g : G) (events : List Event) :
    (deliver cfg desk s fd clientSeq clientId c g events).sessions.conns =
      extend s.sessions.conns (responses cfg s fd clientSeq clientId c events) := by
  simp only [deliver, State.emit]
  rw [appendReport_eq]
  refine (congrArg (fun conns => extend conns _) (foldl_onEvent_conns _ events _)).trans ?_
  rw [extend_extend]
  rfl

theorem handle_conns {G : Type} (cfg : GatewayConfig) (desk : Desk G) (s : State G) (fd : Fd)
    (off : Nat) (clientSeq : UInt64) (clientId : OrderId) (c : Command)
    (rest : List Ready) (i : Input) :
    (handle cfg desk s fd off clientSeq clientId c rest i).pc = .crashed ∧
      (handle cfg desk s fd off clientSeq clientId c rest i).sessions = s.sessions ∨
    ∃ g events, desk.process s.core.gate c = some (g, events) ∧
      (handle cfg desk s fd off clientSeq clientId c rest i).pc ≠ .crashed ∧
      (handle cfg desk s fd off clientSeq clientId c rest i).sessions.conns =
        extend s.sessions.conns (responses cfg s fd clientSeq clientId c events) := by
  simp only [handle]
  split
  · exact .inl ⟨rfl, rfl⟩
  · rename_i pub _
    cases hrun : desk.process s.core.gate c with
    | none => exact .inl ⟨rfl, rfl⟩
    | some r =>
        obtain ⟨g, events⟩ := r
        refine .inr ⟨g, events, rfl, ?_⟩
        have hdeliver :
          (deliver cfg desk { s with repl.pub := pub } fd clientSeq clientId c g
            events).sessions.conns =
            extend s.sessions.conns (responses cfg s fd clientSeq clientId c events) :=
          deliver_conns desk { s with repl.pub := pub } fd clientSeq clientId c g events
        dsimp only
        generalize deliver cfg desk { s with repl.pub := pub } fd clientSeq clientId c g
          events = s₁ at hdeliver
        split
        · have hsync :=
            sessions_journalSync { s₁ with repl.sinceSync := (syncDue cfg s₁.repl.sinceSync).2 }
              i.flush i.fsync
          split
          · exact ⟨Pc.noConfusion, (congrArg Sessions.conns hsync).trans hdeliver⟩
          · exact ⟨Pc.noConfusion, (congrArg Sessions.conns hsync).trans hdeliver⟩
        · exact ⟨Pc.noConfusion, hdeliver⟩

end ExchangeSim.Gateway
