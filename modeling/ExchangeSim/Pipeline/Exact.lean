/- digest: Whatever the threads' interleaving, the pipeline computes what a single thread
   computes. -/

import ExchangeSim.Engine.Exposure
import ExchangeSim.Pipeline.Rings

set_option autoImplicit false
set_option relaxedAutoImplicit false

namespace ExchangeSim.Pipeline

open Lib (Bytes)
open Wire (commandsOf commandsOf_append)
open Engine (SpscQueue RingSize MatchingEngine CountingSink EventDigest)
open Engine.SpscQueue (Calling Waits Pushes Pops)

/-! ### One thread -/

/-- What a thread alone makes of commands: the engine, the tops of the books, and everything that
went out. -/
structure Made (E : Type) where
  engine : E
  tob : PageArray Tob := fun _ => {}
  events : List Event := []
  msgs : List MdMsg := []

variable {E : Type}

namespace Made

variable (m : Matcher E)

def process (w : Made E) (c : Command) : Option (Made E) :=
  (m.process w.engine c).map fun (engine, events) =>
    { w with
      engine := engine, events := w.events ++ events
      msgs := w.msgs ++ tradeMsgs c.ts events }

def top (w : Made E) (c : Command) : Made E :=
  if c.symbol < m.symbols then
    let now := m.tob w.engine c.symbol
    if now = w.tob c.symbol.toNat then w
    else
      { w with tob := Function.update w.tob c.symbol.toNat now, msgs := w.msgs ++ [bboMsg c now] }
  else w

def step (w : Made E) (c : Command) : Option (Made E) := (w.process m c).map fun w => w.top m c

/-- The commands one after another. -/
def work (engine : E) (cs : List Command) : Option (Made E) :=
  cs.foldlM (step m) { engine := engine }

variable {m}

theorem work_concat {engine : E} {cs : List Command} {w : Made E}
    (h : work m engine cs = some w) (c : Command) :
    work m engine (cs ++ [c]) = w.step m c := by
  rw [work] at h ⊢
  rw [List.foldlM_append, h, Option.bind_eq_bind, Option.bind_some]
  simp only [List.foldlM_cons, List.foldlM_nil, bind_pure]

theorem top_events (w : Made E) (c : Command) : (w.top m c).events = w.events := by
  simp only [top]
  split
  · split <;> rfl
  · rfl

theorem top_engine (w : Made E) (c : Command) : (w.top m c).engine = w.engine := by
  simp only [top]
  split
  · split <;> rfl
  · rfl

theorem top_msgs (w : Made E) (c : Command) : w.msgs <+: (w.top m c).msgs := by
  simp only [top]
  split
  · split
    · exact List.prefix_rfl
    · exact List.prefix_append _ _
  · exact List.prefix_rfl

theorem work_append {engine : E} {cs ds : List Command} {w : Made E}
    (h : work m engine (cs ++ ds) = some w) :
    ∃ w₀, work m engine cs = some w₀ ∧ w₀.events <+: w.events ∧ w₀.msgs <+: w.msgs := by
  induction ds using List.reverseRecOn generalizing w with
  | nil => exact ⟨w, by rwa [List.append_nil] at h, List.prefix_rfl, List.prefix_rfl⟩
  | append_singleton ds d ih =>
      rw [← List.append_assoc] at h
      obtain ⟨w₁, hw₁⟩ : ∃ w₁, work m engine (cs ++ ds) = some w₁ := by
        rw [work, List.foldlM_append] at h
        obtain ⟨w₁, hw₁, -⟩ := Option.bind_eq_some_iff.mp h
        exact ⟨w₁, hw₁⟩
      obtain ⟨w₀, hw₀, hevents, hmsgs⟩ := ih hw₁
      rw [work_concat hw₁, step] at h
      obtain ⟨w₂, hw₂, rfl⟩ := Option.map_eq_some_iff.mp h
      obtain ⟨⟨engine, events⟩, -, rfl⟩ := Option.map_eq_some_iff.mp hw₂
      refine ⟨w₀, hw₀, ?_, ?_⟩
      · rw [top_events]
        exact hevents.trans (List.prefix_append _ _)
      · refine List.IsPrefix.trans ?_ (top_msgs _ d)
        exact hmsgs.trans (List.prefix_append _ _)

end Made

/-! ### The feed -/

/-- A command without its ingress stamp. -/
def unstamped (c : Command) : Command := { c with ts := 0 }

/-- The command that is on its way into the ring. -/
def FeedPc.pending : FeedPc → List Command
  | .push c | .pushing c => [c]
  | _ => []

def FeedPc.Calls (q : SpscQueue Command) : FeedPc → Prop
  | .pushing c => Calling q c
  | _ => q.producer = .idle

variable {u : Setup} {m : Matcher E} {e₀ : E} {s s' : State E}

structure Feeding (u : Setup) (s : State E) : Prop where
  calls : s.feed.pc.Calls s.qIn
  read : ∃ seen, Wire.Capture.Reached u.wireBuf ⟨s.feed.off, seen, false⟩ ∧
    commandsOf seen = (s.qIn.pushed ++ s.feed.pc.pending).map unstamped ∧
    s.feed.malformed = UInt64.ofNat (seen.length - (commandsOf seen).length)
  fed : s.feed.fed = UInt64.ofNat s.qIn.pushed.length
  stuck : s.feed.pc = .finish ∨ s.feed.pc = .done →
    Wire.messages.first (u.wireBuf.drop s.feed.off) = none
  flag : s.feedDone = true ↔ s.feed.pc = .done

theorem Feeding.frame (h : Feeding u s) (hfeed : s'.feed = s.feed)
    (hflag : s'.feedDone = s.feedDone) (hpops : Pops s.qIn s'.qIn) :
    Feeding u s' := by
  refine ⟨?_, ?_, ?_, ?_, ?_⟩
  · rw [hfeed]
    have hcalls := h.calls
    cases hpc : s.feed.pc with
    | pushing c =>
        rw [hpc] at hcalls
        obtain ⟨t, ht⟩ := hcalls
        exact ⟨t, by rwa [hpops.producer]⟩
    | decode | push | finish | done =>
        rw [hpc] at hcalls
        exact hpops.producer.trans hcalls
  · rw [hfeed, hpops.pushed]
    exact h.read
  · rw [hfeed, hpops.pushed]
    exact h.fed
  · rw [hfeed]
    exact h.stuck
  · rw [hflag, hfeed]
    exact h.flag

theorem length_commandsOf (a : List Wire.Item) : (commandsOf a).length ≤ a.length :=
  List.length_filterMap_le _ _

theorem decoded_plain {p : Bytes} {c : Command} {n : Nat} (h : Wire.decode p = .ok c n) :
    unstamped c = c := by
  have hplain := (Wire.decode_ok h).plain
  rw [← hplain]
  unfold Wire.carried
  cases c.type <;> rfl

theorem Feeding.step (h : Feeding u s) (hinv : SpscQueue.Inv u.qIn s.qIn) (now : UInt64) :
    Feeding u (s.feedStep u now) := by
  obtain ⟨hcalls, ⟨seen, hreached, hseen, hmal⟩, hfed, hstuck, hflag⟩ := h
  rw [State.feedStep]
  cases hpc : s.feed.pc with
  | decode =>
      rw [hpc] at hcalls hseen hflag hstuck
      have hidle : s.qIn.producer = .idle := hcalls
      have hnot : ¬ s.feedDone = true := fun hd => by cases hflag.mp hd
      simp only [FeedPc.pending, List.append_nil] at hseen
      have hnext := Wire.decode_eq_next u.wireBuf s.feed.off
      have hlen : (u.wireBuf.drop s.feed.off).length = u.wireBuf.length - s.feed.off :=
        List.length_drop
      have hinside : s.feed.off ≤ u.wireBuf.length := hreached.inside
      cases hn : Wire.next u.wireBuf s.feed.off with
      | command c n =>
          rw [hn] at hnext
          have hdec : Wire.decode (u.wireBuf.drop s.feed.off) = .ok c n := hnext
          have havail := (Wire.decode_ok hdec).available
          refine ⟨hidle, ⟨seen ++ [.command c], ⟨?_, ?_, rfl⟩, ?_, ?_⟩, hfed, ?_, ?_⟩
          · dsimp only
            omega
          · simpa [List.drop_drop] using hreached.parsed.trans
              (Lib.Framing.Parses.single (Wire.first_of_ok hdec))
          · rw [commandsOf_append, hseen, List.map_append]
            exact congrArg (_ ++ [·]) (decoded_plain hdec).symm
          · have hle := length_commandsOf seen
            rw [commandsOf_append, List.length_append, List.length_append]
            change s.feed.malformed = UInt64.ofNat
              (seen.length + 1 - ((commandsOf seen).length + 1))
            rw [Nat.add_sub_add_right]
            exact hmal
          · rintro (hf | hf) <;> cases hf
          · exact ⟨fun hd => absurd hd hnot, fun hd => by cases hd⟩
      | skip n =>
          rw [hn] at hnext
          have hdec : Wire.decode (u.wireBuf.drop s.feed.off) = .malformed n := hnext
          have hpos := Wire.next_skip_ne_zero hn
          have havail := (Wire.decode_malformed hdec).1
          have hskip :
              commandsOf (seen ++ [.skipped ((u.wireBuf.drop s.feed.off).take n)]) =
              commandsOf seen := by
            rw [commandsOf_append]
            exact List.append_nil _
          refine ⟨?_, ⟨seen ++ [.skipped ((u.wireBuf.drop s.feed.off).take n)], ⟨?_, ?_, rfl⟩, ?_,
            ?_⟩, hfed, ?_, ?_⟩
          · simp only [hpc]
            exact hidle
          · dsimp only
            omega
          · simpa [List.drop_drop] using hreached.parsed.trans
              (Lib.Framing.Parses.single (Wire.first_of_malformed hdec hpos))
          · rw [hskip, hseen, hpc]
            exact (congrArg _ (List.append_nil _)).symm
          · have hle := length_commandsOf seen
            rw [hskip, List.length_append, List.length_singleton, Nat.sub_add_comm hle,
              UInt64.ofNat_add]
            exact congrArg (· + 1) hmal
          · simp only [hpc]
            rintro (hf | hf) <;> cases hf
          · simp only [hpc]
            exact ⟨fun hd => absurd hd hnot, fun hd => by cases hd⟩
      | wait | lost =>
          rw [hn] at hnext
          refine ⟨hidle, ⟨seen, hreached, by simpa [FeedPc.pending] using hseen, hmal⟩, hfed,
            fun _ => ?_, ?_⟩
          · refine Wire.firstMessage_none.mpr ?_
            first
              | exact .inl hnext
              | exact .inr hnext
          · exact ⟨fun hd => absurd hd hnot, fun hd => by cases hd⟩
  | push c =>
      rw [hpc] at hcalls hseen hflag
      have hnot : ¬ s.feedDone = true := fun hd => by cases hflag.mp hd
      obtain ⟨hcalling, hsame⟩ := SpscQueue.tryPush_calling (q := u.qIn) hcalls c
      refine ⟨hcalling, ⟨seen, hreached, ?_, hmal⟩, ?_, ?_, ?_⟩
      · rw [hseen]
        exact congrArg (fun l => (l ++ [c]).map unstamped) hsame.symm
      · exact hfed.trans (congrArg (fun l : List Command => UInt64.ofNat l.length) hsame.symm)
      · rintro (hf | hf) <;> cases hf
      · exact ⟨fun hd => absurd hd hnot, fun hd => by cases hd⟩
  | pushing c =>
      rw [hpc] at hcalls hseen hflag
      have hnot : ¬ s.feedDone = true := fun hd => by cases hflag.mp hd
      have hstep := Calling.step hcalls hinv
      simp only
      generalize pushed? u.qIn s.qIn = r at hstep
      generalize s.qIn.step u.qIn .produce = q' at hstep
      cases hstep with
      | pushed hidle hgrown =>
          refine ⟨hidle, ⟨seen, hreached, ?_, hmal⟩, ?_, ?_, ?_⟩
          · rw [hseen]
            change _ = (q'.pushed ++ []).map unstamped
            rw [hgrown, List.append_nil]
            rfl
          · change s.feed.fed + 1 = UInt64.ofNat q'.pushed.length
            rw [hfed, hgrown, List.length_append, UInt64.ofNat_add]
            rfl
          · rintro (hf | hf) <;> cases hf
          · exact ⟨fun hd => absurd hd hnot, fun hd => by cases hd⟩
      | full hidle hsame _ =>
          refine ⟨hidle, ⟨seen, hreached, ?_, hmal⟩, ?_, ?_, ?_⟩
          · rw [hseen]
            exact congrArg (fun l => (l ++ [c]).map unstamped) hsame.symm
          · exact hfed.trans (congrArg (fun l : List Command => UInt64.ofNat l.length) hsame.symm)
          · rintro (hf | hf) <;> cases hf
          · exact ⟨fun hd => absurd hd hnot, fun hd => by cases hd⟩
      | goesOn hcalling hsame =>
          refine ⟨?_, ⟨seen, hreached, ?_, hmal⟩, ?_, ?_, ?_⟩
          · simp only [hpc]
            exact hcalling
          · simp only [hpc]
            rw [hseen]
            exact congrArg (fun l => (l ++ [c]).map unstamped) hsame.symm
          · exact hfed.trans (congrArg (fun l : List Command => UInt64.ofNat l.length) hsame.symm)
          · simp only [hpc]
            rintro (hf | hf) <;> cases hf
          · simp only [hpc]
            exact ⟨fun hd => absurd hd hnot, fun hd => by cases hd⟩
  | finish =>
      rw [hpc] at hcalls hseen
      refine ⟨hcalls, ⟨seen, hreached, hseen, hmal⟩, hfed, fun _ => hstuck (.inl hpc), ?_⟩
      exact ⟨fun _ => rfl, fun _ => rfl⟩
  | done => exact ⟨hcalls, ⟨seen, hreached, hseen, hmal⟩, hfed, hstuck, hflag⟩

theorem feedStep_pushes (u : Setup) (s : State E) (now : UInt64) :
    Pushes s.qIn (s.feedStep u now).qIn ∧
    (s.feedStep u now).matching = s.matching ∧ (s.feedStep u now).publishing = s.publishing ∧
    (s.feedStep u now).qMd = s.qMd ∧ (s.feedStep u now).engineDone = s.engineDone := by
  rw [State.feedStep]
  have hstay : Pushes s.qIn s.qIn := ⟨rfl, rfl, rfl, List.prefix_rfl⟩
  cases s.feed.pc with
  | decode =>
      simp only
      cases Wire.next u.wireBuf s.feed.off <;> exact ⟨hstay, rfl, rfl, rfl, rfl⟩
  | push c => exact ⟨SpscQueue.tryPush_pushes (q := u.qIn) _ c, rfl, rfl, rfl, rfl⟩
  | pushing c => exact ⟨SpscQueue.produce_pushes _, rfl, rfl, rfl, rfl⟩
  | finish | done => exact ⟨hstay, rfl, rfl, rfl, rfl⟩

/-! ### The engine -/

/-- The messages that are still to be published. -/
def MatchPc.pending : MatchPc → List MdMsg
  | .publish ms _ => ms
  | .pushing x ms _ => x :: ms
  | _ => []

def MatchPc.Calls (q : SpscQueue MdMsg) : MatchPc → Prop
  | .pushing x _ _ => Calling q x
  | _ => q.producer = .idle

/-- Where the ring of the commands is. -/
def MatchPc.Ends (q : SpscQueue Command) : MatchPc → Prop
  | .await w => Waits q w
  | .popping => (∃ x, q.consumer = .storing x) ∧ q.handed.isSome = true
  | .finish | .done => q.consumer = .idle
  | .crashed => False
  | _ => q.consumer = .idle ∧ q.handed.isSome = true

/-- There is a command at hand. -/
def MatchPc.busy : MatchPc → Bool
  | .take | .publish _ _ | .pushing _ _ _ | .top | .pop => true
  | _ => false

/-- A command is counted before it is popped. -/
def MatchPc.counted : MatchPc → Nat
  | .popping => 1
  | _ => 0

/-- How far the command at hand has got. -/
inductive Stage where
  | untouched
  | processed
  | topped

def MatchPc.stage : MatchPc → Stage
  | .publish _ topped | .pushing _ _ topped => if topped then .topped else .processed
  | .top => .processed
  | .pop | .popping => .topped
  | _ => .untouched

/-- The thread's variables are those of `w`, but for what is still to be published. -/
structure Holding (w : Made E) (s : State E) : Prop where
  engine : s.matching.engine = w.engine
  tob : s.matching.tob = w.tob
  counts : s.matching.counts = CountingSink.of w.events
  msgs : w.msgs = s.qMd.pushed ++ s.matching.pc.pending

def Stage.Reached (m : Matcher E) (s : State E) (w : Made E) : Stage → Prop
  | .untouched => Holding w s
  | .processed =>
      ∃ c w', s.qIn.pushed[s.qIn.popped.length]? = some c ∧ w.process m c = some w' ∧ Holding w' s
  | .topped =>
      ∃ c w', s.qIn.pushed[s.qIn.popped.length]? = some c ∧ w.process m c = some w' ∧
        Holding (w'.top m c) s

structure Engaged (m : Matcher E) (e₀ : E) (s : State E) : Prop where
  calls : s.matching.pc.Calls s.qMd
  ends : s.matching.pc.Ends s.qIn
  made : ∃ w, Made.work m e₀ s.qIn.popped = some w ∧ s.matching.pc.stage.Reached m s w
  processed : s.matching.processed = UInt64.ofNat (s.qIn.popped.length + s.matching.pc.counted)
  again : s.matching.pc = .await .callAgain ∨ s.matching.pc = .await .lookAgain → s.feedDone = true
  finished : s.matching.pc = .finish ∨ s.matching.pc = .done → s.feedDone = true ∧
    s.qIn.popped = s.qIn.pushed
  flag : s.engineDone = true ↔ s.matching.pc = .done

theorem MatchPc.Ends.frame {q q' : SpscQueue Command} {pc : MatchPc} (h : pc.Ends q)
    (hpush : Pushes q q') : pc.Ends q' := by
  unfold MatchPc.Ends at *
  simp only [hpush.consumer, hpush.handed]
  cases pc with
  | await w =>
      simp only at h ⊢
      unfold Waits at *
      cases w <;> simpa only [hpush.consumer] using h
  | take | publish | pushing | top | pop | popping | finish | done | crashed => exact h

theorem Stage.Reached.frame {w : Made E} {g : Stage} (h : g.Reached m s w)
    (hmatching : s'.matching = s.matching) (hmd : s'.qMd.pushed = s.qMd.pushed)
    (hpush : Pushes s.qIn s'.qIn) : g.Reached m s' w := by
  have hhold : ∀ w, Holding w s → Holding w s' := by
    intro w hw
    refine ⟨?_, ?_, ?_, ?_⟩
    · rw [hmatching]
      exact hw.engine
    · rw [hmatching]
      exact hw.tob
    · rw [hmatching]
      exact hw.counts
    · rw [hmatching, hmd]
      exact hw.msgs
  have hat : ∀ c, s.qIn.pushed[s.qIn.popped.length]? = some c →
      s'.qIn.pushed[s'.qIn.popped.length]? = some c := by
    intro c hc
    obtain ⟨more, hmore⟩ := hpush.pushed
    rw [hpush.popped, ← hmore, List.getElem?_append_left (List.getElem?_eq_some_iff.mp hc).1]
    exact hc
  cases g with
  | untouched => exact hhold w h
  | processed =>
      obtain ⟨c, w', hc, hw', hold⟩ := h
      exact ⟨c, w', hat c hc, hw', hhold _ hold⟩
  | topped =>
      obtain ⟨c, w', hc, hw', hold⟩ := h
      exact ⟨c, w', hat c hc, hw', hhold _ hold⟩

theorem Engaged.frame (h : Engaged m e₀ s) (hmatching : s'.matching = s.matching)
    (hengine : s'.engineDone = s.engineDone) (hmd : Pops s.qMd s'.qMd) (hpush : Pushes s.qIn s'.qIn)
    (hflag : s.feedDone = true → s'.feedDone = true)
    (hover : s.feedDone = true → s'.qIn.pushed = s.qIn.pushed) : Engaged m e₀ s' := by
  obtain ⟨w, hwork, hreached⟩ := h.made
  refine ⟨?_, ?_, ⟨w, ?_, ?_⟩, ?_, ?_, ?_, ?_⟩
  · rw [hmatching]
    have hcalls := h.calls
    cases hpc : s.matching.pc with
    | pushing x ms topped =>
        rw [hpc] at hcalls
        obtain ⟨t, ht⟩ := hcalls
        exact ⟨t, by rwa [hmd.producer]⟩
    | await | take | publish | top | pop | popping | finish | done | crashed =>
        rw [hpc] at hcalls
        exact hmd.producer.trans hcalls
  · rw [hmatching]
    exact h.ends.frame hpush
  · rwa [hpush.popped]
  · rw [hmatching]
    exact hreached.frame hmatching hmd.pushed hpush
  · rw [hmatching, hpush.popped]
    exact h.processed
  · rw [hmatching]
    exact fun hpc => hflag (h.again hpc)
  · rw [hmatching, hpush.popped]
    intro hpc
    obtain ⟨hdone, hempty⟩ := h.finished hpc
    exact ⟨hflag hdone, hempty.trans (hover hdone).symm⟩
  · rw [hengine, hmatching]
    exact h.flag

theorem Made.process_of_total (total : ∀ cs, ∃ w, Made.work m e₀ cs = some w)
    {cs : List Command} {w : Made E} (hw : Made.work m e₀ cs = some w) (c : Command) :
    ∃ w', w.process m c = some w' := by
  obtain ⟨w₁, hw₁⟩ := total (cs ++ [c])
  rw [Made.work_concat hw, Made.step] at hw₁
  obtain ⟨w', hw', -⟩ := Option.map_eq_some_iff.mp hw₁
  exact ⟨w', hw'⟩

theorem MatchPc.busy_ends {q : SpscQueue Command} {pc : MatchPc} (h : pc.busy = true) :
    pc.Ends q ↔ q.consumer = .idle ∧ q.handed.isSome = true := by
  cases pc <;> first | rfl | cases h

theorem MatchPc.busy_counted {pc : MatchPc} (h : pc.busy = true) : pc.counted = 0 := by
  cases pc <;> first | rfl | cases h

theorem Engaged.work (h : Engaged m e₀ s) (hbusy : s.matching.pc.busy = true)
    (hbusy' : s'.matching.pc.busy = true) (hin : s'.qIn = s.qIn)
    (hengine : s'.engineDone = s.engineDone)
    (hprocessed : s'.matching.processed = s.matching.processed)
    (hcalls : s'.matching.pc.Calls s'.qMd)
    (hreached : ∀ w, Made.work m e₀ s.qIn.popped = some w → s.matching.pc.stage.Reached m s w →
      s'.matching.pc.stage.Reached m s' w) : Engaged m e₀ s' := by
  obtain ⟨w, hwork, hat⟩ := h.made
  have hno : ∀ pc : MatchPc, pc.busy = false → s'.matching.pc ≠ pc := by
    rintro pc hpc rfl
    exact Bool.false_ne_true (hpc.symm.trans hbusy')
  refine ⟨hcalls, ?_, ⟨w, by rwa [hin], hreached w hwork hat⟩, ?_, ?_, ?_, ?_⟩
  · rw [MatchPc.busy_ends hbusy', hin]
    exact (MatchPc.busy_ends hbusy).mp h.ends
  · rw [hprocessed, hin, h.processed, MatchPc.busy_counted hbusy, MatchPc.busy_counted hbusy']
  · rintro (hpc | hpc)
    · exact absurd hpc (hno _ rfl)
    · exact absurd hpc (hno _ rfl)
  · rintro (hpc | hpc)
    · exact absurd hpc (hno _ rfl)
    · exact absurd hpc (hno _ rfl)
  · rw [hengine, h.flag]
    refine ⟨fun hpc => ?_, fun hpc => absurd hpc (hno _ rfl)⟩
    rw [hpc] at hbusy
    cases hbusy

theorem Engaged.take (h : Engaged m e₀ s) (total : ∀ cs, ∃ w, Made.work m e₀ cs = some w)
    (hin : SpscQueue.Inv u.qIn s.qIn) (hpc : s.matching.pc = .take) :
    Engaged m e₀ (s.matchStep u m) := by
  have hends := h.ends
  have hcalls := h.calls
  rw [hpc] at hends hcalls
  obtain ⟨c, hpointee, hat⟩ := hin.element hends.2
  obtain ⟨w, hwork, hold⟩ := h.made
  rw [hpc] at hold
  obtain ⟨w', hw'⟩ := Made.process_of_total total hwork c
  obtain ⟨⟨engine, events⟩, hrun, hmade⟩ := Option.map_eq_some_iff.mp hw'
  have hrun' : m.process s.matching.engine c = some (engine, events) := by
    rw [hold.engine]
    exact hrun
  rw [State.matchStep, hpc]
  simp only [hpointee, hrun']
  refine h.work (by rw [hpc]; rfl) rfl rfl rfl rfl hcalls fun w₀ hwork₀ _ => ?_
  obtain rfl := Option.some.inj (hwork₀.symm.trans hwork)
  refine ⟨c, w', hat, hw', ?_⟩
  subst hmade
  refine ⟨rfl, hold.tob, ?_, ?_⟩
  · change events.foldl CountingSink.onEvent s.matching.counts = _
    rw [hold.counts, CountingSink.of, CountingSink.of, List.foldl_append]
  · change w₀.msgs ++ tradeMsgs c.ts events = _
    have hmsgs := hold.msgs
    rw [hpc] at hmsgs
    rw [hmsgs]
    exact congrArg (· ++ _) (List.append_nil _)

theorem Stage.Reached.publish {w : Made E} {g : Stage} (h : g.Reached m s w) (hin : s'.qIn = s.qIn)
    (hengine : s'.matching.engine = s.matching.engine) (htob : s'.matching.tob = s.matching.tob)
    (hcounts : s'.matching.counts = s.matching.counts)
    (hmsgs : s'.qMd.pushed ++ s'.matching.pc.pending = s.qMd.pushed ++ s.matching.pc.pending) :
    g.Reached m s' w := by
  have hhold : ∀ w, Holding w s → Holding w s' := by
    intro w hw
    exact ⟨hengine.trans hw.engine, htob.trans hw.tob, hcounts.trans hw.counts,
      hw.msgs.trans hmsgs.symm⟩
  cases g with
  | untouched => exact hhold w h
  | processed =>
      obtain ⟨c, w', hc, hw', hold⟩ := h
      exact ⟨c, w', by rwa [hin], hw', hhold _ hold⟩
  | topped =>
      obtain ⟨c, w', hc, hw', hold⟩ := h
      exact ⟨c, w', by rwa [hin], hw', hhold _ hold⟩

theorem Engaged.publish (h : Engaged m e₀ s) {ms : List MdMsg} {topped : Bool}
    (hpc : s.matching.pc = .publish ms topped) :
    Engaged m e₀ (s.matchStep u m) := by
  have hcalls := h.calls
  rw [hpc] at hcalls
  have hbusy : s.matching.pc.busy = true := by rw [hpc]; rfl
  rw [State.matchStep, hpc]
  cases ms with
  | nil =>
      cases topped with
      | true =>
          refine h.work hbusy rfl rfl rfl rfl hcalls fun w hwork hat => ?_
          rw [hpc] at hat
          exact hat.publish rfl rfl rfl rfl (by rw [hpc]; rfl)
      | false =>
          refine h.work hbusy rfl rfl rfl rfl hcalls fun w hwork hat => ?_
          rw [hpc] at hat
          exact hat.publish rfl rfl rfl rfl (by rw [hpc]; rfl)
  | cons x ms =>
      obtain ⟨hcalling, hsame⟩ := SpscQueue.tryPush_calling (q := u.qMd) hcalls x
      refine h.work hbusy rfl rfl rfl rfl hcalling fun w hwork hat => ?_
      rw [hpc] at hat
      refine hat.publish rfl rfl rfl rfl ?_
      rw [hpc]
      exact congrArg (· ++ x :: ms) hsame

theorem Engaged.pushing (h : Engaged m e₀ s) (hmd : SpscQueue.Inv u.qMd s.qMd) {x : MdMsg}
    {ms : List MdMsg} {topped : Bool} (hpc : s.matching.pc = .pushing x ms topped) :
    Engaged m e₀ (s.matchStep u m) := by
  have hcalls := h.calls
  rw [hpc] at hcalls
  have hbusy : s.matching.pc.busy = true := by rw [hpc]; rfl
  have hstep := Calling.step hcalls hmd
  rw [State.matchStep, hpc]
  simp only
  generalize pushed? u.qMd s.qMd = r at hstep
  generalize s.qMd.step u.qMd .produce = q' at hstep
  cases hstep with
  | pushed hidle hgrown =>
      refine h.work hbusy rfl rfl rfl rfl hidle fun w hwork hat => ?_
      rw [hpc] at hat
      refine hat.publish rfl rfl rfl rfl ?_
      rw [hpc]
      change q'.pushed ++ ms = s.qMd.pushed ++ x :: ms
      rw [hgrown, List.append_assoc, List.singleton_append]
  | full hidle hsame _ =>
      refine h.work hbusy rfl rfl rfl rfl hidle fun w hwork hat => ?_
      rw [hpc] at hat
      refine hat.publish rfl rfl rfl rfl ?_
      rw [hpc]
      exact congrArg (· ++ x :: ms) hsame
  | goesOn hcalling hsame =>
      refine h.work hbusy hbusy rfl rfl rfl ?_ fun w hwork hat => ?_
      · simp only [hpc]
        exact hcalling
      · simp only [hpc] at hat ⊢
        refine hat.publish rfl rfl rfl rfl ?_
        exact congrArg (· ++ s.matching.pc.pending) hsame

theorem Engaged.top (h : Engaged m e₀ s) (hin : SpscQueue.Inv u.qIn s.qIn)
    (hpc : s.matching.pc = .top) :
    Engaged m e₀ (s.matchStep u m) := by
  have hends := h.ends
  have hcalls := h.calls
  rw [hpc] at hends hcalls
  have hbusy : s.matching.pc.busy = true := by rw [hpc]; rfl
  obtain ⟨c, hpointee, hat⟩ := hin.element hends.2
  have hsent : ∀ w, Holding w s → w.msgs = s.qMd.pushed := by
    intro w hold
    have hmsgs := hold.msgs
    rw [hpc] at hmsgs
    exact hmsgs.trans (List.append_nil _)
  rw [State.matchStep, hpc]
  simp only [hpointee]
  have htopped : ∀ s' : State E, s'.qIn = s.qIn → s'.matching.pc.stage = .topped →
      (∀ w, Holding w s → Holding (w.top m c) s') →
      ∀ w, Made.work m e₀ s.qIn.popped = some w → s.matching.pc.stage.Reached m s w →
      s'.matching.pc.stage.Reached m s' w := by
    intro s' hin' hstage hhold w hwork hreached
    rw [hpc] at hreached
    obtain ⟨c', w', hc', hw', hold⟩ := hreached
    obtain rfl := Option.some.inj (hat.symm.trans hc')
    rw [hstage]
    exact ⟨c, w', by rwa [hin'], hw', hhold w' hold⟩
  split
  · rename_i hknown
    split
    · rename_i hsame
      refine h.work hbusy rfl rfl rfl rfl hcalls (htopped _ rfl rfl fun w hold => ?_)
      have htop : w.top m c = w := by
        simp only [Made.top, if_pos hknown]
        rw [if_pos]
        rw [← hold.engine, ← hold.tob]
        exact hsame
      rw [htop]
      exact ⟨hold.engine, hold.tob, hold.counts, (hsent w hold).trans (List.append_nil _).symm⟩
    · rename_i hdiffers
      refine h.work hbusy rfl rfl rfl rfl hcalls (htopped _ rfl rfl fun w hold => ?_)
      have htop : w.top m c = { w with
          tob := Function.update w.tob c.symbol.toNat (m.tob w.engine c.symbol)
          msgs := w.msgs ++ [bboMsg c (m.tob w.engine c.symbol)] } := by
        simp only [Made.top, if_pos hknown]
        rw [if_neg]
        rw [← hold.engine, ← hold.tob]
        exact hdiffers
      rw [htop]
      refine ⟨hold.engine, ?_, hold.counts, ?_⟩
      · change Function.update s.matching.tob _
          (m.tob s.matching.engine _) = Function.update w.tob _ (m.tob w.engine _)
        rw [hold.engine, hold.tob]
      · change w.msgs ++ [bboMsg c (m.tob w.engine _)] = s.qMd.pushed ++
          [bboMsg c (m.tob s.matching.engine _)]
        rw [hsent w hold, hold.engine]
  · rename_i hunknown
    refine h.work hbusy rfl rfl rfl rfl hcalls (htopped _ rfl rfl fun w hold => ?_)
    have htop : w.top m c = w := by rw [Made.top, if_neg hunknown]
    rw [htop]
    exact ⟨hold.engine, hold.tob, hold.counts, (hsent w hold).trans (List.append_nil _).symm⟩

theorem Engaged.await (h : Engaged m e₀ s) (hin : SpscQueue.Inv u.qIn s.qIn) {w : Waiting}
    (hpc : s.matching.pc = .await w) :
    Engaged m e₀ (s.matchStep u m) := by
  have hends := h.ends
  have hcalls := h.calls
  have hflag := h.flag
  have hprocessed := h.processed
  obtain ⟨made, hwork, hold⟩ := h.made
  rw [hpc] at hends hcalls hflag hprocessed hold
  have hnot : ¬ s.engineDone = true := fun hd => by cases hflag.mp hd
  have hsent : made.msgs = s.qMd.pushed ++ [] := by
    have hmsgs := hold.msgs
    rwa [hpc] at hmsgs
  obtain ⟨hstep, hpopped, hpops⟩ := SpscQueue.Waits.step hends hin s.feedDone
  rw [State.matchStep, hpc]
  simp only
  generalize Pipeline.await u.qIn s.qIn s.feedDone w = r at hstep hpopped hpops
  obtain ⟨q', found⟩ := r
  simp only at hstep hpopped hpops ⊢
  have hmade : ∀ pc : MatchPc, pc.stage = .untouched → pc.pending = [] →
      pc.stage.Reached m { s with qIn := q', matching := { s.matching with pc := pc } } made := by
    intro pc hstage hpending
    rw [hstage]
    refine ⟨hold.engine, hold.tob, hold.counts, ?_⟩
    change made.msgs = s.qMd.pushed ++ pc.pending
    rw [hsent, hpending]
  have hcount : s.matching.processed = UInt64.ofNat (q'.popped.length + 0) := by
    rw [hpopped]
    exact hprocessed
  have hwork' : Made.work m e₀ q'.popped = some made := by rwa [hpopped]
  cases hstep with
  | @waiting _ w' hwaits hflag' hlook =>
      refine ⟨hcalls, hwaits, ⟨made, hwork', hmade _ rfl rfl⟩, hcount, ?_, ?_, ?_⟩
      · rintro (hto | hto)
        · exact hflag' (MatchPc.await.inj hto)
        · exact h.again (.inl (by rw [hpc, hlook (MatchPc.await.inj hto)]))
      · rintro (hto | hto) <;> cases hto
      · exact ⟨fun hd => absurd hd hnot, fun hd => by cases hd⟩
  | element hidle hsome =>
      refine ⟨hcalls, ⟨hidle, hsome⟩, ⟨made, hwork', hmade _ rfl rfl⟩, hcount, ?_, ?_, ?_⟩
      · rintro (hto | hto) <;> cases hto
      · rintro (hto | hto) <;> cases hto
      · exact ⟨fun hd => absurd hd hnot, fun hd => by cases hd⟩
  | ended hidle hempty =>
      refine ⟨hcalls, hidle, ⟨made, hwork', hmade _ rfl rfl⟩, hcount, ?_, ?_, ?_⟩
      · rintro (hto | hto) <;> cases hto
      · refine fun _ => ⟨h.again (.inr hpc), ?_⟩
        change q'.popped = q'.pushed
        rw [hpopped, hempty, hpops.pushed]
      · exact ⟨fun hd => absurd hd hnot, fun hd => by cases hd⟩

theorem Engaged.pop (h : Engaged m e₀ s) (hpc : s.matching.pc = .pop) :
    Engaged m e₀ (s.matchStep u m) := by
  have hends := h.ends
  have hcalls := h.calls
  have hflag := h.flag
  have hprocessed := h.processed
  obtain ⟨made, hwork, hreached⟩ := h.made
  rw [hpc] at hends hcalls hflag hprocessed hreached
  obtain ⟨c, w', hat, hw', hold⟩ := hreached
  have hnot : ¬ s.engineDone = true := fun hd => by cases hflag.mp hd
  obtain ⟨hstoring, hhanded, hpopped⟩ := SpscQueue.pop_storing (q := u.qIn) hends.1 hends.2
  have hpushed := (SpscQueue.pop_pops (q := u.qIn) s.qIn).pushed
  rw [State.matchStep, hpc]
  simp only
  refine ⟨hcalls, ⟨hstoring, by rw [hhanded]; exact hends.2⟩,
    ⟨made, by rwa [hpopped], c, w', ?_, hw', ?_⟩, ?_, ?_, ?_, ?_⟩
  · rwa [hpopped, hpushed]
  · refine ⟨hold.engine, hold.tob, hold.counts, hold.msgs.trans ?_⟩
    rw [hpc]
    rfl
  · change s.matching.processed + 1 = UInt64.ofNat ((s.qIn.step u.qIn .pop).popped.length + 1)
    rw [hpopped, UInt64.ofNat_add, hprocessed]
    rfl
  · rintro (hto | hto) <;> cases hto
  · rintro (hto | hto) <;> cases hto
  · exact ⟨fun hd => absurd hd hnot, fun hd => by cases hd⟩

theorem Engaged.popping (h : Engaged m e₀ s) (hin : SpscQueue.Inv u.qIn s.qIn)
    (hpc : s.matching.pc = .popping) :
    Engaged m e₀ (s.matchStep u m) := by
  have hends := h.ends
  have hcalls := h.calls
  have hflag := h.flag
  have hprocessed := h.processed
  obtain ⟨made, hwork, hreached⟩ := h.made
  rw [hpc] at hends hcalls hflag hprocessed hreached
  obtain ⟨c, w', hat, hw', hold⟩ := hreached
  obtain ⟨⟨x, hstoring⟩, hsome⟩ := hends
  have hnot : ¬ s.engineDone = true := fun hd => by cases hflag.mp hd
  obtain ⟨hidle, c', hat', hpopped⟩ := hin.popped_next hstoring hsome
  obtain rfl := Option.some.inj (hat.symm.trans hat')
  rw [State.matchStep, hpc]
  simp only
  refine ⟨hcalls, hidle, ⟨w'.top m c, ?_, ?_⟩, ?_, ?_, ?_, ?_⟩
  · rw [hpopped, Made.work_concat hwork, Made.step, hw']
    rfl
  · refine ⟨hold.engine, hold.tob, hold.counts, hold.msgs.trans ?_⟩
    rw [hpc]
    rfl
  · rw [hpopped, List.length_append]
    exact hprocessed
  · rintro (hto | hto) <;> cases hto
  · rintro (hto | hto) <;> cases hto
  · exact ⟨fun hd => absurd hd hnot, fun hd => by cases hd⟩

theorem Engaged.finish (h : Engaged m e₀ s) (hpc : s.matching.pc = .finish) :
    Engaged m e₀ (s.matchStep u m) := by
  have hends := h.ends
  have hcalls := h.calls
  have hprocessed := h.processed
  obtain ⟨made, hwork, hold⟩ := h.made
  rw [hpc] at hends hcalls hprocessed hold
  rw [State.matchStep, hpc]
  simp only
  refine ⟨hcalls, hends, ⟨made, hwork, hold.engine, hold.tob, hold.counts, hold.msgs.trans ?_⟩,
    hprocessed, ?_, fun _ => ?_, ?_⟩
  · rw [hpc]
    rfl
  · rintro (hto | hto) <;> cases hto
  · exact h.finished (.inl hpc)
  · exact ⟨fun _ => rfl, fun _ => rfl⟩

theorem Engaged.step (h : Engaged m e₀ s) (total : ∀ cs, ∃ w, Made.work m e₀ cs = some w)
    (hin : SpscQueue.Inv u.qIn s.qIn) (hmd : SpscQueue.Inv u.qMd s.qMd) :
    Engaged m e₀ (s.matchStep u m) := by
  cases hpc : s.matching.pc with
  | await w => exact h.await hin hpc
  | take => exact h.take total hin hpc
  | publish ms topped => exact h.publish hpc
  | pushing x ms topped => exact h.pushing hmd hpc
  | top => exact h.top hin hpc
  | pop => exact h.pop hpc
  | popping => exact h.popping hin hpc
  | finish => exact h.finish hpc
  | done =>
      rw [State.matchStep, hpc]
      exact h
  | crashed =>
      have hends := h.ends
      rw [hpc] at hends
      cases hends

theorem matchStep_frame (u : Setup) (m : Matcher E) (s : State E) :
    Pops s.qIn (s.matchStep u m).qIn ∧
    Pushes s.qMd (s.matchStep u m).qMd ∧ (s.matchStep u m).feed = s.feed ∧
    (s.matchStep u m).publishing = s.publishing ∧
    (s.matchStep u m).feedDone = s.feedDone := by
  have hin : Pops s.qIn s.qIn := ⟨rfl, rfl⟩
  have hmd : Pushes s.qMd s.qMd := ⟨rfl, rfl, rfl, List.prefix_rfl⟩
  rw [State.matchStep]
  cases s.matching.pc with
  | await w =>
      refine ⟨?_, hmd, rfl, rfl, rfl⟩
      cases w with
      | call | callAgain => exact SpscQueue.front_pops (q := u.qIn) s.qIn
      | look | lookAgain => exact SpscQueue.consume_pops (q := u.qIn) s.qIn
      | flag => exact hin
  | take =>
      simp only
      cases pointee s.qIn with
      | none => exact ⟨hin, hmd, rfl, rfl, rfl⟩
      | some c =>
          simp only
          cases m.process s.matching.engine c <;> exact ⟨hin, hmd, rfl, rfl, rfl⟩
  | publish ms topped =>
      cases ms with
      | nil => exact ⟨hin, hmd, rfl, rfl, rfl⟩
      | cons x ms => exact ⟨hin, SpscQueue.tryPush_pushes (q := u.qMd) s.qMd x, rfl, rfl, rfl⟩
  | pushing x ms topped => exact ⟨hin, SpscQueue.produce_pushes (q := u.qMd) s.qMd, rfl, rfl, rfl⟩
  | top =>
      simp only
      cases pointee s.qIn with
      | none => exact ⟨hin, hmd, rfl, rfl, rfl⟩
      | some c =>
          simp only
          split
          · split <;> exact ⟨hin, hmd, rfl, rfl, rfl⟩
          · exact ⟨hin, hmd, rfl, rfl, rfl⟩
  | pop => exact ⟨SpscQueue.pop_pops (q := u.qIn) s.qIn, hmd, rfl, rfl, rfl⟩
  | popping => exact ⟨SpscQueue.consume_pops (q := u.qIn) s.qIn, hmd, rfl, rfl, rfl⟩
  | finish | done | crashed => exact ⟨hin, hmd, rfl, rfl, rfl⟩

/-! ### The consumer of the market data -/

def PublishPc.Ends (q : SpscQueue MdMsg) : PublishPc → Prop
  | .await w => Waits q w
  | .take | .pop => q.consumer = .idle ∧ q.handed.isSome = true
  | .popping => (∃ x, q.consumer = .storing x) ∧ q.handed.isSome = true
  | .done => q.consumer = .idle

/-- A message is folded in before it is popped. -/
def PublishPc.counted : PublishPc → Nat
  | .pop | .popping => 1
  | _ => 0

def mdDigestOf (xs : List MdMsg) : EventDigest := xs.foldl (fun d x => d.onWords x.words) {}

structure Published (s : State E) : Prop where
  ends : s.publishing.pc.Ends s.qMd
  counted : s.publishing.mdMsgs = UInt64.ofNat (s.qMd.popped.length + s.publishing.pc.counted)
  digest : s.publishing.mdDigest = mdDigestOf
    (s.qMd.pushed.take (s.qMd.popped.length + s.publishing.pc.counted))
  inside : s.qMd.popped.length + s.publishing.pc.counted ≤ s.qMd.pushed.length
  again : s.publishing.pc = .await .callAgain ∨ s.publishing.pc = .await .lookAgain →
    s.engineDone = true
  finished : s.publishing.pc = .done → s.engineDone = true ∧ s.qMd.popped = s.qMd.pushed

theorem PublishPc.Ends.frame {q q' : SpscQueue MdMsg} {pc : PublishPc} (h : pc.Ends q)
    (hpush : Pushes q q') : pc.Ends q' := by
  unfold PublishPc.Ends at *
  simp only [hpush.consumer, hpush.handed]
  cases pc with
  | await w =>
      simp only at h ⊢
      unfold Waits at *
      cases w <;> simpa only [hpush.consumer] using h
  | take | pop | popping | done => exact h

theorem Published.frame (h : Published s) (hpublishing : s'.publishing = s.publishing)
    (hpush : Pushes s.qMd s'.qMd) (hflag : s.engineDone = true → s'.engineDone = true)
    (hover : s.engineDone = true → s'.qMd.pushed = s.qMd.pushed) :
    Published s' := by
  obtain ⟨more, hmore⟩ := hpush.pushed
  refine ⟨?_, ?_, ?_, ?_, ?_, ?_⟩
  · rw [hpublishing]
    exact h.ends.frame hpush
  · rw [hpublishing, hpush.popped]
    exact h.counted
  · rw [hpublishing, hpush.popped, ← hmore, List.take_append_of_le_length h.inside]
    exact h.digest
  · rw [hpublishing, hpush.popped, ← hmore, List.length_append]
    exact Nat.le_trans h.inside (Nat.le_add_right _ _)
  · rw [hpublishing]
    exact fun hpc => hflag (h.again hpc)
  · rw [hpublishing, hpush.popped]
    intro hpc
    obtain ⟨hdone, hempty⟩ := h.finished hpc
    exact ⟨hflag hdone, hempty.trans (hover hdone).symm⟩

theorem Published.step (h : Published s) (hmd : SpscQueue.Inv u.qMd s.qMd) :
    Published (s.publishStep u) := by
  have hends := h.ends
  have hcounted := h.counted
  have hdigest := h.digest
  have hinside := h.inside
  rw [State.publishStep]
  cases hpc : s.publishing.pc with
  | await w =>
      rw [hpc] at hends hcounted hdigest hinside
      obtain ⟨hstep, hpopped, hpops⟩ := SpscQueue.Waits.step hends hmd s.engineDone
      simp only
      generalize await u.qMd s.qMd s.engineDone w = r at hstep hpopped hpops
      obtain ⟨q', found⟩ := r
      simp only at hstep hpopped hpops ⊢
      rw [← hpopped] at hcounted hdigest hinside
      rw [← hpops.pushed] at hdigest hinside
      cases hstep with
      | @waiting _ w' hwaits hflag hlook =>
          refine ⟨hwaits, hcounted, hdigest, hinside, ?_, fun hto => by cases hto⟩
          rintro (hto | hto)
          · exact hflag (PublishPc.await.inj hto)
          · exact h.again (.inl (by rw [hpc, hlook (PublishPc.await.inj hto)]))
      | element hidle hsome =>
          refine ⟨⟨hidle, hsome⟩, hcounted, hdigest, hinside, ?_, fun hto => by cases hto⟩
          rintro (hto | hto) <;> cases hto
      | ended hidle hempty =>
          refine ⟨hidle, hcounted, hdigest, hinside, ?_, fun _ => ⟨h.again (.inr hpc), ?_⟩⟩
          · rintro (hto | hto) <;> cases hto
          · change q'.popped = q'.pushed
            rw [hpopped, hempty, hpops.pushed]
  | take =>
      rw [hpc] at hends hcounted hdigest
      obtain ⟨x, hpointee, hat⟩ := hmd.element hends.2
      obtain ⟨hlt, hx⟩ := List.getElem?_eq_some_iff.mp hat
      simp only [PublishPc.counted, Nat.add_zero] at hcounted hdigest
      simp only [hpointee]
      refine ⟨hends, ?_, ?_, hlt, ?_, fun hto => by cases hto⟩
      · change s.publishing.mdMsgs + 1 = UInt64.ofNat (s.qMd.popped.length + 1)
        rw [hcounted, UInt64.ofNat_add]
        rfl
      · change s.publishing.mdDigest.onWords x.words = mdDigestOf
          (s.qMd.pushed.take (s.qMd.popped.length + 1))
        rw [List.take_succ_eq_append_getElem hlt, hx, mdDigestOf, List.foldl_append, hdigest]
        rfl
      · rintro (hto | hto) <;> cases hto
  | pop =>
      rw [hpc] at hends hcounted hdigest hinside
      obtain ⟨hstoring, hhanded, hpopped⟩ := SpscQueue.pop_storing (q := u.qMd) hends.1 hends.2
      have hpushed := (SpscQueue.pop_pops (q := u.qMd) s.qMd).pushed
      rw [← hpopped] at hcounted hdigest hinside
      rw [← hpushed] at hdigest hinside
      refine ⟨⟨hstoring, by rw [hhanded]; exact hends.2⟩, hcounted, hdigest, hinside, ?_,
        fun hto => by cases hto⟩
      rintro (hto | hto) <;> cases hto
  | popping =>
      rw [hpc] at hends hcounted hdigest hinside
      obtain ⟨⟨x, hstoring⟩, hsome⟩ := hends
      obtain ⟨hidle, v, -, hpopped⟩ := hmd.popped_next hstoring hsome
      have hpushed := (SpscQueue.consume_pops (q := u.qMd) s.qMd).pushed
      have hlength : (s.qMd.step u.qMd .consume).popped.length = s.qMd.popped.length + 1 := by
        rw [hpopped, List.length_append, List.length_singleton]
      simp only [PublishPc.counted] at hcounted hdigest hinside
      rw [← hlength] at hcounted hdigest hinside
      rw [← hpushed] at hdigest hinside
      refine ⟨hidle, hcounted, hdigest, hinside, ?_, fun hto => by cases hto⟩
      rintro (hto | hto) <;> cases hto
  | done => exact h

theorem publishStep_frame (u : Setup) (s : State E) : Pops s.qMd (s.publishStep u).qMd ∧
    (s.publishStep u).qIn = s.qIn ∧
    (s.publishStep u).feed = s.feed ∧ (s.publishStep u).matching = s.matching ∧
    (s.publishStep u).feedDone = s.feedDone ∧
    (s.publishStep u).engineDone = s.engineDone := by
  have hmd : Pops s.qMd s.qMd := ⟨rfl, rfl⟩
  rw [State.publishStep]
  cases s.publishing.pc with
  | await w =>
      refine ⟨?_, rfl, rfl, rfl, rfl, rfl⟩
      cases w with
      | call | callAgain => exact SpscQueue.front_pops (q := u.qMd) s.qMd
      | look | lookAgain => exact SpscQueue.consume_pops (q := u.qMd) s.qMd
      | flag => exact hmd
  | take => exact ⟨hmd, rfl, rfl, rfl, rfl, rfl⟩
  | pop => exact ⟨SpscQueue.pop_pops (q := u.qMd) s.qMd, rfl, rfl, rfl, rfl, rfl⟩
  | popping => exact ⟨SpscQueue.consume_pops (q := u.qMd) s.qMd, rfl, rfl, rfl, rfl, rfl⟩
  | done => exact ⟨hmd, rfl, rfl, rfl, rfl, rfl⟩

/-! ### Every interleaving -/

structure Inv (u : Setup) (m : Matcher E) (e₀ : E) (s : State E) : Prop where
  qIn : SpscQueue.Inv u.qIn s.qIn
  qMd : SpscQueue.Inv u.qMd s.qMd
  feeding : Feeding u s
  engaged : Engaged m e₀ s
  published : Published s

theorem feedStep_ring (h : SpscQueue.Inv u.qIn s.qIn) (now : UInt64) :
    SpscQueue.Inv u.qIn (s.feedStep u now).qIn := by
  rw [State.feedStep]
  cases s.feed.pc with
  | decode =>
      simp only
      cases Wire.next u.wireBuf s.feed.off <;> exact h
  | push c => exact h.step (.tryPush c)
  | pushing c => exact h.step .produce
  | finish | done => exact h

theorem matchStep_rings (hin : SpscQueue.Inv u.qIn s.qIn) (hmd : SpscQueue.Inv u.qMd s.qMd) :
    SpscQueue.Inv u.qIn (s.matchStep u m).qIn ∧ SpscQueue.Inv u.qMd (s.matchStep u m).qMd := by
  rw [State.matchStep]
  cases s.matching.pc with
  | await w => exact ⟨hin.await _ w, hmd⟩
  | take =>
      simp only
      cases pointee s.qIn with
      | none => exact ⟨hin, hmd⟩
      | some c =>
          simp only
          cases m.process s.matching.engine c <;> exact ⟨hin, hmd⟩
  | publish ms topped =>
      cases ms with
      | nil => exact ⟨hin, hmd⟩
      | cons x ms => exact ⟨hin, hmd.step (.tryPush x)⟩
  | pushing x ms topped => exact ⟨hin, hmd.step .produce⟩
  | top =>
      simp only
      cases pointee s.qIn with
      | none => exact ⟨hin, hmd⟩
      | some c =>
          simp only
          split
          · split <;> exact ⟨hin, hmd⟩
          · exact ⟨hin, hmd⟩
  | pop => exact ⟨hin.step .pop, hmd⟩
  | popping => exact ⟨hin.step .consume, hmd⟩
  | finish | done | crashed => exact ⟨hin, hmd⟩

theorem publishStep_ring (h : SpscQueue.Inv u.qMd s.qMd) :
    SpscQueue.Inv u.qMd (s.publishStep u).qMd := by
  rw [State.publishStep]
  cases s.publishing.pc with
  | await w => exact h.await _ w
  | take => exact h
  | pop => exact h.step .pop
  | popping => exact h.step .consume
  | done => exact h

theorem Inv.step (h : Inv u m e₀ s) (total : ∀ cs, ∃ w, Made.work m e₀ cs = some w) (turn : Turn) :
    Inv u m e₀ (s.step u m turn) := by
  cases turn with
  | feed now =>
      obtain ⟨hpush, hmatching, hpublishing, hmd, hengine⟩ := feedStep_pushes u s now
      have hstay : s.feedDone = true → s.feedStep u now = s := by
        intro hd
        rw [State.feedStep, h.feeding.flag.mp hd]
      have hpops : Pops s.qMd (s.feedStep u now).qMd := by
        rw [hmd]
        exact ⟨rfl, rfl⟩
      refine ⟨feedStep_ring h.qIn now, ?_, h.feeding.step h.qIn now, ?_, ?_⟩
      · change SpscQueue.Inv u.qMd (s.feedStep u now).qMd
        rw [hmd]
        exact h.qMd
      · refine h.engaged.frame hmatching hengine hpops hpush (fun hd => ?_) (fun hd => ?_)
        · change (s.feedStep u now).feedDone = true
          rw [hstay hd]
          exact hd
        · change (s.feedStep u now).qIn.pushed = _
          rw [hstay hd]
      · refine h.published.frame hpublishing ?_ (fun hd => ?_) (fun _ => congrArg _ hmd)
        · change Pushes s.qMd (s.feedStep u now).qMd
          rw [hmd]
          exact ⟨rfl, rfl, rfl, List.prefix_rfl⟩
        · exact hengine.trans hd
  | matching =>
      obtain ⟨hpops, hpush, hfeed, hpublishing, hflag⟩ := matchStep_frame u m s
      have hstay : s.engineDone = true → s.matchStep u m = s := by
        intro hd
        rw [State.matchStep, h.engaged.flag.mp hd]
      obtain ⟨hin, hmd⟩ := matchStep_rings (m := m) h.qIn h.qMd
      refine ⟨hin, hmd, h.feeding.frame hfeed hflag hpops, h.engaged.step total h.qIn h.qMd, ?_⟩
      refine h.published.frame hpublishing hpush (fun hd => ?_) (fun hd => ?_)
      · change (s.matchStep u m).engineDone = true
        rw [hstay hd]
        exact hd
      · change (s.matchStep u m).qMd.pushed = _
        rw [hstay hd]
  | publishing =>
      obtain ⟨hpops, hin, hfeed, hmatching, hflag, hengine⟩ := publishStep_frame u s
      have hstay : Pops s.qIn (s.publishStep u).qIn := by
        rw [hin]
        exact ⟨rfl, rfl⟩
      refine ⟨?_, publishStep_ring h.qMd, h.feeding.frame hfeed hflag hstay, ?_,
        h.published.step h.qMd⟩
      · change SpscQueue.Inv u.qIn (s.publishStep u).qIn
        rw [hin]
        exact h.qIn
      · refine h.engaged.frame hmatching hengine hpops ?_ (fun hd => hflag.trans hd)
          (fun _ => congrArg _ hin)
        change Pushes s.qIn (s.publishStep u).qIn
        rw [hin]
        exact ⟨rfl, rfl, rfl, List.prefix_rfl⟩

theorem Inv.run (h : Inv u m e₀ s) (total : ∀ cs, ∃ w, Made.work m e₀ cs = some w)
    (turns : List Turn) :
    Inv u m e₀ (s.run u m turns) := by
  induction turns generalizing s with
  | nil => exact h
  | cons turn turns ih => exact ih (h.step total turn)

theorem Inv.start (u : Setup) (m : Matcher E) (e₀ : E) (zeroIn : Command) (zeroMd : MdMsg) :
    Inv u m e₀ (Pipeline.start e₀ zeroIn zeroMd) where
  qIn := SpscQueue.inv_make u.qIn zeroIn
  qMd := SpscQueue.inv_make u.qMd zeroMd
  feeding := by
    refine ⟨rfl, ⟨[], ⟨Nat.zero_le
      _, by simpa [Pipeline.start] using Lib.Framing.Parses.done u.wireBuf, rfl⟩, rfl, rfl⟩, rfl,
        ?_, ?_⟩
    · rintro (hf | hf) <;> cases hf
    · exact ⟨fun hd => (by cases hd), fun hd => (by cases hd)⟩
  engaged := by
    refine ⟨rfl, rfl, ⟨_, rfl, rfl, rfl, rfl, rfl⟩, rfl, ?_, ?_, ?_⟩
    · rintro (hf | hf) <;> cases hf
    · rintro (hf | hf) <;> cases hf
    · exact ⟨fun hd => (by cases hd), fun hd => (by cases hd)⟩
  published := by
    refine ⟨rfl, rfl, rfl, Nat.le_refl _, ?_, fun hf => by cases hf⟩
    rintro (hf | hf) <;> cases hf

/-! ### The replay of the capture -/

/-- `exsim_replay` on decoded commands: the engine, and every event it sends out. -/
def Matcher.replay (m : Matcher E) (engine : E) (cs : List Command) : Option (E × List Event) :=
  cs.foldlM (fun r c => (m.process r.1 c).map fun r' => (r'.1, r.2 ++ r'.2)) (engine, [])

theorem parsed_plain {p r : Bytes} {items : List Wire.Item} (h : Wire.messages.Parses p items r) :
    ∀ c ∈ commandsOf items, unstamped c = c := by
  induction h with
  | done p => rintro c ⟨⟩
  | @frame p r item n items hfirst _ ih =>
      intro c hc
      rw [← List.singleton_append, commandsOf_append] at hc
      rcases List.mem_append.mp hc with hc | hc
      · rcases Wire.firstMessage_cases hfirst with ⟨d, hdec, rfl⟩ | ⟨-, -, rfl⟩
        · rw [List.mem_singleton.mp hc]
          exact decoded_plain hdec
        · cases hc
      · exact ih c hc

/-- What the feed has pushed is a front of the capture, and all of it when the feed has ended. -/
theorem Feeding.capture (h : Feeding u s) :
    ∃ cap, Wire.decodeStream (u.wireBuf.length + 1) u.wireBuf = some cap ∧
    (∀ c ∈ commandsOf cap.seen, unstamped c = c) ∧
    s.qIn.pushed.map unstamped <+: commandsOf cap.seen ∧
    (s.feedDone = true → s.qIn.pushed.map unstamped = commandsOf cap.seen ∧
      s.feed.malformed = UInt64.ofNat (cap.seen.length - (commandsOf cap.seen).length)) := by
  obtain ⟨cap, hcap, hfinished⟩ := Wire.decodeStream_total u.wireBuf _ (Nat.lt_succ_self _)
  obtain ⟨seen, hreached, hseen, hmal⟩ := h.read
  obtain ⟨more, hmore, -⟩ := hreached.parsed.resume hfinished.parsed hfinished.stuck
  refine ⟨cap, hcap, parsed_plain hfinished.parsed, ?_, fun hd => ?_⟩
  · rw [hmore, commandsOf_append, hseen, List.map_append, List.append_assoc]
    exact List.prefix_append _ _
  · have hpc := h.flag.mp hd
    obtain ⟨hsame, -⟩ :=
      hreached.parsed.unique hfinished.parsed (h.stuck (.inr hpc)) hfinished.stuck
    have hsame : seen = cap.seen := hsame
    rw [hpc] at hseen
    rw [← hsame, hseen]
    refine ⟨(congrArg _ (List.append_nil _)).symm, ?_⟩
    rw [hmal, hseen]

/-- What has gone out is a front of what the commands make: the messages, and the events that are
counted. -/
theorem Engaged.sent (h : Engaged m e₀ s) (hin : SpscQueue.Inv u.qIn s.qIn) {w : Made E}
    (hwork : Made.work m e₀ s.qIn.pushed = some w) :
    s.qMd.pushed <+: w.msgs ∧ ∃ evs, s.matching.counts = CountingSink.of evs ∧
    evs <+: w.events := by
  obtain ⟨w₀, hwork₀, hreached⟩ := h.made
  obtain ⟨more, hmore⟩ := hin.order
  have hsent : ∀ w₁, Holding w₁ s → w₁.msgs <+: w.msgs → w₁.events <+: w.events →
      s.qMd.pushed <+: w.msgs ∧ ∃ evs, s.matching.counts = CountingSink.of evs ∧
      evs <+: w.events := by
    intro w₁ hold hmsgs hevents
    refine ⟨List.IsPrefix.trans ?_ hmsgs, w₁.events, hold.counts, hevents⟩
    rw [hold.msgs]
    exact List.prefix_append _ _
  -- the command at hand is the next that was pushed
  have hnext : ∀ c w₁, s.qIn.pushed[s.qIn.popped.length]? = some c → w₀.process m c = some w₁ →
      (w₁.top m c).msgs <+: w.msgs ∧ w₁.events <+: w.events := by
    intro c w₁ hc hw₁
    rw [← hmore, List.getElem?_append_right (Nat.le_refl _), Nat.sub_self] at hc
    cases more with
    | nil => cases hc
    | cons d more =>
        obtain rfl := Option.some.inj hc
        rw [← hmore, List.append_cons] at hwork
        obtain ⟨w₂, hw₂, hevents, hmsgs⟩ := Made.work_append hwork
        rw [Made.work_concat hwork₀, Made.step, hw₁] at hw₂
        obtain rfl := Option.some.inj hw₂
        rw [Made.top_events] at hevents
        exact ⟨hmsgs, hevents⟩
  cases hstage : s.matching.pc.stage with
  | untouched =>
      rw [hstage] at hreached
      rw [← hmore] at hwork
      obtain ⟨w₂, hw₂, hevents, hmsgs⟩ := Made.work_append hwork
      obtain rfl := Option.some.inj (hwork₀.symm.trans hw₂)
      exact hsent w₀ hreached hmsgs hevents
  | processed =>
      rw [hstage] at hreached
      obtain ⟨c, w₁, hc, hw₁, hold⟩ := hreached
      obtain ⟨hmsgs, hevents⟩ := hnext c w₁ hc hw₁
      exact hsent w₁ hold ((Made.top_msgs w₁ c).trans hmsgs) hevents
  | topped =>
      rw [hstage] at hreached
      obtain ⟨c, w₁, hc, hw₁, hold⟩ := hreached
      obtain ⟨hmsgs, hevents⟩ := hnext c w₁ hc hw₁
      refine hsent _ hold hmsgs ?_
      rw [Made.top_events]
      exact hevents

section Engine

open Book (OrderBook StoreLayout IndexHash)
open Engine (EngineRefines)

variable {σ : Type} [StoreLayout σ] {symbols : UInt32} {cfg : BookConfig}

theorem refines_unstamped {e e' : MatchingEngine (OrderBook σ)}
    {books : SymbolId → Book.PriorityBook} (h : EngineRefines symbols cfg e books)
    (h' : EngineRefines symbols cfg e' books) (c : Command) :
    ∃ e₁ e₁' events books', e.process c = some (e₁, events) ∧
    e'.process (unstamped c) = some (e₁', events) ∧
      EngineRefines symbols cfg e₁ books' ∧ EngineRefines symbols cfg e₁' books' := by
  by_cases hknown : c.symbol < symbols
  · obtain ⟨e₁, hrun, hrefines⟩ := h.process hknown
    obtain ⟨e₁', hrun', hrefines'⟩ := h'.process (c := unstamped c) hknown
    exact ⟨e₁, e₁', _, _, hrun, hrun', hrefines, hrefines'⟩
  · exact ⟨e, e', _, books, h.unknown hknown, h'.unknown (c := unstamped c) hknown, h, h'⟩

theorem work_replay {e e' : MatchingEngine (OrderBook σ)} {books : SymbolId → Book.PriorityBook}
    (h : EngineRefines symbols cfg e books) (h' : EngineRefines symbols cfg e' books)
    (cs : List Command) :
    ∃ w r books', Made.work (matcher symbols) e cs = some w ∧ (matcher symbols).replay e'
      (cs.map unstamped) = some r ∧
      r.2 = w.events ∧ EngineRefines symbols cfg w.engine books' ∧
      EngineRefines symbols cfg r.1 books' := by
  induction cs using List.reverseRecOn with
  | nil => exact ⟨_, _, books, rfl, rfl, rfl, h, h'⟩
  | append_singleton cs c ih =>
      obtain ⟨w, r, books₁, hw, hr, hevents, hrefines, hrefines'⟩ := ih
      obtain ⟨e₁, e₁', events, books₂, hrun, hrun', hnew, hnew'⟩ :=
        refines_unstamped hrefines hrefines' c
      have hwork : w.process (matcher symbols) c =
          some { w with
            engine := e₁, events := w.events ++ events,
            msgs := w.msgs ++ tradeMsgs c.ts events } := by
        have hrun : (matcher symbols).process w.engine c = some (e₁, events) := hrun
        rw [Made.process, hrun]
        rfl
      generalize hmade : ({ w with
        engine := e₁, events := w.events ++ events, msgs := w.msgs ++ tradeMsgs c.ts events } : Made
          _) = w₁ at hwork
      refine ⟨w₁.top (matcher symbols) c, (e₁', r.2 ++ events), books₂, ?_, ?_, ?_, ?_, hnew'⟩
      · rw [Made.work_concat hw, Made.step, hwork]
        rfl
      · rw [Matcher.replay] at hr ⊢
        rw [List.map_append, List.foldlM_append, hr, Option.bind_eq_bind, Option.bind_some]
        have hrun' : (matcher symbols).process r.1 (unstamped c) = some (e₁', events) := hrun'
        simp only [List.map_cons, List.map_nil, List.foldlM_cons, List.foldlM_nil, bind_pure, hrun',
          Option.map_some]
      · rw [Made.top_events, ← hmade, hevents]
      · rw [Made.top_engine, ← hmade]
        exact hnew

theorem engine_total (symbols : UInt32) (hash : IndexHash) (ok : cfg.Accepted) (cs : List Command) :
    ∃ w, Made.work (matcher symbols)
      (MatchingEngine.make (σ := σ) hash symbols cfg) cs = some w := by
  have hrefines := Engine.engineRefines_make (σ := σ) hash symbols ok
  obtain ⟨w, -, -, hw, -⟩ := work_replay hrefines hrefines cs
  exact ⟨w, hw⟩

theorem Matcher.replay_front {m : Matcher E} {cs ds : List Command} (hfront : cs <+: ds)
    {r r' : E × List Event} (h : m.replay e₀ cs = some r) (h' : m.replay e₀ ds = some r') :
    r.2 <+: r'.2 := by
  obtain ⟨more, rfl⟩ := hfront
  rw [Matcher.replay, List.foldlM_append] at h'
  rw [Matcher.replay] at h
  rw [h, Option.bind_eq_bind, Option.bind_some] at h'
  clear h
  induction more generalizing r with
  | nil =>
      obtain rfl := Option.some.inj h'
      exact List.prefix_rfl
  | cons d more ih =>
      rw [List.foldlM_cons] at h'
      obtain ⟨r₁, hone, hrest⟩ := Option.bind_eq_some_iff.mp h'
      obtain ⟨p, -, rfl⟩ := Option.map_eq_some_iff.mp hone
      exact (List.prefix_append _ _).trans (ih hrest)

/-- The pipeline under any interleaving of its threads: what has been processed is a front of the
capture, the events counted are a front of those of a replay of the capture by one thread, and the
market data is what one thread makes of the commands. A thread ends only when everything before it
has ended, with nothing left over: then the counters and the digest are those of the replay. -/
theorem pipeline_matches_replay (symbols : UInt32) (cfg : BookConfig) (hash : IndexHash)
    (ok : cfg.Accepted) (u : Setup) (zeroIn : Command) (zeroMd : MdMsg) (turns : List Turn) :
    let m : Matcher (MatchingEngine (OrderBook σ)) := matcher symbols
    let e₀ : MatchingEngine (OrderBook σ) := .make hash symbols cfg
    let s := (start e₀ zeroIn zeroMd).run u m turns
    ∃ cap r w evs, Wire.decodeStream (u.wireBuf.length + 1) u.wireBuf = some cap ∧
      m.replay e₀ (commandsOf cap.seen) = some r ∧
      Made.work m e₀ s.qIn.pushed = some w ∧ s.matching.pc.Ends s.qIn ∧
      s.qIn.popped <+: s.qIn.pushed ∧ s.qIn.pushed.map unstamped <+: commandsOf cap.seen ∧
      s.matching.counts = CountingSink.of evs ∧ evs <+: w.events ∧ w.events <+: r.2 ∧
      s.qMd.popped <+: s.qMd.pushed ∧ s.qMd.pushed <+: w.msgs ∧
      (s.matching.pc = .done → s.feed.pc = .done ∧
        s.qIn.popped.map unstamped = commandsOf cap.seen ∧
        s.matching.counts = CountingSink.of r.2 ∧
        s.matching.processed = UInt64.ofNat (commandsOf cap.seen).length ∧
        s.feed.malformed = UInt64.ofNat (cap.seen.length - (commandsOf cap.seen).length)) ∧
      (s.publishing.pc = .done → s.matching.pc = .done ∧ s.qMd.popped = w.msgs ∧
        s.publishing.mdMsgs = UInt64.ofNat w.msgs.length ∧
        s.publishing.mdDigest = mdDigestOf w.msgs) := by
  intro m e₀ s
  have hrefines : EngineRefines symbols cfg e₀ fun _ => Book.PriorityBook.empty :=
    Engine.engineRefines_make hash symbols ok
  have h : Inv u m e₀ s := (Inv.start u m e₀ zeroIn zeroMd).run (engine_total symbols hash ok) turns
  obtain ⟨cap, hcap, hplain, hfront, hwhole⟩ := h.feeding.capture
  obtain ⟨w, r₁, -, hwork, hreplay₁, hevents, -⟩ := work_replay hrefines hrefines s.qIn.pushed
  obtain ⟨-, r, -, -, hreplay, -⟩ := work_replay hrefines hrefines (commandsOf cap.seen)
  rw [List.map_congr_left hplain, List.map_id'] at hreplay
  obtain ⟨hmd, evs, hcounts, hevs⟩ := h.engaged.sent h.qIn hwork
  refine ⟨cap, r, w, evs, hcap, hreplay, hwork, h.engaged.ends, h.qIn.order, hfront,
    hcounts, hevs, ?_, h.qMd.order, hmd, fun hpc => ?_, fun hpc => ?_⟩
  · rw [← hevents]
    exact Matcher.replay_front hfront hreplay₁ hreplay
  · obtain ⟨hdone, hempty⟩ := h.engaged.finished (.inr hpc)
    obtain ⟨hall, hmal⟩ := hwhole hdone
    obtain ⟨w', hwork', hold⟩ := h.engaged.made
    rw [hpc] at hold
    rw [hempty] at hwork'
    obtain rfl := Option.some.inj (hwork.symm.trans hwork')
    rw [hall] at hreplay₁
    obtain rfl := Option.some.inj (hreplay₁.symm.trans hreplay)
    refine ⟨h.feeding.flag.mp hdone, by rw [hempty, hall], by rw [hevents]; exact hold.counts, ?_,
      hmal⟩
    have hcount := h.engaged.processed
    rw [hpc] at hcount
    rw [hcount, ← hall, List.length_map, hempty]
    rfl
  · obtain ⟨hdone, hempty⟩ := h.published.finished hpc
    have hmatching := h.engaged.flag.mp hdone
    obtain ⟨-, hempty'⟩ := h.engaged.finished (.inr hmatching)
    obtain ⟨w', hwork', hold⟩ := h.engaged.made
    have hmsgs := hold
    rw [hmatching] at hmsgs
    rw [hempty'] at hwork'
    obtain rfl := Option.some.inj (hwork.symm.trans hwork')
    have hall : w.msgs = s.qMd.pushed := by
      have hmsgs : w.msgs = s.qMd.pushed ++ s.matching.pc.pending := hmsgs.msgs
      rw [hmatching] at hmsgs
      exact hmsgs.trans (List.append_nil _)
    have hcount := h.published.counted
    have hdigest := h.published.digest
    rw [hpc] at hcount hdigest
    refine ⟨hmatching, hempty.trans hall.symm, ?_, ?_⟩
    · rw [hcount, hall, hempty]
      rfl
    · rw [hdigest, hall, hempty]
      exact congrArg mdDigestOf (List.take_length ..)

/-- Two orders that trade, through rings of two elements. -/
def smallSetup : Setup where
  qIn := ⟨1, by decide⟩
  qMd := ⟨1, by decide⟩
  wireBuf := Wire.encode { orderId := 7, price := 5, qty := 2, type := .newOrder, side := .sell } ++
    Wire.encode { orderId := 8, price := 5, qty := 1, type := .newOrder, side := .buy }

/-- The threads in turn. -/
def roundRobin (n : Nat) : List Turn :=
  (List.range n).flatMap fun k => [.feed (UInt64.ofNat k), .matching, .publishing]

def zeroMd : MdMsg := ⟨0, 0, 0, 0, 0, 0, .trade, .buy⟩

def smallRun : State (MatchingEngine (OrderBook Book.AosStore)) :=
  (start (.make Book.scatterHash 1 { numLevels := 64, maxOrders := 4 })
    { orderId := 0, type := .newOrder } zeroMd).run
    smallSetup (matcher 1) (roundRobin 45)

theorem pipeline_matches_replay_small : smallRun.publishing.pc = .done ∧
    ∃ cap r, Wire.decodeStream (smallSetup.wireBuf.length + 1) smallSetup.wireBuf = some cap ∧
      (matcher 1).replay (MatchingEngine.make Book.scatterHash 1
        { numLevels := 64, maxOrders := 4 } :
        MatchingEngine (OrderBook Book.AosStore)) (commandsOf cap.seen) = some r ∧
      smallRun.matching.counts = CountingSink.of r.2 := by
  have hdone : smallRun.publishing.pc = .done := by decide +kernel
  obtain ⟨cap, r, w, evs, hcap, hreplay, -, -, -, -, -, -, -, -, -, hmatching, hpublishing⟩ :=
    pipeline_matches_replay (σ := Book.AosStore) 1
      { numLevels := 64, maxOrders := 4 } Book.scatterHash (by decide) smallSetup
      { orderId := 0, type := .newOrder } zeroMd (roundRobin 45)
  rw [smallRun] at hdone ⊢
  exact ⟨hdone, cap, r, hcap, hreplay, (hmatching (hpublishing hdone).1).2.2.1⟩

end Engine

end ExchangeSim.Pipeline
