/- digest: From every state that the threads can reach they can go on to their ends: no interleaving
   leads into a deadlock. -/

import ExchangeSim.Pipeline.Exact

set_option autoImplicit false
set_option relaxedAutoImplicit false

namespace ExchangeSim.Pipeline

open Engine (SpscQueue RingSize MatchingEngine)
open Engine.SpscQueue (Calling Waits Pushes Pops)

variable {E α : Type}

/-! ### What is left to do -/

/-- The elements that are in the ring. -/
def held (q : SpscQueue α) : Nat := q.pushed.length - q.popped.length

def callRank (q : SpscQueue α) : Nat :=
  match q.producer with
  | .checking _ _ => 2
  | .writing _ _ => 1
  | .idle | .storing _ _ => 0

/-- The steps of a thread that waits, until it has an element, or until it knows that there will be
none. -/
def waitRank (empty : Bool) : Waiting → Nat
  | .call => if empty then 5 else 2
  | .look => if empty then 4 else 1
  | .flag => if empty then 3 else 5
  | .callAgain => if empty then 2 else 4
  | .lookAgain => if empty then 1 else 3

def FeedPc.rank (q : SpscQueue Command) : FeedPc → Nat
  | .push _ => 6
  | .pushing _ => 3 + callRank q
  | .decode => 2
  | .finish => 1
  | .done => 0

def MatchPc.rank : MatchPc → Nat
  | .await _ => 6
  | .take => 5
  | .publish _ topped | .pushing _ _ topped => if topped then 2 else 4
  | .top => 3
  | .pop | .finish => 1
  | .popping | .done | .crashed => 0

/-- The steps until the messages at hand are published, or until the wait is over. -/
def MatchPc.messageRank (q : SpscQueue MdMsg) (empty : Bool) : MatchPc → Nat
  | .await w => waitRank empty w
  | .publish ms _ => 4 * ms.length
  | .pushing _ ms _ => 4 * ms.length + 1 + callRank q
  | _ => 0

def PublishPc.rank (empty : Bool) : PublishPc → Nat
  | .await w => 4 + waitRank empty w
  | .take => 3
  | .pop => 2
  | .popping => 1
  | .done => 0

variable {u : Setup} {m : Matcher E} {e₀ : E} {s s' : State E}

def feedLeft (u : Setup) (s : State E) : Nat :=
  8 * (u.wireBuf.length - s.feed.off) + s.feed.pc.rank s.qIn

def matchLeft (s : State E) : Nat := 8 * held s.qIn + s.matching.pc.rank

def messagesLeft (s : State E) : Nat := s.matching.pc.messageRank s.qMd (held s.qIn = 0)

def publishLeft (s : State E) : Nat := 16 * held s.qMd + s.publishing.pc.rank (held s.qMd = 0)

/-- What is left to do, the earlier threads first. -/
def left (u : Setup) (s : State E) : ℕ ×ₗ ℕ ×ₗ ℕ ×ₗ ℕ :=
  toLex (feedLeft u s, toLex (matchLeft s, toLex (messagesLeft s, publishLeft s)))

theorem left_lt_of_feed (h : feedLeft u s' < feedLeft u s) : left u s' < left u s :=
  Prod.Lex.toLex_lt_toLex.mpr (.inl h)

theorem left_lt_of_match (hfeed : feedLeft u s' = feedLeft u s) (h : matchLeft s' < matchLeft s) :
    left u s' < left u s :=
  Prod.Lex.toLex_lt_toLex.mpr (.inr ⟨hfeed, Prod.Lex.toLex_lt_toLex.mpr (.inl h)⟩)

theorem left_lt_of_messages (hfeed : feedLeft u s' = feedLeft u s)
    (hmatch : matchLeft s' = matchLeft s) (h : messagesLeft s' < messagesLeft s) :
    left u s' < left u s :=
  Prod.Lex.toLex_lt_toLex.mpr (.inr
    ⟨hfeed, Prod.Lex.toLex_lt_toLex.mpr (.inr ⟨hmatch, Prod.Lex.toLex_lt_toLex.mpr (.inl h)⟩)⟩)

theorem left_lt_of_publish (hfeed : feedLeft u s' = feedLeft u s)
    (hmatch : matchLeft s' = matchLeft s) (hmessages : messagesLeft s' = messagesLeft s)
    (h : publishLeft s' < publishLeft s) : left u s' < left u s :=
  Prod.Lex.toLex_lt_toLex.mpr (.inr
    ⟨hfeed, Prod.Lex.toLex_lt_toLex.mpr (.inr ⟨hmatch, Prod.Lex.toLex_lt_toLex.mpr
    (.inr ⟨hmessages, h⟩)⟩)⟩)

/-! ### The ends of the rings -/

variable {q : RingSize} {r : SpscQueue α}

theorem Calling.rank {v : α} (h : Calling r v) (hinv : SpscQueue.Inv q r)
    (room : held r < 2 ^ q.log2) :
    (pushed? q r = some true ∧ (r.step q .produce).producer = .idle ∧
      (r.step q .produce).pushed = r.pushed ++ [v]) ∨
      (pushed? q r = none ∧ callRank (r.step q .produce) < callRank r ∧
        (r.step q .produce).pushed = r.pushed) := by
  have hord := hinv.order.length_le
  obtain ⟨t, hpc | hpc | hpc⟩ := h
  · right
    have hfull := hinv.full_iff hpc
    have hroom : ¬ t - r.head = q.capacity := by
      rw [hfull]
      unfold held at room
      omega
    by_cases hcache : t - r.headCache = q.capacity
    · simp only [SpscQueue.step, pushed?, SpscQueue.produce, hpc, callRank,
        if_pos hcache, if_neg hroom]
      exact ⟨trivial, by decide, trivial⟩
    · simp only [SpscQueue.step, pushed?, SpscQueue.produce, hpc, callRank, if_neg hcache]
      exact ⟨trivial, by decide, trivial⟩
  · right
    simp only [SpscQueue.step, pushed?, SpscQueue.produce, hpc, callRank]
    exact ⟨trivial, by decide, trivial⟩
  · left
    simp only [SpscQueue.step, pushed?, SpscQueue.produce, hpc]
    exact ⟨trivial, trivial, trivial⟩

theorem Waits.rank {w : Waiting} (h : Waits r w) (hinv : SpscQueue.Inv q r)
    (hheld : held r ≠ 0) (done : Bool) :
    (await q r done w).2 = .element ∨ ∃ w', (await q r done w).2 = .waiting w' ∧
    waitRank false w' < waitRank false w := by
  have hnot : r.popped ≠ r.pushed := by
    intro heq
    rw [held, heq, Nat.sub_self] at hheld
    exact hheld rfl
  cases w with
  | call => exact .inr ⟨.look, rfl, by decide⟩
  | look =>
      obtain ⟨x, hpc⟩ := h
      left
      cases hh : (r.step q .consume).handed with
      | none => exact absurd (hinv.nothing_left hpc hh) hnot
      | some i =>
          simp only [await, hh]
          rfl
  | flag =>
      right
      simp only [await]
      cases done with
      | true => exact ⟨.callAgain, rfl, by decide⟩
      | false => exact ⟨.call, rfl, by decide⟩
  | callAgain => exact .inr ⟨.lookAgain, rfl, by decide⟩
  | lookAgain =>
      obtain ⟨x, hpc⟩ := h
      right
      cases hh : (r.step q .consume).handed with
      | none => exact absurd (hinv.nothing_left hpc hh) hnot
      | some i =>
          refine ⟨.call, ?_, by decide⟩
          simp only [await, hh]
          rfl

theorem Waits.rank_empty {w : Waiting} (h : Waits r w) (hinv : SpscQueue.Inv q r)
    (hheld : held r = 0) :
    (await q r true w).2 = .ended ∨ ∃ w', (await q r true w).2 = .waiting w' ∧
    waitRank true w' < waitRank true w := by
  have hnone : ∀ x, r.consumer = .looking x → (r.step q .consume).handed = none := by
    intro x hpc
    obtain ⟨hpopped, -⟩ := SpscQueue.look_popped (q := q) hpc
    have hpushed := (SpscQueue.consume_pops (q := q) r).pushed
    cases hh : (r.step q .consume).handed with
    | none => rfl
    | some i =>
        have hat := ((hinv.step .consume).handed_value hh).1
        have hlt := (List.getElem?_eq_some_iff.mp hat).1
        rw [hpopped, hpushed] at hlt
        unfold held at hheld
        omega
  cases w with
  | call => exact .inr ⟨.look, rfl, by decide⟩
  | look =>
      obtain ⟨x, hpc⟩ := h
      right
      refine ⟨.flag, ?_, by decide⟩
      simp only [await, hnone x hpc]
      rfl
  | flag => exact .inr ⟨.callAgain, rfl, by decide⟩
  | callAgain => exact .inr ⟨.lookAgain, rfl, by decide⟩
  | lookAgain =>
      obtain ⟨x, hpc⟩ := h
      left
      simp only [await, hnone x hpc]
      rfl

theorem Waits.goes_on {w : Waiting} (h : Waits r w) (hinv : SpscQueue.Inv q r) (done : Bool)
    (hwait : held r ≠ 0 ∨ done = true) :
    (await q r done w).2 = .element ∨ (await q r done w).2 = .ended ∨
      ∃ w', (await q r done w).2 = .waiting w' ∧
      waitRank (held r = 0) w' < waitRank (held r = 0) w := by
  by_cases hempty : held r = 0
  · rw [hwait.resolve_left (not_not.mpr hempty), decide_eq_true hempty]
    exact .inr (Waits.rank_empty h hinv hempty)
  · rw [decide_eq_false hempty]
    rcases Waits.rank h hinv hempty done with hfound | hless
    · exact .inl hfound
    · exact .inr (.inr hless)

/-! ### The threads -/

theorem feedLeft_of_frame (hfeed : s'.feed = s.feed) (hpops : Pops s.qIn s'.qIn) :
    feedLeft u s' = feedLeft u s := by
  rw [feedLeft, feedLeft, hfeed]
  congr 1
  cases s.feed.pc with
  | pushing c => simp only [FeedPc.rank, callRank, hpops.producer]
  | decode | push | finish | done => rfl

theorem Feeding.goes_on (h : Feeding u s) (hin : SpscQueue.Inv u.qIn s.qIn)
    (hroom : held s.qIn < 2 ^ u.qIn.log2) (hgo : s.feed.pc ≠ .done) :
    feedLeft u (s.feedStep u 0) < feedLeft u s := by
  obtain ⟨seen, hreached, -⟩ := h.read
  have hinside : s.feed.off ≤ u.wireBuf.length := hreached.inside
  have hlen : (u.wireBuf.drop s.feed.off).length = u.wireBuf.length - s.feed.off := List.length_drop
  have hcalls := h.calls
  rw [feedLeft, feedLeft, State.feedStep]
  cases hpc : s.feed.pc with
  | decode =>
      have hnext := Wire.decode_eq_next u.wireBuf s.feed.off
      simp only
      cases hn : Wire.next u.wireBuf s.feed.off with
      | command c n =>
          rw [hn] at hnext
          have hdec : Wire.decode (u.wireBuf.drop s.feed.off) = .ok c n := hnext
          have havail := (Wire.decode_ok hdec).available
          have hpos := Wire.decode_ok_pos hdec
          simp only [FeedPc.rank]
          omega
      | skip n =>
          rw [hn] at hnext
          have hdec : Wire.decode (u.wireBuf.drop s.feed.off) = .malformed n := hnext
          have hpos := Wire.next_skip_ne_zero hn
          have havail := (Wire.decode_malformed hdec).1
          simp only [FeedPc.rank, hpc]
          omega
      | wait | lost =>
          simp only [FeedPc.rank]
          omega
  | push c =>
      rw [hpc] at hcalls
      have hrank : callRank (s.qIn.step u.qIn (.tryPush c)) = 2 := by
        simp only [SpscQueue.step, show s.qIn.producer = .idle from hcalls, callRank]
      simp only [FeedPc.rank, hrank]
      omega
  | pushing c =>
      rw [hpc] at hcalls
      rcases Calling.rank hcalls hin hroom with ⟨hres, -, -⟩ | ⟨hres, hrank, -⟩
      · simp only [hres, FeedPc.rank]
        omega
      · simp only [hres, hpc, FeedPc.rank]
        omega
  | finish =>
      simp only [FeedPc.rank]
      omega
  | done => exact absurd hpc hgo

theorem held_of_pops {r r' : SpscQueue α} (hpops : Pops r r') (hpopped : r'.popped = r.popped) :
    held r' = held r := by
  rw [held, held, hpops.pushed, hpopped]

/-- The engine thread goes on, if it has a command at hand or can have one, and if there is room for
its messages. -/
theorem Engaged.goes_on (h : Engaged m e₀ s) (hin : SpscQueue.Inv u.qIn s.qIn)
    (hmd : SpscQueue.Inv u.qMd s.qMd) (total : ∀ cs, ∃ w, Made.work m e₀ cs = some w)
    (hroom : held s.qMd < 2 ^ u.qMd.log2) (hgo : s.matching.pc ≠ .done)
    (hwait : ∀ w, s.matching.pc = .await w → held s.qIn ≠ 0 ∨ s.feedDone = true) :
    left u (s.matchStep u m) < left u s := by
  obtain ⟨hpops, -, hfeed, -⟩ := matchStep_frame u m s
  have hfeed := feedLeft_of_frame (u := u) hfeed hpops
  have hends := h.ends
  have hcalls := h.calls
  cases hpc : s.matching.pc with
  | await w =>
      rw [hpc] at hends
      obtain ⟨-, hpopped, hpops'⟩ := SpscQueue.Waits.step hends hin s.feedDone
      have hheld := held_of_pops hpops' hpopped
      have hgo := Waits.goes_on hends hin s.feedDone (hwait w hpc)
      rcases hgo with hfound | hfound | ⟨w', hfound, hless⟩
      · refine left_lt_of_match hfeed ?_
        simp only [matchLeft, State.matchStep, hpc, hfound, hheld, MatchPc.rank]
        omega
      · refine left_lt_of_match hfeed ?_
        simp only [matchLeft, State.matchStep, hpc, hfound, hheld, MatchPc.rank]
        omega
      · refine left_lt_of_messages hfeed ?_ ?_
        · simp only [matchLeft, State.matchStep, hpc, hfound, hheld, MatchPc.rank]
        · simp only [messagesLeft, State.matchStep, hpc, hfound, hheld, MatchPc.messageRank]
          exact hless
  | take =>
      rw [hpc] at hends
      obtain ⟨c, hpointee, -⟩ := hin.element hends.2
      obtain ⟨w, hwork, hold⟩ := h.made
      rw [hpc] at hold
      obtain ⟨w', hw'⟩ := Made.process_of_total total hwork c
      obtain ⟨⟨engine, events⟩, hrun, -⟩ := Option.map_eq_some_iff.mp hw'
      rw [← hold.engine] at hrun
      refine left_lt_of_match hfeed ?_
      simp only [matchLeft, State.matchStep, hpc, hpointee, hrun, MatchPc.rank]
      simp
  | publish ms topped =>
      cases ms with
      | nil =>
          refine left_lt_of_match hfeed ?_
          cases topped with
          | true =>
              simp only [matchLeft, State.matchStep, hpc, MatchPc.rank, if_true]
              omega
          | false =>
              simp only [matchLeft, State.matchStep, hpc, MatchPc.rank,
                Bool.false_eq_true, if_false]
              omega
      | cons x ms =>
          rw [hpc] at hcalls
          have hrank : callRank (s.qMd.step u.qMd (.tryPush x)) = 2 := by
            simp only [SpscQueue.step, show s.qMd.producer = .idle from hcalls, callRank]
          refine left_lt_of_messages hfeed ?_ ?_
          · simp only [matchLeft, State.matchStep, hpc, MatchPc.rank]
          · simp only [messagesLeft, State.matchStep, hpc, MatchPc.messageRank, hrank,
              List.length_cons]
            omega
  | pushing x ms topped =>
      rw [hpc] at hcalls
      rcases Calling.rank hcalls hmd hroom with ⟨hres, -, -⟩ | ⟨hres, hrank, -⟩
      · refine left_lt_of_messages hfeed ?_ ?_
        · simp only [matchLeft, State.matchStep, hpc, hres, MatchPc.rank]
        · simp only [messagesLeft, State.matchStep, hpc, hres, MatchPc.messageRank]
          omega
      · refine left_lt_of_messages hfeed ?_ ?_
        · simp only [matchLeft, State.matchStep, hpc, hres]
        · simp only [messagesLeft, State.matchStep, hpc, hres, MatchPc.messageRank]
          omega
  | top =>
      rw [hpc] at hends
      obtain ⟨c, hpointee, -⟩ := hin.element hends.2
      refine left_lt_of_match hfeed ?_
      simp only [matchLeft, State.matchStep, hpc, hpointee]
      split
      · split
        · simp only [MatchPc.rank]
          omega
        · simp only [MatchPc.rank, if_true]
          omega
      · simp only [MatchPc.rank]
        omega
  | pop =>
      rw [hpc] at hends
      obtain ⟨-, -, hpopped⟩ := SpscQueue.pop_storing (q := u.qIn) hends.1 hends.2
      have hheld := held_of_pops (SpscQueue.pop_pops (q := u.qIn) s.qIn) hpopped
      refine left_lt_of_match hfeed ?_
      simp only [matchLeft, State.matchStep, hpc, hheld, MatchPc.rank]
      omega
  | popping =>
      rw [hpc] at hends
      obtain ⟨⟨x, hstoring⟩, hsome⟩ := hends
      obtain ⟨-, v, hat, hpopped⟩ := hin.popped_next hstoring hsome
      have hlt := (List.getElem?_eq_some_iff.mp hat).1
      have hpushed := (SpscQueue.consume_pops (q := u.qIn) s.qIn).pushed
      refine left_lt_of_match hfeed ?_
      simp only [matchLeft, State.matchStep, hpc, held, hpushed, hpopped, List.length_append,
        List.length_singleton, MatchPc.rank]
      omega
  | finish =>
      refine left_lt_of_match hfeed ?_
      simp only [matchLeft, State.matchStep, hpc, MatchPc.rank]
      omega
  | done => exact absurd hpc hgo
  | crashed =>
      rw [hpc] at hends
      cases hends

theorem matchLeft_of_frame (hmatching : s'.matching = s.matching) (hin : s'.qIn = s.qIn) :
    matchLeft s' = matchLeft s := by
  rw [matchLeft, matchLeft, hmatching, hin]

theorem messagesLeft_of_frame (hmatching : s'.matching = s.matching) (hin : s'.qIn = s.qIn)
    (hpops : Pops s.qMd s'.qMd) :
    messagesLeft s' = messagesLeft s := by
  rw [messagesLeft, messagesLeft, hmatching, hin]
  cases s.matching.pc with
  | pushing x ms topped => simp only [MatchPc.messageRank, callRank, hpops.producer]
  | await | take | publish | top | pop | popping | finish | done | crashed => rfl

/-- The market data thread goes on, if it has a message at hand or can have one, or if there will be
none. -/
theorem Published.goes_on (h : Published s) (hmd : SpscQueue.Inv u.qMd s.qMd)
    (hgo : s.publishing.pc ≠ .done) (hwait : held s.qMd ≠ 0 ∨ s.engineDone = true) :
    left u (s.publishStep u) < left u s := by
  obtain ⟨hpops, hin, hfeed, hmatching, -⟩ := publishStep_frame u s
  have hstay : Pops s.qIn (s.publishStep u).qIn := by
    rw [hin]
    exact ⟨rfl, rfl⟩
  refine left_lt_of_publish (feedLeft_of_frame hfeed hstay) (matchLeft_of_frame hmatching hin)
    (messagesLeft_of_frame hmatching hin hpops) ?_
  have hends := h.ends
  rw [publishLeft, publishLeft, State.publishStep]
  cases hpc : s.publishing.pc with
  | await w =>
      rw [hpc] at hends
      obtain ⟨-, hpopped, hpops'⟩ := SpscQueue.Waits.step hends hmd s.engineDone
      have hheld := held_of_pops hpops' hpopped
      have hgo := Waits.goes_on hends hmd s.engineDone hwait
      rcases hgo with hfound | hfound | ⟨w', hfound, hless⟩
      · simp only [hfound, hheld, PublishPc.rank]
        omega
      · simp only [hfound, hheld, PublishPc.rank]
        omega
      · simp only [hfound, hheld, PublishPc.rank]
        omega
  | take =>
      simp only [PublishPc.rank]
      omega
  | pop =>
      rw [hpc] at hends
      obtain ⟨-, -, hpopped⟩ := SpscQueue.pop_storing (q := u.qMd) hends.1 hends.2
      have hheld := held_of_pops (SpscQueue.pop_pops (q := u.qMd) s.qMd) hpopped
      simp only [hheld, PublishPc.rank]
      omega
  | popping =>
      rw [hpc] at hends
      obtain ⟨⟨x, hstoring⟩, hsome⟩ := hends
      obtain ⟨-, v, hat, hpopped⟩ := hmd.popped_next hstoring hsome
      have hlt := (List.getElem?_eq_some_iff.mp hat).1
      have hpushed := (SpscQueue.consume_pops (q := u.qMd) s.qMd).pushed
      have hrank : waitRank (held (s.qMd.step u.qMd .consume) = 0) .call ≤ 5 := by
        simp only [waitRank]
        split <;> decide
      have hheld : held (s.qMd.step u.qMd .consume) + 1 = held s.qMd := by
        rw [held, held, hpushed, hpopped, List.length_append, List.length_singleton]
        omega
      simp only [PublishPc.rank]
      omega
  | done => exact absurd hpc hgo

/-! ### Every state -/

structure State.Ended (s : State E) : Prop where
  feed : s.feed.pc = .done
  matching : s.matching.pc = .done
  publishing : s.publishing.pc = .done

theorem Inv.progress (h : Inv u m e₀ s) (total : ∀ cs, ∃ w, Made.work m e₀ cs = some w)
    (hgo : ¬ s.Ended) :
    ∃ turn, left u (s.step u m turn) < left u s := by
  have hroom : ∀ k, 0 < 2 ^ k := fun k => Nat.two_pow_pos k
  by_cases hmd : held s.qMd = 0
  rotate_left
  · -- the market data has messages to take
    refine ⟨.publishing, h.published.goes_on h.qMd (fun hpc => hmd ?_) (.inl hmd)⟩
    rw [held, (h.published.finished hpc).2, Nat.sub_self]
  by_cases hmatching : s.matching.pc = .done
  · -- the engine has ended, and so has the feed
    refine ⟨.publishing, h.published.goes_on h.qMd (fun hpc => hgo ⟨?_, hmatching, hpc⟩)
      (.inr (h.engaged.flag.mpr hmatching))⟩
    exact h.feeding.flag.mp (h.engaged.finished (.inr hmatching)).1
  by_cases hwait : ∀ w, s.matching.pc = .await w → held s.qIn ≠ 0 ∨ s.feedDone = true
  · refine ⟨.matching, h.engaged.goes_on h.qIn h.qMd total ?_ hmatching hwait⟩
    rw [hmd]
    exact hroom _
  · -- the engine waits for the feed
    have hempty : held s.qIn = 0 ∧ s.feedDone ≠ true := by
      by_contra hno
      refine hwait fun w _ => ?_
      by_cases hheld : held s.qIn = 0
      · exact .inr (by_contra fun hd => hno ⟨hheld, hd⟩)
      · exact .inl hheld
    refine ⟨.feed 0, left_lt_of_feed (h.feeding.goes_on h.qIn ?_ fun hpc =>
      hempty.2 (h.feeding.flag.mpr hpc))⟩
    rw [hempty.1]
    exact hroom _

theorem Inv.ends (h : Inv u m e₀ s) (total : ∀ cs, ∃ w, Made.work m e₀ cs = some w) :
    ∃ turns, (s.run u m turns).Ended := by
  induction hleft : left u s using WellFoundedLT.induction generalizing s with
  | ind k ih =>
      by_cases hgo : s.Ended
      · exact ⟨[], hgo⟩
      · obtain ⟨turn, hless⟩ := h.progress total hgo
        obtain ⟨turns, hended⟩ := ih _ (hleft ▸ hless) (h.step total turn) rfl
        exact ⟨turn :: turns, hended⟩

section Engine

open Book (OrderBook StoreLayout IndexHash)

variable {σ : Type} [StoreLayout σ] {symbols : UInt32} {cfg : BookConfig}

/-- However the threads have been interleaved, they can all come to their ends. -/
theorem pipeline_never_stuck (symbols : UInt32) (cfg : BookConfig) (hash : IndexHash)
    (ok : cfg.Accepted) (u : Setup) (zeroIn : Command) (zeroMd : MdMsg) (turns : List Turn) :
    let m : Matcher (MatchingEngine (OrderBook σ)) := matcher symbols
    ∃ more, ((start (.make hash symbols cfg) zeroIn zeroMd).run u m (turns ++ more)).Ended := by
  intro m
  have total := engine_total (σ := σ) symbols hash ok
  obtain ⟨more, hended⟩ :=
    ((Inv.start u m (.make hash symbols cfg) zeroIn zeroMd).run total turns).ends total
  refine ⟨more, ?_⟩
  rw [State.run, List.foldl_append]
  exact hended

theorem pipeline_never_stuck_small :
    let m : Matcher (MatchingEngine (OrderBook Book.AosStore)) := matcher 1
    ∃ more, ((start (.make Book.scatterHash 1 { numLevels := 64, maxOrders := 4 })
      { orderId := 0, type := .newOrder }
      zeroMd).run smallSetup m ((List.replicate 20 (.feed 0) ++ List.replicate 20 .matching) ++
          more)).Ended :=
  pipeline_never_stuck (σ := Book.AosStore) 1 { numLevels := 64, maxOrders := 4 } Book.scatterHash
    (by decide) smallSetup
    { orderId := 0, type := .newOrder } zeroMd
      (List.replicate 20 (.feed 0) ++ List.replicate 20 .matching)

end Engine

end ExchangeSim.Pipeline
