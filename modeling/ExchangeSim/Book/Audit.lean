/- digest: The structural audit of the book passes in every state a command sequence reaches. -/

import ExchangeSim.Book.Simulation

set_option autoImplicit false
set_option relaxedAutoImplicit false

namespace ExchangeSim.Book

open ExchangeSim.Lib
open PriorityBook (Rules ahead inRange)

theorem First.unique {T : Side} {n : Nat} {occ : Nat → Prop} {i j : Int} (hocc : ∀ k, occ k → k < n)
    (hi : First T n occ 0 i) (hj : First T n occ 0 j) : i = j := by
  have hrank : ∀ k : Nat, occ k → 0 ≤ rank T n k ∧ rank T n k < n := by
    intro k hk
    have := hocc k hk
    cases T <;> simp only [rank] <;> omega
  have hle : ∀ i j, First T n occ 0 i → First T n occ 0 j → rank T n i ≤ rank T n j := by
    intro i j hi hj
    rcases hj.found with hend | ⟨k, rfl, hk, h0⟩
    · rcases hi.found with hend' | ⟨k, rfl, hk, _⟩
      · omega
      · have := (hrank k hk).2
        omega
    · exact hi.least k hk h0
  exact rank_inj (le_antisymm (hle i j hi hj) (hle j i hj hi))

namespace OrderBook

variable {σ : Type} [StoreLayout σ] {b : OrderBook σ} {L : Side → List Nat}
    {free : List Nat} {T : Side}
  {R : Rules} {A : PriorityBook}

theorem Rep.best_eq (h : Rep b L free) :
    b.bestBid = b.bidBits.findPrev ((b.n : Int) - 1) ∧ b.bestAsk = b.askBits.findNext 0 := by
  have hocc : ∀ T k, b.Occupied (L T) k → k < b.n := by
    rintro T k ⟨t, ht, rfl⟩
    exact h.level_lt ht
  have hscan : ∀ T (i : Int), rank T b.n i = -1 → First T b.n (b.Occupied (L T)) 0
      (after T (b.bitsOf T) i) := by
    intro T i hi
    have hf := (first_after T (h.bits_ok T) i).congr (h.bit_iff T)
    rw [h.bits_n T, hi] at hf
    exact hf
  constructor
  · exact First.unique (hocc .buy) (h.top_first .buy) (hscan .buy b.n (by simp [rank]))
  · have hf := hscan .sell (-1) (by simp [rank])
    simp only [after, Int.reduceNeg, Int.reduceAdd] at hf
    exact First.unique (hocc .sell) (h.top_first .sell) hf

theorem Rep.uncrossed (h : Rep b L free) :
    ¬ (0 ≤ b.bestBid ∧ b.bestAsk < b.n ∧ b.bestAsk ≤ b.bestBid) := by
  rintro ⟨hbid, hask, hle⟩
  rcases (h.top_first .buy).found with hend | ⟨j, hj, ⟨s, hs, rfl⟩, _⟩
  · simp only [rank, top, best, opposite] at hend
    omega
  rcases (h.top_first .sell).found with hend | ⟨k, hk, ⟨t, ht, rfl⟩, _⟩
  · simp only [rank, top, best, opposite] at hend
    omega
  have := h.apart s hs t ht
  simp only [top, best, opposite] at hj hk
  omega

/-- The slots on the levels below `i`. -/
def below (b : OrderBook σ) (L : Side → List Nat) (i : Nat) : List Nat :=
  (L .buy ++ L .sell).filter fun s => b.store.level s < i

private theorem below_succ (i : Nat) :
    (b.below L (i + 1)).length = (b.below L i).length +
    ((b.lane (L .buy) i).length + (b.lane (L .sell) i).length) := by
  have hsplit : ∀ l : List Nat, (l.filter fun s => b.store.level s < i + 1).length =
      (l.filter fun s => b.store.level s < i).length +
      (l.filter fun s => b.store.level s = i).length := by
    intro l
    induction l with
    | nil => rfl
    | cons s l ih =>
        simp only [List.filter_cons, decide_eq_true_eq]
        by_cases h1 : b.store.level s < i
        · rw [if_pos (by omega), if_pos h1, if_neg (by omega), List.length_cons,
            List.length_cons, ih]
          omega
        · by_cases h2 : b.store.level s = i
          · rw [if_pos (by omega), if_neg h1, if_pos h2, List.length_cons, List.length_cons, ih]
            omega
          · rw [if_neg (by omega), if_neg h1, if_neg h2, ih]
  simp only [below, lane, List.filter_append, List.length_append, hsplit]
  omega

private theorem Rep.below_le (h : Rep b L free) (i : Nat) :
    (b.below L i).length ≤ b.store.live := by
  have := List.length_filter_le (fun s => decide (b.store.level s < i)) (L .buy ++ L .sell)
  rw [List.length_append, ← h.live_eq] at this
  exact this

private theorem Rep.below_end (h : Rep b L free) : (b.below L b.n).length = b.store.live := by
  rw [below, List.filter_eq_self.mpr, List.length_append, h.live_eq]
  intro s hs
  rcases List.mem_append.mp hs with hs | hs <;> simpa using h.level_lt hs

theorem Rep.find_self (h : Rep b L free) {s : Nat} (hs : s ∈ L T) :
    b.ids.find (b.store.id s) b.store.id = some s := by
  rcases h.find (b.store.id s) with ⟨_, hnone⟩ | ⟨U, t, ht, hf, hid⟩
  · exact absurd rfl (hnone T s hs)
  · rw [hf, h.ids_inj U T t ht s hs hid]

private theorem Rep.checkSlots (h : Rep b L free) {i : Nat} (seen : Nat)
    (hseen : seen + (b.lane (L T) i).length ≤ b.store.live) (fuel : Nat) (p rem : List Nat)
    (hsplit : b.lane (L T) i = p ++ rem) (hfuel : rem.length < fuel)
    (path : Fifo.Seg kNil b.store.next (rem.headD kNil) rem kNil)
    (back : Fifo.Back b.store.prev (p ++ rem)) :
    Loop.runM (b.checkSlot T i) fuel
      (rem.headD kNil, p.getLastD kNil, (p.map b.store.qty).sum, seen + p.length) =
      some (some ((p ++ rem).getLastD kNil, ((p ++ rem).map b.store.qty).sum,
        seen + (p ++ rem).length)) := by
  induction rem generalizing p fuel with
  | nil =>
      obtain ⟨fuel, rfl⟩ : ∃ k, fuel = k + 1 := ⟨fuel - 1, by omega⟩
      rw [List.append_nil]
      refine Loop.runM_leave ?_ fuel
      simp [checkSlot]
  | cons s rem ih =>
      obtain ⟨fuel, rfl⟩ : ∃ k, fuel = k + 1 := ⟨fuel - 1, by omega⟩
      have hmem : s ∈ b.lane (L T) i := by rw [hsplit]; simp
      obtain ⟨hsL, hlev⟩ := mem_lane.mp hmem
      obtain ⟨hside, hqty⟩ := h.filed T s hsL
      obtain ⟨_, hne, hrest⟩ := path
      have hlast : p.getLastD kNil ≠ kNil → b.store.prev s = p.getLastD kNil := by
        intro hk
        rcases List.eq_nil_or_concat p with rfl | ⟨q, x, rfl⟩
        · simp at hk
        · rw [List.concat_eq_append] at back ⊢
          have hjoin := (List.isChain_append.mp back).2.2
          rw [List.getLastD_concat]
          exact hjoin x (by simp) s (by simp)
      have hlen : ¬ b.store.live < seen + p.length + 1 := by
        rw [hsplit, List.length_append, List.length_cons] at hseen
        omega
      have hpass : b.checkSlot T i (s, p.getLastD kNil, (p.map b.store.qty).sum, seen + p.length) =
          some (.again (b.store.next s, s, (p.map b.store.qty).sum + b.store.qty s,
            seen + p.length + 1)) := by
        have hgood : ¬ (b.store.side s ≠ T ∨ b.store.level s ≠ i ∨ b.store.qty s = 0) := by
          simp [hside, hlev, hqty]
        have hprev : ¬ (p.getLastD kNil ≠ kNil ∧ b.store.prev s ≠ p.getLastD kNil) :=
          fun hc => hc.2 (hlast hc.1)
        simp only [checkSlot, if_neg hne, if_neg hgood, if_neg hprev, h.find_self hsL,
          Option.bind_eq_bind, Option.bind_some, ne_eq, not_true_eq_false, if_false, if_neg hlen]
        rfl
      rw [List.headD_cons, Loop.runM_again hpass fuel]
      have hnext := hrest.head_eq
      rw [hnext]
      rw [hnext] at hrest
      have hassoc : p ++ s :: rem = p ++ [s] ++ rem := by simp
      have hsum : (p.map b.store.qty).sum + b.store.qty s = ((p ++ [s]).map b.store.qty).sum := by
        rw [List.map_append, List.sum_append]
        simp
      have := ih fuel (p ++ [s]) (by rw [hsplit, hassoc]) (by simp at hfuel; omega) hrest
        (by rwa [← hassoc])
      rw [List.getLastD_concat, ← hsum, List.length_append, List.length_singleton,
        ← Nat.add_assoc] at this
      rw [hassoc]
      exact this

theorem Rep.checkInvariants (h : Rep b L free) : b.checkInvariants = some true := by
  have hloop : ∀ k i fuel, i + k = b.n → k < fuel →
      Loop.runM b.checkLevel fuel (i, (b.below L i).length) = some true := by
    intro k
    induction k with
    | zero =>
        intro i fuel hi hf
        obtain ⟨fuel, rfl⟩ : ∃ k, fuel = k + 1 := ⟨fuel - 1, by omega⟩
        refine Loop.runM_leave ?_ fuel
        have hin : ¬ i < b.n := by omega
        obtain rfl : i = b.n := by omega
        simp [checkLevel, h.below_end, h.ids_size]
    | succ k ih =>
        intro i fuel hi hf
        obtain ⟨fuel, rfl⟩ : ∃ k, fuel = k + 1 := ⟨fuel - 1, by omega⟩
        have hin : i < b.n := by omega
        have hnext := ih (i + 1) fuel (by omega) (by omega)
        have hbid := h.bit_iff .buy i
        have hask := h.bit_iff .sell i
        simp only [bitsOf] at hbid hask
        have hsucc := below_succ (b := b) (L := L) i
        have hle := h.below_le (i + 1)
        -- one side has a queue here, or the level is vacant
        have hqueue : ∀ T, b.Occupied (L T) i → b.lane (L (opposite T)) i = [] →
            (b.levels i).head ≠ kNil ∧ Loop.runM (b.checkSlot T i) (b.store.live + 2)
              ((b.levels i).head, kNil, 0, (b.below L i).length) =
              some (some ((b.levels i).tail, (b.levels i).qty, (b.below L (i + 1)).length)) := by
          intro T hocc hother
          obtain ⟨hq, hsum⟩ := h.queue T i hother
          have hlen : (b.below L (i + 1)).length = (b.below L i).length +
              (b.lane (L T) i).length := by
            rw [hsucc]
            cases T <;> simp only [opposite] at hother <;> simp [hother]
          have hpath := hq.path
          rw [hpath.head_eq] at hpath
          have hrun := h.checkSlots (T := T) (i := i) (b.below L i).length (by omega)
            (b.store.live + 2)
            [] (b.lane (L T) i) rfl (by omega) hpath hq.back
          rw [List.nil_append, ← hq.tail_eq, ← hsum, ← hlen] at hrun
          refine ⟨fun hk => lane_ne_nil.mpr hocc (hq.head_eq_nil_iff.mp hk), ?_⟩
          rw [hq.path.head_eq]
          exact hrun
        suffices hpass : b.checkLevel (i, (b.below L i).length) =
            some (.again (i + 1, (b.below L (i + 1)).length)) by
          rw [Loop.runM_again hpass fuel]
          exact hnext
        simp only [checkLevel, PriceBitmap.test_eq, hin, not_true_eq_false, if_false]
        by_cases hb : b.Occupied (L .buy) i
        · have hs : ¬ b.Occupied (L .sell) i := lane_eq_nil.mp (h.other_lane hb)
          obtain ⟨hhead, hrun⟩ := hqueue .buy hb (h.other_lane hb)
          simp only [hbid.mpr hb, Bool.eq_false_iff.mpr fun hc => hs (hask.mp hc),
            Bool.false_eq_true, and_false,
            if_false, Bool.not_true, false_and, if_true, if_neg hhead, hrun, Option.bind_eq_bind,
            Option.bind_some]
          simp
        · have hbf := Bool.eq_false_iff.mpr fun hc => hb (hbid.mp hc)
          by_cases hs : b.Occupied (L .sell) i
          · obtain ⟨hhead, hrun⟩ := hqueue .sell hs (lane_eq_nil.mpr hb)
            simp only [hbf, hask.mpr hs, Bool.false_eq_true, false_and, if_false,
              Bool.not_true, and_false, if_neg hhead, hrun, Option.bind_eq_bind, Option.bind_some]
            simp
          · have hsf := Bool.eq_false_iff.mpr fun hc => hs (hask.mp hc)
            obtain ⟨hq, hsum⟩ := h.queue .buy i (lane_eq_nil.mpr hs)
            rw [lane_eq_nil.mpr hb] at hq hsum
            have hvacant :
                ¬ ((b.levels i).head ≠ kNil ∨ (b.levels i).tail ≠ kNil ∨ (b.levels i).qty ≠ 0) := by
              have h1 : (b.levels i).head = kNil := hq.path
              have h2 : (b.levels i).tail = kNil := hq.tail_eq
              simp [h1, h2, hsum]
            have hlen : (b.below L (i + 1)).length = (b.below L i).length := by
              rw [hsucc, lane_eq_nil.mpr hb, lane_eq_nil.mpr hs]
              rfl
            simp only [hbf, hsf, Bool.false_eq_true, if_false, Bool.not_false, and_self, if_true,
              if_neg hvacant, hlen]
            rfl
  have hbest := h.best_eq
  rw [OrderBook.checkInvariants, if_neg (by rw [not_or, not_not, not_not]; exact hbest),
    if_neg h.uncrossed]
  have hzero : (b.below L 0).length = 0 := by simp [below]
  have := hloop b.n 0 (b.n + 1) (by omega) (by omega)
  rwa [hzero] at this

/-- A slot is linked if the queue of some level reaches it. -/
def Linked (b : OrderBook σ) (s : Nat) : Prop :=
  ∃ i < b.n, ∃ l, Fifo.Seg kNil b.store.next (b.levels i).head l kNil ∧ s ∈ l

/-- The free list and the linked slots partition the slots of the store. -/
def Partitioned (b : OrderBook σ) (cap : Nat) : Prop :=
  ∃ linked free : List Nat, b.store.Free free ∧ (∀ s, s ∈ linked ↔ b.Linked s) ∧
    (linked ++ free).Perm (List.range cap)

private theorem seg_unique {next : Nat → Nat} {h : Nat} {l l' : List Nat}
    (hl : Fifo.Seg kNil next h l kNil) (hl' : Fifo.Seg kNil next h l' kNil) : l = l' := by
  induction l generalizing h l' with
  | nil =>
      cases l' with
      | nil => rfl
      | cons s t => exact absurd (hl'.1.symm.trans hl) hl'.2.1
  | cons s t ih =>
      cases l' with
      | nil => exact absurd (hl.1.symm.trans hl') hl.2.1
      | cons s' t' =>
          obtain ⟨rfl, _, hrest⟩ := hl
          obtain ⟨rfl, _, hrest'⟩ := hl'
          rw [ih hrest hrest']

theorem Rep.linked_iff (h : Rep b L free) (s : Nat) : b.Linked s ↔ s ∈ L .buy ++ L .sell := by
  constructor
  · rintro ⟨i, _, l, hl, hs⟩
    have hlane : ∀ T, b.lane (L (opposite T)) i = [] → s ∈ L T := by
      intro T hempty
      have := seg_unique hl (h.queue T i hempty).1.path
      rw [this] at hs
      exact (mem_lane.mp hs).1
    by_cases hocc : b.Occupied (L .buy) i
    · exact List.mem_append_left _ (hlane .buy (h.other_lane hocc))
    · exact List.mem_append_right _ (hlane .sell (lane_eq_nil.mpr hocc))
  · intro hs
    obtain ⟨T, hT⟩ : ∃ T, s ∈ L T := by
      rcases List.mem_append.mp hs with hs | hs
      · exact ⟨_, hs⟩
      · exact ⟨_, hs⟩
    exact ⟨b.store.level s, h.level_lt hT, _, (h.queue_at hT).1.path, mem_lane.mpr ⟨hT, rfl⟩⟩

theorem Refines.partitioned (h : Refines R b A) : b.Partitioned R.cfg.maxOrders := by
  obtain ⟨L, free, hrep, hfol, _⟩ := h
  refine ⟨L .buy ++ L .sell, free, hrep.unused, fun s => (hrep.linked_iff s).symm, ?_⟩
  rw [← hfol.cap]
  exact hrep.pool

theorem Refines.run (h : Refines R b A) (cs : List Command) :
    ∃ b' outs, b.run cs = some (b', outs) ∧
      let r := PriorityBook.run R PriorityBook.fillableAgg A cs
      Refines R b' r.1 ∧ outs.map Sink.events = r.2 ∧
        ∀ out ∈ outs, ∀ call ∈ out.calls, call.Meets R.cfg.maxOrders := by
  induction cs generalizing b A with
  | nil => exact ⟨b, [], rfl, h, rfl, by simp⟩
  | cons c cs ih =>
      obtain ⟨b₁, out, hrun, href, hsends⟩ := h.process c {}
      obtain ⟨b', outs, hruns, href', hevents, hcalls⟩ := ih href
      refine ⟨b', out :: outs, ?_, href', ?_, ?_⟩
      · simp [OrderBook.run, hrun, hruns]
      · rw [List.map_cons, hevents, hsends.events]
        rfl
      · intro o ho call hc
        rcases List.mem_cons.mp ho with rfl | ho
        · exact (hsends.calls call hc).resolve_left (by simp)
        · exact hcalls o ho call hc

theorem Refines.run_each {P : Command → List Event → Prop}
    (hP : ∀ A, PriorityBook.Ok R A → ∀ c,
      P c (PriorityBook.process R PriorityBook.fillableAgg A c).2)
    (h : Refines R b A) {cs : List Command} {b' : OrderBook σ} {outs : List Sink}
    (hrun : b.run cs = some (b', outs)) :
    outs.length = cs.length ∧ ∀ p ∈ cs.zip outs, P p.1 p.2.events := by
  induction cs generalizing b A outs with
  | nil =>
      obtain ⟨rfl, rfl⟩ := Prod.mk.inj (Option.some.inj hrun)
      exact ⟨rfl, by simp⟩
  | cons c cs ih =>
      obtain ⟨b₁, out, hstep, href, hsends⟩ := h.process c {}
      obtain ⟨b₂, outs', hruns, _⟩ := href.run cs
      simp only [OrderBook.run, hstep, hruns, Option.bind_eq_bind, Option.bind_some] at hrun
      obtain ⟨rfl, rfl⟩ := Prod.mk.inj (Option.some.inj hrun)
      obtain ⟨hlen, heach⟩ := ih href hruns
      refine ⟨by simp [hlen], fun p hp => ?_⟩
      rw [List.zip_cons_cons] at hp
      rcases List.mem_cons.mp hp with rfl | hp
      · rw [show out.events = _ from hsends.events]
        exact hP A h.ok c
      · exact heach p hp

end OrderBook

namespace PriorityBook

/-- An event that cancels the remainder of an order because the book is full. -/
def BookFull (e : Event) : Prop := e.type = .canceled ∧ e.reason = .bookFull

private theorem sweep_not_bookFull (R : Rules) (S : Side) (taker : OrderId)
    (owner : OwnerId) (limit : Int) (stp : Stp) (l : List Resting) (q : Qty) :
    ∀ e ∈ (sweep R S taker owner limit stp l q).events, ¬ BookFull e := by
  induction l generalizing q with
  | nil => simp [sweep]
  | cons x xs ih =>
      have hgo : ∀ q' evs, sweep R S taker owner limit stp (x :: xs) q =
          (sweep R S taker owner limit stp xs q').behind evs → (∀ e ∈ evs, ¬ BookFull e) →
          ∀ e ∈ (sweep R S taker owner limit stp (x :: xs) q).events, ¬ BookFull e := by
        intro q' evs heq hevs e he
        rw [heq] at he
        rcases List.mem_append.mp he with he | he
        · exact hevs e he
        · exact ih q' e he
      rcases sweep_cases R S taker owner limit stp x xs q with ⟨ho, _⟩ | ⟨_, _, hcase⟩
      · simp [ho]
      rcases hcase with ⟨ho, _⟩ | ⟨ho, _⟩ | ⟨ho, _⟩ | ⟨ho, _⟩ | ⟨ho, _⟩ | ⟨ho, _⟩ | ⟨ho, _⟩
      · simp [ho]
      · simp [ho, BookFull, stpDecrementEvent, modifiedEvent]
      · simp [ho, BookFull, canceledEvent]
      · exact hgo _ _ ho (by simp [BookFull, canceledEvent, stpDecrementEvent, modifiedEvent])
      · exact hgo _ _ ho (by simp [BookFull, canceledEvent])
      · simp [ho, BookFull, tradeEvent]
      · exact hgo _ _ ho (by simp [BookFull, tradeEvent])

theorem modify_not_bookFull {R : Rules} {A : PriorityBook} (ok : Ok R A) (c : Command) :
    ∀ e ∈ (modify R A c).2, ¬ BookFull e := by
  rw [modify]
  split
  · simp [BookFull, rejectedEvent]
  split
  · simp [BookFull, rejectedEvent]
  rename_i S x hlook
  split
  · simp [BookFull, rejectedEvent]
  rename_i ix hrel
  simp only
  split
  · simp [BookFull, modifiedEvent]
  simp only [enter]
  have hsweep := sweep_not_bookFull R S c.orderId x.owner ix R.cfg.stp
    (Function.update A S (eraseId c.orderId (A S)) (opposite S)) c.qty
  have hlen := sweep_length R S c.orderId x.owner ix R.cfg.stp
    (Function.update A S (eraseId c.orderId (A S)) (opposite S)) c.qty
  generalize sweep R S c.orderId x.owner ix R.cfg.stp
    (Function.update A S (eraseId c.orderId (A S)) (opposite S)) c.qty = o at *
  obtain ⟨hmem, hid⟩ := lookup_mem hlook
  -- one order has left the book, and the sweep only removes more
  have hroom :
    count (Function.update (Function.update A S (eraseId c.orderId (A S))) (opposite S) o.makers) <
      R.cfg.maxOrders := by
    have hless : (eraseId c.orderId (A S)).length < (A S).length := by
      rw [eraseId, List.length_filter_lt_length_iff_exists]
      exact ⟨x, hmem, by simp [hid]⟩
    have hcount := ok.count_le
    rw [count] at hcount ⊢
    cases S <;> simp [Function.update, opposite] at hlen hless ⊢ <;> omega
  have hmod : ¬ BookFull (modifiedEvent R.symbol c.orderId S c.price c.qty) := by
    simp [BookFull, modifiedEvent]
  split
  · intro e he
    rcases List.mem_cons.mp he with rfl | he
    · exact hmod
    · exact hsweep e he
  split
  · intro e he
    rcases List.mem_cons.mp he with rfl | he
    · exact hmod
    rcases List.mem_append.mp he with he | he
    · exact hsweep e he
    · rw [List.mem_singleton.mp he]
      simp [BookFull, canceledEvent]
  · simp only [not_true_eq_false, if_false, rest, if_neg (Nat.not_le.mpr hroom), List.append_nil]
    intro e he
    rcases List.mem_cons.mp he with rfl | he
    · exact hmod
    · exact hsweep e he

end PriorityBook

namespace OrderBook

variable {σ : Type} [StoreLayout σ]

/-- The representation invariant over whole runs: every command sequence is processed to
its end, and the state it leaves passes the audit. -/
theorem audit_passes (hash : IndexHash) (symbol : SymbolId) {cfg : BookConfig} (ok : cfg.Accepted)
    (cs : List Command) :
    ∃ b outs, (make hash symbol cfg : OrderBook σ).run cs = some (b, outs) ∧
      b.checkInvariants = some true ∧ b.Partitioned cfg.maxOrders ∧
      outs.length = cs.length ∧
      (∀ out ∈ outs, ∀ call ∈ out.calls, call.Meets cfg.maxOrders) ∧
      ∀ p ∈ cs.zip outs, p.1.type = .modify → ∀ e ∈ p.2.events, ¬ PriorityBook.BookFull e := by
  have hstart := refines_make (σ := σ) hash symbol ok
  obtain ⟨b, outs, hrun, href, hevents, hcalls⟩ := hstart.run cs
  obtain ⟨hlen, heach⟩ :=
    hstart.run_each (P := fun c evs => c.type = .modify → ∀ e ∈ evs, ¬ PriorityBook.BookFull e)
    (fun A hA c hc => by
      rw [PriorityBook.process, hc]
      exact PriorityBook.modify_not_bookFull hA c) hrun
  refine ⟨b, outs, hrun, ?_, href.partitioned, hlen, hcalls, heach⟩
  obtain ⟨_, _, hrep, _, _⟩ := href
  exact hrep.checkInvariants

/-- A book of 64 prices from 100 that holds two orders. -/
def smallBook : BookConfig := { minPrice := 100, numLevels := 64, maxOrders := 2 }

/-- A resting sell, a buy that crosses part of it, and its modification. -/
def smallRun : List Command :=
  [{ type := .newOrder, orderId := 1, side := .sell, price := 110, qty := 7, owner := 1 },
    { type := .newOrder, orderId := 2, side := .buy, price := 120, qty := 3, owner := 2,
      tif := .fok },
    { type := .modify, orderId := 1, side := .sell, price := 105, qty := 9, owner := 1 }]

theorem audit_passes_small :
    smallBook.Accepted ∧ ∃ b outs,
    (make scatterHash 1 smallBook : OrderBook AosStore).run smallRun = some (b, outs) ∧
      b.checkInvariants = some true ∧ b.Partitioned smallBook.maxOrders ∧
      outs.length = smallRun.length ∧
      (∀ out ∈ outs, ∀ call ∈ out.calls, call.Meets smallBook.maxOrders) ∧
      ∀ p ∈ smallRun.zip outs, p.1.type = .modify → ∀ e ∈ p.2.events, ¬ PriorityBook.BookFull e :=
  ⟨by decide, audit_passes scatterHash 1 (by decide) smallRun⟩

end OrderBook
end ExchangeSim.Book
