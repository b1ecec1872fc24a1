/- digest: What a call at one end of a ring does, step by step, while the other end does what it
   likes. -/

import ExchangeSim.Pipeline.Threads

set_option autoImplicit false
set_option relaxedAutoImplicit false

namespace ExchangeSim.Engine.SpscQueue

open Pipeline (pushed? await Waiting Awaited pointee)

variable {α : Type} {q : RingSize} {s s' : SpscQueue α}

/-! ### The ends do not touch each other -/

structure Pushes (s s' : SpscQueue α) : Prop where
  popped : s'.popped = s.popped
  consumer : s'.consumer = s.consumer
  handed : s'.handed = s.handed
  pushed : s.pushed <+: s'.pushed

structure Pops (s s' : SpscQueue α) : Prop where
  pushed : s'.pushed = s.pushed
  producer : s'.producer = s.producer

theorem tryPush_pushes (s : SpscQueue α) (v : α) : Pushes s (s.step q (.tryPush v)) := by
  rw [step]
  cases s.producer with
  | idle => exact ⟨rfl, rfl, rfl, List.prefix_rfl⟩
  | checking | writing | storing => exact ⟨rfl, rfl, rfl, List.prefix_rfl⟩

theorem produce_pushes (s : SpscQueue α) : Pushes s (s.step q .produce) := by
  simp only [step, produce]
  cases s.producer with
  | idle => exact ⟨rfl, rfl, rfl, List.prefix_rfl⟩
  | checking v t =>
      simp only
      split
      · split
        · exact ⟨rfl, rfl, rfl, List.prefix_rfl⟩
        · exact ⟨rfl, rfl, rfl, List.prefix_rfl⟩
      · exact ⟨rfl, rfl, rfl, List.prefix_rfl⟩
  | writing v t => exact ⟨rfl, rfl, rfl, List.prefix_rfl⟩
  | storing v t => exact ⟨rfl, rfl, rfl, List.prefix_append _ _⟩

theorem front_pops (s : SpscQueue α) : Pops s (s.step q .front) := by
  rw [step]
  cases s.consumer with
  | idle => exact ⟨rfl, rfl⟩
  | looking | storing => exact ⟨rfl, rfl⟩

theorem pop_pops (s : SpscQueue α) : Pops s (s.step q .pop) := by
  rw [step]
  split <;> exact ⟨rfl, rfl⟩

theorem consume_pops (s : SpscQueue α) : Pops s (s.step q .consume) := by
  simp only [step, consume]
  cases s.consumer with
  | idle => exact ⟨rfl, rfl⟩
  | looking x =>
      simp only
      split
      · split <;> exact ⟨rfl, rfl⟩
      · exact ⟨rfl, rfl⟩
  | storing x => exact ⟨rfl, rfl⟩

/-! ### The producer's end -/

/-- A call of `try_push` with this value is under way. -/
def Calling (s : SpscQueue α) (v : α) : Prop :=
  ∃ t, s.producer = .checking v t ∨ s.producer = .writing v t ∨ s.producer = .storing v t

theorem tryPush_calling (hidle : s.producer = .idle) (v : α) : Calling (s.step q (.tryPush v)) v ∧
    (s.step q (.tryPush v)).pushed = s.pushed := by
  rw [step, hidle]
  exact ⟨⟨s.tail, .inl rfl⟩, rfl⟩

/-- A step of a call that is under way: it has pushed, it has found the ring full, or it goes on. -/
inductive PushStep (q : RingSize) (s s' : SpscQueue α) (v : α) : Option Bool → Prop
  | pushed : s'.producer = .idle → s'.pushed = s.pushed ++ [v] → PushStep q s s' v (some true)
  | full : s'.producer = .idle → s'.pushed = s.pushed →
      s.pushed.length = s.popped.length + 2 ^ q.log2 →
      PushStep q s s' v (some false)
  | goesOn : Calling s' v → s'.pushed = s.pushed → PushStep q s s' v none

theorem Calling.step {v : α} (h : Calling s v) (hinv : Inv q s) :
    PushStep q s (s.step q .produce) v (pushed? q s) := by
  obtain ⟨t, hpc | hpc | hpc⟩ := h
  · have hfull := hinv.full_iff hpc
    simp only [SpscQueue.step, pushed?, produce, hpc]
    split
    · split
      · rename_i hhead
        exact .full rfl rfl (hfull.mp hhead)
      · exact .goesOn ⟨t, .inr (.inl rfl)⟩ rfl
    · exact .goesOn ⟨t, .inr (.inl rfl)⟩ rfl
  · simp only [SpscQueue.step, pushed?, produce, hpc]
    exact .goesOn ⟨t, .inr (.inr rfl)⟩ rfl
  · simp only [SpscQueue.step, pushed?, produce, hpc]
    exact .pushed rfl rfl

/-! ### The consumer's end -/

/-- Where the consumer's end is while a thread waits. -/
def Waits (s : SpscQueue α) : Waiting → Prop
  | .call | .flag | .callAgain => s.consumer = .idle
  | .look | .lookAgain => ∃ x, s.consumer = .looking x

theorem Inv.nothing_left (h : Inv q s) {x : UInt64} (hpc : s.consumer = .looking x)
    (hnone : (s.step q .consume).handed = none) :
    s.popped = s.pushed := by
  obtain ⟨_, hp⟩ := h.producing
  have hord := h.order.length_le
  refine h.order.eq_of_length ?_
  rw [← h.empty_iff hpc hp.tail hord (Nat.le_refl _)]
  simp only [SpscQueue.step, SpscQueue.consume, hpc] at hnone
  split at hnone
  · split at hnone
    · assumption
    · cases hnone
  · cases hnone

theorem Inv.element (h : Inv q s) (hsome : s.handed.isSome = true) : ∃ v, pointee s = some v ∧
    s.pushed[s.popped.length]? = some v := by
  obtain ⟨i, hi⟩ := Option.isSome_iff_exists.mp hsome
  refine ⟨s.buf i, by rw [pointee, hi]; rfl, (h.handed_value hi).1⟩

theorem look_popped {x : UInt64} (hpc : s.consumer = .looking x) :
    (s.step q .consume).popped = s.popped ∧ (s.step q .consume).consumer = .idle := by
  simp only [step, consume, hpc]
  split
  · split <;> exact ⟨rfl, rfl⟩
  · exact ⟨rfl, rfl⟩

/-- A step of a thread that waits. -/
inductive AwaitStep (s s' : SpscQueue α) (done : Bool) : Waiting → Awaited → Prop
  | waiting {w w' : Waiting} : Waits s' w' → (w' = .callAgain → done = true) →
    (w' = .lookAgain → w = .callAgain) →
      AwaitStep s s' done w (.waiting w')
  | element {w : Waiting} : s'.consumer = .idle → s'.handed.isSome = true →
      AwaitStep s s' done w .element
  | ended : s'.consumer = .idle → s.popped = s.pushed → AwaitStep s s' done .lookAgain .ended

theorem Waits.step {w : Waiting} (h : Waits s w) (hinv : Inv q s) (done : Bool) :
    AwaitStep s (await q s done w).1 done w (await q s done w).2 ∧
    (await q s done w).1.popped = s.popped ∧
      Pops s (await q s done w).1 := by
  cases w with
  | call =>
      refine ⟨.waiting ⟨s.head, ?_⟩ (fun h => by cases h) (fun h => by cases h), ?_,
        front_pops (q := q) s⟩
      · simp only [await, SpscQueue.step, show s.consumer = .idle from h]
      · simp only [await, SpscQueue.step, show s.consumer = .idle from h]
  | look =>
      obtain ⟨x, hpc⟩ := h
      obtain ⟨hpopped, hidle⟩ := look_popped (q := q) hpc
      refine ⟨?_, hpopped, consume_pops s⟩
      simp only [await]
      split
      · rename_i hsome
        exact .element hidle hsome
      · exact .waiting hidle (fun h => by cases h) (fun h => by cases h)
  | flag =>
      refine ⟨?_, rfl, ⟨rfl, rfl⟩⟩
      simp only [await]
      split
      · rename_i hdone
        exact .waiting h (fun _ => hdone) (fun h => by cases h)
      · exact .waiting h (fun h => by cases h) (fun h => by cases h)
  | callAgain =>
      refine ⟨.waiting ⟨s.head, ?_⟩ (fun h => by cases h) (fun _ => rfl), ?_, front_pops (q := q) s⟩
      · simp only [await, SpscQueue.step, show s.consumer = .idle from h]
      · simp only [await, SpscQueue.step, show s.consumer = .idle from h]
  | lookAgain =>
      obtain ⟨x, hpc⟩ := h
      obtain ⟨hpopped, hidle⟩ := look_popped (q := q) hpc
      refine ⟨?_, hpopped, consume_pops s⟩
      simp only [await]
      split
      · exact .waiting hidle (fun h => by cases h) (fun h => by cases h)
      · rename_i hnone
        exact .ended hidle (hinv.nothing_left hpc (by simpa using hnone))

theorem Inv.await (h : Inv q s) (done : Bool) (w : Waiting) :
    Inv q (Pipeline.await q s done w).1 := by
  cases w with
  | call | callAgain => exact h.step .front
  | look | lookAgain => exact h.step .consume
  | flag => exact h

theorem pop_storing (hidle : s.consumer = .idle) (hsome : s.handed.isSome = true) :
    (∃ x, (s.step q .pop).consumer = .storing x) ∧ (s.step q .pop).handed = s.handed ∧
    (s.step q .pop).popped = s.popped := by
  obtain ⟨i, hi⟩ := Option.isSome_iff_exists.mp hsome
  simp only [step, hidle, hi]
  exact ⟨⟨_, rfl⟩, trivial, trivial⟩

theorem Inv.popped_next (h : Inv q s) {x : UInt64} (hpc : s.consumer = .storing x)
    (hsome : s.handed.isSome = true) :
    (s.step q .consume).consumer = .idle ∧
      ∃ v, s.pushed[s.popped.length]? = some v ∧ (s.step q .consume).popped = s.popped ++ [v] := by
  obtain ⟨i, hi⟩ := Option.isSome_iff_exists.mp hsome
  refine ⟨by simp only [SpscQueue.step, SpscQueue.consume, hpc], s.buf i, (h.handed_value hi).1, ?_⟩
  simp only [SpscQueue.step, SpscQueue.consume, hpc, hi]

end ExchangeSim.Engine.SpscQueue
