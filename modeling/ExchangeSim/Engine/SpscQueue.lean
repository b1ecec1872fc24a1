/- digest: The ring between two threads is a bounded queue under every interleaving of their atomic
   steps. -/

import ExchangeSim.Lib.Ring
import Mathlib

set_option autoImplicit false
set_option relaxedAutoImplicit false

namespace ExchangeSim.Engine

open Lib (Ring.slot_ne)

structure RingSize where
  log2 : Nat
  log2_le : log2 ≤ 63

namespace RingSize

/-- `bit_ceil` of the capacity asked for, which is defined up to the largest power of two. -/
def ofCapacity (capacity : Nat) (h : capacity ≤ 2 ^ 63) : RingSize where
  log2 := Nat.clog 2 (max capacity 2)
  log2_le := Nat.clog_le_of_le_pow (Nat.max_le.mpr ⟨h, by decide⟩)

variable (q : RingSize)

def capacity : UInt64 := UInt64.ofNat (2 ^ q.log2)

def mask : UInt64 := q.capacity - 1

def slot (t : UInt64) : Nat := (t &&& q.mask).toNat

end RingSize

/-- Where the producer is in `try_push`. -/
inductive Pushing (α : Type) where
  | idle
  /-- It has loaded the tail. -/
  | checking (v : α) (t : UInt64)
  | writing (v : α) (t : UInt64)
  /-- The slot is written and not published. -/
  | storing (v : α) (t : UInt64)

/-- Where the consumer is in `front` or `pop`. -/
inductive Popping where
  | idle
  /-- In `front`, with the head loaded. -/
  | looking (h : UInt64)
  /-- In `pop`, with the head loaded. -/
  | storing (h : UInt64)

/-- `handed` is the slot that `front` has handed out and that is not popped yet. It, `pushed` and
`popped` are not part of the program: the values of the pushes that returned true, and the values at
the pops. -/
structure SpscQueue (α : Type) where
  tail : UInt64 := 0
  headCache : UInt64 := 0
  head : UInt64 := 0
  tailCache : UInt64 := 0
  buf : Nat → α
  producer : Pushing α := .idle
  consumer : Popping := .idle
  handed : Option Nat := none
  pushed : List α := []
  popped : List α := []

/-- A call of one of the sides, or the next atomic step of the call it is in. -/
inductive SpscAction (α : Type) where
  | tryPush (v : α)
  | produce
  | front
  | pop
  | consume

namespace SpscQueue

variable {α : Type} (q : RingSize)

/-- The next step of `try_push`. -/
def produce (s : SpscQueue α) : SpscQueue α :=
  match s.producer with
  | .idle => s
  | .checking v t =>
      if t - s.headCache = q.capacity then
        let s := { s with headCache := s.head }
        if t - s.headCache = q.capacity then { s with producer := .idle } else
          { s with producer := .writing v t }
      else { s with producer := .writing v t }
  | .writing v t => { s with buf := Function.update s.buf (q.slot t) v, producer := .storing v t }
  | .storing v t => { s with tail := t + 1, producer := .idle, pushed := s.pushed ++ [v] }

/-- The next step of `front` or `pop`. -/
def consume (s : SpscQueue α) : SpscQueue α :=
  match s.consumer with
  | .idle => s
  | .looking h =>
      if h = s.tailCache then
        let s := { s with tailCache := s.tail }
        if h = s.tailCache then { s with consumer := .idle }
        else { s with consumer := .idle, handed := some (q.slot h) }
      else { s with consumer := .idle, handed := some (q.slot h) }
  | .storing h =>
      let value := match s.handed with
        | some i => [s.buf i]
        | none => []
      { s with head := h + 1, consumer := .idle, handed := none, popped := s.popped ++ value }

/-- One step. A side that is in a call makes no other, and `pop` is called only after `front` has
handed out a slot. -/
def step (s : SpscQueue α) : SpscAction α → SpscQueue α
  | .tryPush v => match s.producer with
      | .idle => { s with producer := .checking v s.tail }
      | _ => s
  | .produce => s.produce q
  | .front => match s.consumer with
      | .idle => { s with consumer := .looking s.head }
      | _ => s
  | .pop => match s.consumer, s.handed with
      | .idle, some _ => { s with consumer := .storing s.head }
      | _, _ => s
  | .consume => s.consume q

def run (s : SpscQueue α) (acts : List (SpscAction α)) : SpscQueue α := acts.foldl (step q) s

/-- The ring's elements start as zeroes. -/
def make (zero : α) : SpscQueue α := { buf := fun _ => zero }

/-! ### Counters that wrap -/

theorem ofNat_inj {a b : Nat} (hle : a ≤ b) (hlt : b < a + 2 ^ 64) :
    UInt64.ofNat a = UInt64.ofNat b ↔ a = b := by
  rw [← UInt64.toNat_inj, UInt64.toNat_ofNat', UInt64.toNat_ofNat']
  constructor
  · intro h
    omega
  · rintro rfl
    rfl

theorem sub_eq_capacity {a b : Nat} (hle : a ≤ b) (hb : b ≤ a + 2 ^ q.log2) :
    UInt64.ofNat b - UInt64.ofNat a = q.capacity ↔ b = a + 2 ^ q.log2 := by
  have hcap : 2 ^ q.log2 ≤ 2 ^ 63 := Nat.pow_le_pow_right (by decide) q.log2_le
  rw [← UInt64.toNat_inj, UInt64.toNat_sub, RingSize.capacity, UInt64.toNat_ofNat',
    UInt64.toNat_ofNat', UInt64.toNat_ofNat']
  generalize 2 ^ q.log2 = c at *
  omega

theorem slot_ofNat (n : Nat) : q.slot (UInt64.ofNat n) = n % 2 ^ q.log2 := by
  have hcap : 2 ^ q.log2 ≤ 2 ^ 63 := Nat.pow_le_pow_right (by decide) q.log2_le
  have hpos := Nat.two_pow_pos q.log2
  have hmask : q.mask.toNat = 2 ^ q.log2 - 1 := by
    rw [RingSize.mask, RingSize.capacity, UInt64.toNat_sub, UInt64.toNat_ofNat', UInt64.toNat_one]
    omega
  rw [RingSize.slot, UInt64.toNat_and, hmask, Nat.and_two_pow_sub_one_eq_mod, UInt64.toNat_ofNat',
    Nat.mod_mod_of_dvd _ (Nat.pow_dvd_pow 2 (Nat.le_trans q.log2_le (by decide)))]

theorem ofNat_succ (n : Nat) : UInt64.ofNat n + 1 = UInt64.ofNat (n + 1) := by
  rw [← UInt64.toNat_inj, UInt64.toNat_add, UInt64.toNat_ofNat', UInt64.toNat_ofNat',
    UInt64.toNat_one]
  omega

/-! ### The invariant -/

structure Producing (s : SpscQueue α) (seen : Nat) : Prop where
  tail : s.tail = UInt64.ofNat s.pushed.length
  cache : s.headCache = UInt64.ofNat seen
  seen_le : seen ≤ s.popped.length
  room : s.pushed.length ≤ seen + 2 ^ q.log2
  checking : ∀ v t, s.producer = .checking v t → t = UInt64.ofNat s.pushed.length
  writing : ∀ v t, s.producer = .writing v t ∨ s.producer = .storing v t →
    t = UInt64.ofNat s.pushed.length ∧ s.pushed.length < seen + 2 ^ q.log2
  storing : ∀ v t, s.producer = .storing v t → s.buf (s.pushed.length % 2 ^ q.log2) = v

structure Consuming (s : SpscQueue α) (seen : Nat) : Prop where
  head : s.head = UInt64.ofNat s.popped.length
  cache : s.tailCache = UInt64.ofNat seen
  popped_le : s.popped.length ≤ seen
  seen_le : seen ≤ s.pushed.length
  looking : ∀ h, s.consumer = .looking h → h = UInt64.ofNat s.popped.length
  storing : ∀ h, s.consumer = .storing h → h = UInt64.ofNat s.popped.length ∧ s.handed.isSome = true
  handed : ∀ i, s.handed = some i → i = s.popped.length % 2 ^ q.log2 ∧ s.popped.length < seen

structure Inv (s : SpscQueue α) : Prop where
  producing : ∃ seen, Producing q s seen
  consuming : ∃ seen, Consuming q s seen
  order : s.popped <+: s.pushed
  held : ∀ n, s.popped.length ≤ n → ∀ v, s.pushed[n]? = some v → s.buf (n % 2 ^ q.log2) = v

variable {q} {s : SpscQueue α}

theorem Inv.bounded (h : Inv q s) : s.pushed.length ≤ s.popped.length + 2 ^ q.log2 := by
  obtain ⟨seen, hp⟩ := h.producing
  have := hp.seen_le
  have := hp.room
  omega

theorem Inv.close (h : Inv q s) : s.pushed.length < s.popped.length + 2 ^ 64 := by
  have hcap : 2 ^ q.log2 ≤ 2 ^ 63 := Nat.pow_le_pow_right (by decide) q.log2_le
  have := h.bounded
  omega

theorem Producing.slot_free {seen : Nat} (h : Producing q s seen) {v : α} {t : UInt64}
    (hw : s.producer = .writing v t) {n : Nat} (hlo : s.popped.length ≤ n)
    (hlt : n < s.pushed.length) : q.slot t ≠ n % 2 ^ q.log2 := by
  obtain ⟨ht, hroom⟩ := h.writing v t (.inl hw)
  have hseen := h.seen_le
  rw [ht, slot_ofNat]
  exact (Ring.slot_ne hlt (by omega)).symm

theorem Inv.handed_value (h : Inv q s) {i : Nat} (hi : s.handed = some i) :
    s.pushed[s.popped.length]? = some (s.buf i) ∧ i = s.popped.length % 2 ^ q.log2 := by
  obtain ⟨seen, hc⟩ := h.consuming
  obtain ⟨hslot, hlt⟩ := hc.handed i hi
  have hseen := hc.seen_le
  have hsome : s.pushed[s.popped.length]? = some (s.pushed.get ⟨s.popped.length, by omega⟩) :=
    List.getElem?_eq_getElem _
  refine ⟨?_, hslot⟩
  rw [hsome, hslot, h.held _ (Nat.le_refl _) _ hsome]

theorem Consuming.pushing {seen : Nat} (h : Consuming q s seen) (headCache : UInt64) (buf : Nat → α)
    (pc : Pushing α) :
    Consuming q { s with headCache := headCache, buf := buf, producer := pc } seen :=
  ⟨h.head, h.cache, h.popped_le, h.seen_le, h.looking, h.storing, h.handed⟩

theorem Producing.popping {seen : Nat} (h : Producing q s seen) (tailCache : UInt64)
    (handed : Option Nat) (pc : Popping) :
    Producing q { s with tailCache := tailCache, handed := handed, consumer := pc } seen :=
  ⟨h.tail, h.cache, h.seen_le, h.room, h.checking, h.writing, h.storing⟩

theorem Inv.tryPush (h : Inv q s) (v : α) : Inv q (s.step q (.tryPush v)) := by
  rw [step]
  cases hpc : s.producer with
  | idle =>
      obtain ⟨seen, hp⟩ := h.producing
      obtain ⟨seen', hc⟩ := h.consuming
      refine ⟨⟨seen, hp.tail, hp.cache, hp.seen_le, hp.room, fun v t he => ?_, fun v t he => ?_,
        fun v t he => (nomatch he)⟩, ⟨seen', hc.pushing _ _ _⟩, h.order, h.held⟩
      · cases he
        exact hp.tail
      · rcases he with he | he
        · cases he
        · cases he
  | checking v t => exact h
  | writing v t => exact h
  | storing v t => exact h

theorem Producing.full_iff {seen : Nat} (h : Producing q s seen)
    (hord : s.popped.length ≤ s.pushed.length) {v : α} {t : UInt64}
    (hpc : s.producer = .checking v t) :
    t - s.headCache = q.capacity ↔ s.pushed.length = seen + 2 ^ q.log2 := by
  rw [h.checking v t hpc, h.cache]
  exact sub_eq_capacity q (Nat.le_trans h.seen_le hord) h.room

theorem Inv.full_iff (h : Inv q s) {v : α} {t : UInt64} (hpc : s.producer = .checking v t) :
    t - s.head = q.capacity ↔ s.pushed.length = s.popped.length + 2 ^ q.log2 := by
  obtain ⟨_, hp⟩ := h.producing
  obtain ⟨_, hc⟩ := h.consuming
  rw [hp.checking v t hpc, hc.head]
  exact sub_eq_capacity q h.order.length_le h.bounded

theorem Inv.goOn (h : Inv q s) {v : α} {t : UInt64} (ht : t = UInt64.ofNat s.pushed.length)
    {seen : Nat} {cache : UInt64} (hcache : cache = UInt64.ofNat seen)
    (hle : seen ≤ s.popped.length) (hlt : s.pushed.length < seen + 2 ^ q.log2) :
    Inv q { s with headCache := cache, producer := .writing v t } := by
  obtain ⟨_, hp⟩ := h.producing
  obtain ⟨seen', hc⟩ := h.consuming
  refine ⟨⟨seen, hp.tail, hcache, hle, Nat.le_of_lt hlt, fun v t he => (nomatch he),
    fun v t he => ?_, fun v t he => (nomatch he)⟩, ⟨seen', hc.pushing _ _ _⟩, h.order, h.held⟩
  rcases he with he | he
  · cases he
    exact ⟨ht, hlt⟩
  · cases he

theorem Inv.check (h : Inv q s) {v : α} {t : UInt64} (hpc : s.producer = .checking v t) :
    Inv q (s.produce q) := by
  obtain ⟨seen, hp⟩ := h.producing
  obtain ⟨seen', hc⟩ := h.consuming
  have ht := hp.checking v t hpc
  have hroom := hp.room
  have hbound := h.bounded
  simp only [produce, hpc, hp.full_iff h.order.length_le hpc, h.full_iff hpc]
  split
  · split
    · refine ⟨⟨s.popped.length, hp.tail, hc.head, Nat.le_refl _, hbound, fun v t he => (nomatch he),
        fun v t he => ?_, fun v t he => (nomatch he)⟩, ⟨seen', hc.pushing _ _ _⟩, h.order, h.held⟩
      rcases he with he | he
      · cases he
      · cases he
    · exact h.goOn ht hc.head (Nat.le_refl _) (by omega)
  · exact h.goOn ht hp.cache hp.seen_le (by omega)

theorem Inv.write (h : Inv q s) {v : α} {t : UInt64} (hpc : s.producer = .writing v t) :
    Inv q (s.produce q) := by
  obtain ⟨seen, hp⟩ := h.producing
  obtain ⟨seen', hc⟩ := h.consuming
  obtain ⟨ht, hlt⟩ := hp.writing v t (.inl hpc)
  simp only [produce, hpc]
  refine ⟨⟨seen, hp.tail, hp.cache, hp.seen_le, hp.room, fun v t he => (nomatch he), fun v' t' he =>
    ?_, fun v' t' he => ?_⟩, ⟨seen', hc.pushing _ _ _⟩, h.order, fun n hn v' hv' => ?_⟩
  · rcases he with he | he
    · cases he
    · cases he
      exact ⟨ht, hlt⟩
  · cases he
    change Function.update s.buf (q.slot t) v _ = v
    rw [ht, slot_ofNat, Function.update_self]
  · have hn' : n < s.pushed.length := (List.getElem?_eq_some_iff.mp hv').1
    change Function.update s.buf (q.slot t) v _ = v'
    rw [Function.update_of_ne (hp.slot_free hpc hn hn').symm]
    exact h.held n hn v' hv'

theorem Inv.publish (h : Inv q s) {v : α} {t : UInt64} (hpc : s.producer = .storing v t) :
    Inv q (s.produce q) := by
  obtain ⟨seen, hp⟩ := h.producing
  obtain ⟨seen', hc⟩ := h.consuming
  obtain ⟨ht, hlt⟩ := hp.writing v t (.inr hpc)
  have hslot := hp.storing v t hpc
  simp only [produce, hpc]
  refine ⟨⟨seen, ?_, hp.cache, hp.seen_le, ?_, fun v t he => (nomatch he), fun v t he => ?_,
    fun v t he => (nomatch he)⟩,
    ⟨seen', hc.head, hc.cache, hc.popped_le, ?_, hc.looking, hc.storing, hc.handed⟩, ?_,
    fun n hn v' hv' => ?_⟩
  · rw [ht, ofNat_succ, List.length_append]
    rfl
  · rw [List.length_append]
    exact hlt
  · rcases he with he | he
    · cases he
    · cases he
  · rw [List.length_append]
    exact Nat.le_succ_of_le hc.seen_le
  · exact h.order.trans (List.prefix_append _ _)
  · by_cases hlast : n < s.pushed.length
    · rw [List.getElem?_append_left hlast] at hv'
      exact h.held n hn v' hv'
    · rw [List.getElem?_append_right (by omega)] at hv'
      obtain ⟨hone, hval⟩ := List.getElem?_eq_some_iff.mp hv'
      rw [List.length_singleton] at hone
      obtain rfl : n = s.pushed.length := by omega
      rw [hslot, ← hval]
      simp

theorem Inv.produce (h : Inv q s) : Inv q (s.produce q) := by
  cases hpc : s.producer with
  | idle =>
      simp only [SpscQueue.produce, hpc]
      exact h
  | checking v t => exact h.check hpc
  | writing v t => exact h.write hpc
  | storing v t => exact h.publish hpc

/-! ### The consumer -/

theorem Inv.front (h : Inv q s) : Inv q (s.step q .front) := by
  rw [step]
  cases hpc : s.consumer with
  | idle =>
      obtain ⟨seen, hp⟩ := h.producing
      obtain ⟨seen', hc⟩ := h.consuming
      refine ⟨⟨seen, hp.popping _ _ _⟩,
        ⟨seen', hc.head, hc.cache, hc.popped_le, hc.seen_le, fun x he => ?_,
        fun x he => (nomatch he), hc.handed⟩, h.order, h.held⟩
      cases he
      exact hc.head
  | looking x => exact h
  | storing x => exact h

theorem Inv.pop (h : Inv q s) : Inv q (s.step q .pop) := by
  rw [step]
  split
  · rename_i hpc hsome
    obtain ⟨seen, hp⟩ := h.producing
    obtain ⟨seen', hc⟩ := h.consuming
    refine ⟨⟨seen, hp.popping _ _ _⟩,
      ⟨seen', hc.head, hc.cache, hc.popped_le, hc.seen_le, fun x he => (nomatch he),
      fun x he => ?_, hc.handed⟩, h.order, h.held⟩
    cases he
    refine ⟨hc.head, ?_⟩
    change s.handed.isSome = true
    rw [hsome]
    rfl
  · exact h

theorem Inv.empty_iff (h : Inv q s) {x : UInt64} (hpc : s.consumer = .looking x) {seen : Nat}
    {cache : UInt64} (hcache : cache = UInt64.ofNat seen) (hlo : s.popped.length ≤ seen)
    (hle : seen ≤ s.pushed.length) :
    x = cache ↔ s.popped.length = seen := by
  obtain ⟨_, hc⟩ := h.consuming
  have := h.close
  rw [hc.looking x hpc, hcache]
  exact ofNat_inj hlo (by omega)

theorem Inv.hand (h : Inv q s) {x : UInt64} (hpc : s.consumer = .looking x) {seen : Nat}
    {cache : UInt64} (hcache : cache = UInt64.ofNat seen) (hlt : s.popped.length < seen)
    (hle : seen ≤ s.pushed.length) :
    Inv q { s with tailCache := cache, consumer := .idle, handed := some (q.slot x) } := by
  obtain ⟨seenP, hp⟩ := h.producing
  obtain ⟨_, hc⟩ := h.consuming
  refine ⟨⟨seenP, hp.popping _ _ _⟩,
    ⟨seen, hc.head, hcache, Nat.le_of_lt hlt, hle, fun y he => (nomatch he),
    fun y he => (nomatch he), fun i hi => ?_⟩, h.order, h.held⟩
  cases hi
  rw [hc.looking x hpc, slot_ofNat]
  exact ⟨rfl, hlt⟩

theorem Inv.look (h : Inv q s) {x : UInt64} (hpc : s.consumer = .looking x) :
    Inv q (s.consume q) := by
  obtain ⟨seenP, hp⟩ := h.producing
  obtain ⟨seen, hc⟩ := h.consuming
  have hord := h.order.length_le
  have hlo := hc.popped_le
  simp only [consume, hpc, h.empty_iff hpc hc.cache hlo hc.seen_le,
    h.empty_iff hpc hp.tail hord (Nat.le_refl _)]
  split
  · split
    · rename_i hseen hempty
      refine ⟨⟨seenP, hp.popping _ _ _⟩,
        ⟨s.pushed.length, hc.head, hp.tail, hord, Nat.le_refl _, fun y he => (nomatch he),
        fun y he => (nomatch he), fun i hi => ?_⟩, h.order, h.held⟩
      have := hc.handed i hi
      omega
    · exact h.hand hpc hp.tail (by omega) (Nat.le_refl _)
  · exact h.hand hpc hc.cache (by omega) hc.seen_le

theorem Inv.release (h : Inv q s) {x : UInt64} (hpc : s.consumer = .storing x) :
    Inv q (s.consume q) := by
  obtain ⟨seenP, hp⟩ := h.producing
  obtain ⟨seen, hc⟩ := h.consuming
  obtain ⟨hx, hsome⟩ := hc.storing x hpc
  obtain ⟨i, hi⟩ := Option.isSome_iff_exists.mp hsome
  obtain ⟨hslot, hlt⟩ := hc.handed i hi
  obtain ⟨hvalue, _⟩ := h.handed_value hi
  have hple := hp.seen_le
  simp only [consume, hpc, hi]
  refine ⟨⟨seenP, hp.tail, hp.cache, ?_, hp.room, hp.checking, hp.writing, hp.storing⟩,
    ⟨seen, ?_, hc.cache, ?_, hc.seen_le, fun y he => (nomatch he), fun y he => (nomatch he),
      fun y he => (nomatch he)⟩, ?_,
    fun n hn v hv => ?_⟩
  · rw [List.length_append]
    exact Nat.le_succ_of_le hple
  · rw [hx, ofNat_succ, List.length_append]
    rfl
  · rw [List.length_append]
    exact hlt
  · obtain ⟨more, hmore⟩ := h.order
    rw [← hmore, List.getElem?_append_right (Nat.le_refl _), Nat.sub_self] at hvalue
    cases more with
    | nil => cases hvalue
    | cons v rest =>
        cases hvalue
        exact ⟨rest, by rw [List.append_assoc]; exact hmore⟩
  · rw [List.length_append] at hn
    exact h.held n (Nat.le_of_succ_le hn) v hv

theorem Inv.consume (h : Inv q s) : Inv q (s.consume q) := by
  cases hpc : s.consumer with
  | idle =>
      simp only [SpscQueue.consume, hpc]
      exact h
  | looking x => exact h.look hpc
  | storing x => exact h.release hpc

/-! ### Every interleaving -/

theorem Inv.step (h : Inv q s) (a : SpscAction α) : Inv q (s.step q a) := by
  cases a with
  | tryPush v => exact h.tryPush v
  | produce => exact h.produce
  | front => exact h.front
  | pop => exact h.pop
  | consume => exact h.consume

theorem inv_make (q : RingSize) (zero : α) : Inv q (make zero) where
  producing := ⟨0, rfl, rfl, Nat.le_refl _, Nat.zero_le _, fun _ _ he => (nomatch he),
    fun _ _ he => he.elim (fun he => nomatch he) (fun he => nomatch he), fun _ _ he => (nomatch he)⟩
  consuming :=
    ⟨0, rfl, rfl, Nat.le_refl _, Nat.le_refl _, fun _ he => (nomatch he), fun _ he => (nomatch he),
    fun _ he => (nomatch he)⟩
  order := List.prefix_refl _
  held _ _ _ hv := nomatch hv

theorem Inv.run (h : Inv q s) (acts : List (SpscAction α)) : Inv q (s.run q acts) := by
  induction acts generalizing s with
  | nil => exact h
  | cons a acts ih => exact ih (h.step a)

/-- What a bounded queue promises in a state: the values popped are the first ones pushed, in order;
no more than the capacity are held, each in its own slot; the slot that has been handed out holds
the next value, and the producer is not about to write it; and a push is refused, or `front` finds
nothing, only if the ring is full or empty. -/
structure BoundedFifo (q : RingSize) (s : SpscQueue α) : Prop where
  order : s.popped <+: s.pushed
  bounded : s.pushed.length - s.popped.length ≤ q.capacity.toNat
  held : ∀ n v, s.popped.length ≤ n → s.pushed[n]? = some v → s.buf (q.slot (UInt64.ofNat n)) = v
  handed : ∀ i, s.handed = some i → s.pushed[s.popped.length]? = some (s.buf i)
  apart : ∀ i v t, s.handed = some i → s.producer = .writing v t → q.slot t ≠ i
  refused : ∀ v t, s.producer = .checking v t → (s.produce q).producer = .idle →
    s.pushed.length = s.popped.length + q.capacity.toNat
  nothing : ∀ x, s.consumer = .looking x → (s.consume q).handed = none → s.popped = s.pushed

/-- In every interleaving of the steps of a producer and a consumer, of any length, the ring is a
bounded queue. -/
theorem bounded_fifo (q : RingSize) (zero : α) (acts : List (SpscAction α)) :
    BoundedFifo q ((make zero).run q acts) := by
  have h := (inv_make q zero).run acts
  generalize (make zero).run q acts = s at h
  obtain ⟨seenP, hp⟩ := h.producing
  obtain ⟨seen, hc⟩ := h.consuming
  have hcap : q.capacity.toNat = 2 ^ q.log2 := by
    have : 2 ^ q.log2 ≤ 2 ^ 63 := Nat.pow_le_pow_right (by decide) q.log2_le
    rw [RingSize.capacity, UInt64.toNat_ofNat',
      Nat.mod_eq_of_lt (Nat.lt_of_le_of_lt this (by decide))]
  have hbound := h.bounded
  refine ⟨h.order, by omega, fun n v hn hv => ?_, fun i hi => (h.handed_value hi).1,
    fun i v t hi hw => ?_, fun v t hpc hidle => ?_, fun x hpc hnone => ?_⟩
  · rw [slot_ofNat]
    exact h.held n hn v hv
  · obtain ⟨_, hlt⟩ := hc.handed i hi
    rw [(h.handed_value hi).2]
    exact hp.slot_free hw (Nat.le_refl _) (Nat.lt_of_lt_of_le hlt hc.seen_le)
  · rw [hcap, ← h.full_iff hpc]
    simp only [SpscQueue.produce, hpc] at hidle
    split at hidle
    · split at hidle
      · assumption
      · cases hidle
    · cases hidle
  · have hord := h.order.length_le
    refine h.order.eq_of_length ?_
    rw [← h.empty_iff hpc hp.tail hord (Nat.le_refl _)]
    simp only [SpscQueue.consume, hpc] at hnone
    split at hnone
    · split at hnone
      · assumption
      · cases hnone
    · cases hnone

end SpscQueue
end ExchangeSim.Engine
