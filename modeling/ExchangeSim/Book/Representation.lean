/- digest: The ladder, bitmaps, queues, free list and id index of a book represent two priority
   lists. -/

import ExchangeSim.Book.OrderBook
import ExchangeSim.Book.PriorityBook
import Mathlib.Data.List.Perm.Basic
import Mathlib.Data.List.Sort

set_option autoImplicit false
set_option relaxedAutoImplicit false

namespace ExchangeSim.Book

open ExchangeSim.Lib
open PriorityBook (ahead inRange)

/-- The distance of a level from the best end of the ladder of side `T`. -/
def rank (T : Side) (n : Nat) (i : Int) : Int :=
  match T with
  | .buy => (n : Int) - 1 - i
  | .sell => i

theorem rank_inj {T : Side} {n : Nat} {i j : Int} (h : rank T n i = rank T n j) : i = j := by
  cases T <;> simp only [rank] at h <;> omega

theorem ahead_iff {T : Side} (n : Nat) {i j : Nat} :
    ahead T i j = true ↔ rank T n i ≤ rank T n j := by
  cases T <;> simp only [ahead, rank, decide_eq_true_eq] <;> omega

theorem inRange_iff {T : Side} (n : Nat) (limit : Int) (i : Nat) :
    inRange (opposite T) limit i = true ↔ rank T n i ≤ rank T n limit := by
  cases T <;> simp only [inRange, opposite, rank, decide_eq_true_eq]; omega

/-- `i` is the best occupied level at rank `r` or behind it, or the sentinel past the
last rank if there is none. -/
structure First (T : Side) (n : Nat) (occ : Nat → Prop) (r i : Int) : Prop where
  least : ∀ k : Nat, occ k → r ≤ rank T n k → rank T n i ≤ rank T n k
  found : rank T n i = n ∨ ∃ j : Nat, i = j ∧ occ j ∧ r ≤ rank T n j

theorem First.congr {T : Side} {n : Nat} {occ occ' : Nat → Prop} {r i : Int}
    (h : First T n occ r i) (same : ∀ k, occ k ↔ occ' k) : First T n occ' r i where
  least k hk := h.least k ((same k).mpr hk)
  found := h.found.imp_right fun ⟨j, hi, hj, hr⟩ => ⟨j, hi, (same j).mp hj, hr⟩

/-- The member of a bitmap behind level `i`. -/
def after (T : Side) (m : PriceBitmap) (i : Int) : Int :=
  match T with
  | .buy => m.findPrev (i - 1)
  | .sell => m.findNext (i + 1)

theorem first_after (T : Side) {m : PriceBitmap} (ok : m.Ok) (i : Int) :
    First T m.n (fun k => PriceBitmap.bitAt m.words k = true) (rank T m.n i + 1) (after T m i) := by
  cases T with
  | buy =>
      rcases PriceBitmap.findPrev_spec ok (i - 1) with ⟨hr, hnone⟩ | ⟨j, hr, hj, hle, hbelow⟩
      · refine ⟨fun k hk hle => ?_, .inl ?_⟩
        · have hfalse := hnone k (by simp only [rank] at hle; omega)
          rw [hk] at hfalse
          cases hfalse
        · simp only [after, rank, hr]
          omega
      · refine ⟨fun k hk hkr => ?_, .inr ⟨j, hr, hj, ?_⟩⟩
        · by_contra hlt
          simp only [after, rank, hr] at hlt hkr
          have hfalse := hbelow k (by omega) (by omega)
          rw [hk] at hfalse
          cases hfalse
        · simp only [rank]
          omega
  | sell =>
      rcases PriceBitmap.findNext_spec ok (i + 1) with ⟨hr, hnone⟩ | ⟨j, hr, hj, hle, hbelow⟩
      · refine ⟨fun k hk hle => ?_, .inl ?_⟩
        · have hfalse := hnone k (by simp only [rank] at hle; omega)
          rw [hk] at hfalse
          cases hfalse
        · simp only [after, rank, hr]
      · refine ⟨fun k hk hkr => ?_, .inr ⟨j, hr, hj, ?_⟩⟩
        · by_contra hlt
          simp only [after, rank, hr] at hlt hkr
          have hfalse := hbelow k (by omega) (by omega)
          rw [hk] at hfalse
          cases hfalse
        · simp only [rank]
          omega

namespace OrderBook

variable {σ : Type} [StoreLayout σ]

def bitsOf (b : OrderBook σ) : Side → PriceBitmap
  | .buy => b.bidBits
  | .sell => b.askBits

/-- The best level of side `T`. -/
def top (b : OrderBook σ) (T : Side) : Int := b.best (opposite T)

/-- The slots of `l` at level `i`. -/
def lane (b : OrderBook σ) (l : List Nat) (i : Nat) : List Nat :=
  l.filter fun s => b.store.level s = i

/-- Level `i` is the level of one of the slots of `l`. -/
def Occupied (b : OrderBook σ) (l : List Nat) (i : Nat) : Prop := ∃ s ∈ l, b.store.level s = i

/-- The representation invariant. The slots of each side are listed in priority order by
`L`, the free ones by `free`. A side's queue at a level is described where the other
side has none, so that one clause covers both the occupied and the vacant levels. -/
structure Rep (b : OrderBook σ) (L : Side → List Nat) (free : List Nat) : Prop where
  bits_ok : ∀ T, (b.bitsOf T).Ok
  bits_n : ∀ T, (b.bitsOf T).n = b.n
  bit_iff : ∀ T i, PriceBitmap.bitAt (b.bitsOf T).words i = true ↔ b.Occupied (L T) i
  top_first : ∀ T, First T b.n (b.Occupied (L T)) 0 (b.top T)
  sorted : ∀ T, (L T).Pairwise fun s t => ahead T (b.store.level s) (b.store.level t)
  filed : ∀ T, ∀ s ∈ L T, b.store.side s = T ∧ b.store.qty s ≠ 0
  apart : ∀ s ∈ L .buy, ∀ t ∈ L .sell, b.store.level s < b.store.level t
  queue : ∀ T i, b.lane (L (opposite T)) i = [] →
    Fifo.Queue kNil b.store.next b.store.prev (b.levels i).head (b.levels i).tail (b.lane (L T) i) ∧
      (b.levels i).qty = ((b.lane (L T) i).map b.store.qty).sum
  pool : (L .buy ++ L .sell ++ free).Perm (List.range b.store.cap)
  unused : b.store.Free free
  live_eq : b.store.live = (L .buy).length + (L .sell).length
  cap_lt : b.store.cap < kNil
  ids_ok : b.ids.Ok b.store.cap
  ids_size : b.ids.size = b.store.live
  ids_holds : ∀ e, b.ids.Holds e ↔
    ∃ T, ∃ s ∈ L T, e = ⟨b.ids.hash.fingerprint (b.store.id s) b.ids.bits, s⟩
  ids_inj : ∀ T U, ∀ s ∈ L T, ∀ t ∈ L U, b.store.id s = b.store.id t → s = t

/-- The resting order in a slot. -/
def entry (b : OrderBook σ) (s : Nat) : Resting :=
  ⟨b.store.level s, b.store.id s, b.store.qty s, b.store.owner s⟩

/-- The priority lists that the slots stand for. -/
def abs (b : OrderBook σ) (L : Side → List Nat) : PriorityBook := fun T => (L T).map b.entry

section Readings

variable {b : OrderBook σ} {L : Side → List Nat} {free : List Nat}

theorem mem_lane {l : List Nat} {i s : Nat} : s ∈ b.lane l i ↔ s ∈ l ∧ b.store.level s = i := by
  simp [lane]

theorem lane_ne_nil {l : List Nat} {i : Nat} : b.lane l i ≠ [] ↔ b.Occupied l i := by
  rw [← List.length_pos_iff, List.length_pos_iff_exists_mem]
  simp only [mem_lane, Occupied]

theorem lane_eq_nil {l : List Nat} {i : Nat} : b.lane l i = [] ↔ ¬ b.Occupied l i := by
  rw [← lane_ne_nil, not_not]

namespace Rep

theorem mem_iff (h : Rep b L free) (s : Nat) :
    s < b.store.cap ↔ s ∈ L .buy ∨ s ∈ L .sell ∨ s ∈ free := by
  have := h.pool.mem_iff (a := s)
  simp only [List.mem_append, List.mem_range] at this
  rw [← this, or_assoc]

theorem slot_lt (h : Rep b L free) {T : Side} {s : Nat} (hs : s ∈ L T) : s < b.store.cap := by
  rw [h.mem_iff]
  cases T
  · exact .inl hs
  · exact .inr (.inl hs)

theorem slot_ne_nil (h : Rep b L free) {T : Side} {s : Nat} (hs : s ∈ L T) : s ≠ kNil := by
  have := h.slot_lt hs
  have := h.cap_lt
  omega

theorem pool_nodup (h : Rep b L free) : (L .buy ++ L .sell ++ free).Nodup :=
  h.pool.nodup_iff.mpr List.nodup_range

theorem nodup (h : Rep b L free) (T : Side) : (L T).Nodup := by
  have := h.pool_nodup
  rw [List.append_assoc] at this
  cases T
  · exact (List.nodup_append.mp this).1
  · exact (List.nodup_append.mp (List.nodup_append.mp this).2.1).1

theorem lane_nodup (h : Rep b L free) (T : Side) (i : Nat) : (b.lane (L T) i).Nodup :=
  (h.nodup T).filter _

theorem side_unique (h : Rep b L free) {T U : Side} {s : Nat} (hT : s ∈ L T) (hU : s ∈ L U) :
    T = U := by
  rw [← (h.filed T s hT).1, (h.filed U s hU).1]

theorem not_free (h : Rep b L free) {T : Side} {s : Nat} (hs : s ∈ L T) : s ∉ free := by
  have hd := (List.nodup_append.mp h.pool_nodup).2.2
  intro hf
  refine hd s ?_ s hf rfl
  cases T
  · exact List.mem_append_left _ hs
  · exact List.mem_append_right _ hs

theorem level_lt (h : Rep b L free) {T : Side} {s : Nat} (hs : s ∈ L T) :
    b.store.level s < b.n := by
  rw [← h.bits_n T]
  exact (h.bits_ok T).inside _ ((h.bit_iff T _).mpr ⟨s, hs, rfl⟩)

theorem n_pos (h : Rep b L free) : 0 < b.n := by
  rw [← h.bits_n .buy]
  exact (h.bits_ok .buy).pos

theorem length_eq (h : Rep b L free) : b.store.live + free.length = b.store.cap := by
  have := h.pool.length_eq
  simp only [List.length_append, List.length_range] at this
  rw [h.live_eq, this]

theorem other_lane (h : Rep b L free) {T : Side} {i : Nat} (ho : b.Occupied (L T) i) :
    b.lane (L (opposite T)) i = [] := by
  rw [lane_eq_nil]
  rintro ⟨t, ht, rfl⟩
  obtain ⟨s, hs, he⟩ := ho
  cases T
  · exact absurd (h.apart s hs t ht) (by omega)
  · exact absurd (h.apart t ht s hs) (by omega)

theorem queue_at (h : Rep b L free) {T : Side} {s : Nat} (hs : s ∈ L T) :
    let i := b.store.level s
    Fifo.Queue kNil b.store.next b.store.prev (b.levels i).head (b.levels i).tail (b.lane (L T) i) ∧
      (b.levels i).qty = ((b.lane (L T) i).map b.store.qty).sum :=
  h.queue T _ (h.other_lane ⟨s, hs, rfl⟩)

theorem next_first (h : Rep b L free) (T : Side) (i : Int) :
    First T b.n (b.Occupied (L T)) (rank T b.n i + 1) (b.nextLevel (opposite T) i) := by
  have hf := first_after T (h.bits_ok T) i
  rw [h.bits_n T] at hf
  cases T <;> exact hf.congr (h.bit_iff _)

theorem top_eq (h : Rep b L free) {T : Side} {s : Nat} {l : List Nat} (hL : L T = s :: l) :
    b.top T = b.store.level s := by
  have hs : s ∈ L T := by simp [hL]
  have hlt := h.level_lt hs
  have hrank : 0 ≤ rank T b.n (b.store.level s) := by cases T <;> simp only [rank] <;> omega
  have hless : rank T b.n (b.store.level s) < b.n := by cases T <;> simp only [rank] <;> omega
  have hle := (h.top_first T).least _ ⟨s, hs, rfl⟩ hrank
  rcases (h.top_first T).found with hend | ⟨j, hj, ⟨t, ht, rfl⟩, _⟩
  · omega
  · rw [hj] at hle ⊢
    refine rank_inj (le_antisymm hle ?_)
    rcases List.mem_cons.mp (hL ▸ ht) with rfl | ht
    · exact le_rfl
    · have hp := h.sorted T
      rw [hL] at hp
      exact (ahead_iff b.n).mp (List.rel_of_pairwise_cons hp ht)

theorem top_end (h : Rep b L free) {T : Side} (hL : L T = []) : rank T b.n (b.top T) = b.n := by
  rcases (h.top_first T).found with hend | ⟨j, hj, ⟨t, ht, rfl⟩, _⟩
  · exact hend
  · rw [hL] at ht
    cases ht

theorem crosses_eq (h : Rep b L free) (S : Side) {limit : Int} (h0 : 0 ≤ limit) (hn : limit < b.n) :
    b.crosses S limit = PriorityBook.crosses (b.abs L) S limit := by
  have hcross : b.crosses S limit = true ↔
      rank (opposite S) b.n (b.top (opposite S)) ≤ rank (opposite S) b.n limit := by
    cases S <;> simp only [crosses, top, best, opposite, rank, decide_eq_true_eq]; omega
  have hlim : rank (opposite S) b.n limit < b.n := by
    cases S <;> simp only [opposite, rank] <;> omega
  rw [Bool.eq_iff_iff, hcross]
  cases hL : L (opposite S) with
  | nil =>
      have := h.top_end hL
      simp only [PriorityBook.crosses, abs, hL, List.map_nil, Bool.false_eq_true, iff_false]
      omega
  | cons s l =>
      rw [h.top_eq hL]
      simp only [PriorityBook.crosses, abs, hL, List.map_cons, entry]
      have := inRange_iff (T := opposite S) b.n limit (b.store.level s)
      rw [opposite_opposite] at this
      exact this.symm

end Rep
end Readings

section Updates

variable {b b' : OrderBook σ} {L : Side → List Nat} {free : List Nat}

structure Keeps (b b' : OrderBook σ) : Prop where
  symbol : b'.symbol = b.symbol
  minPrice : b'.minPrice = b.minPrice
  n : b'.n = b.n
  stp : b'.stp = b.stp
  cap : b'.store.cap = b.store.cap

omit [StoreLayout σ] in
theorem Keeps.trans {b'' : OrderBook σ} (h : Keeps b b') (h' : Keeps b' b'') : Keeps b b'' :=
  ⟨h'.symbol.trans h.symbol, h'.minPrice.trans h.minPrice, h'.n.trans h.n, h'.stp.trans h.stp,
    h'.cap.trans h.cap⟩

theorem lane_congr (h : ∀ t, b'.store.level t = b.store.level t) (l : List Nat) (i : Nat) :
    b'.lane l i = b.lane l i := by
  simp only [lane, h]

theorem occupied_congr (h : ∀ t, b'.store.level t = b.store.level t) (l : List Nat) (i : Nat) :
    b'.Occupied l i ↔ b.Occupied l i := by
  simp only [Occupied, h]

structure Erases (cap s : Nat) (ids ids' : OrderIndex) : Prop where
  ok : ids'.Ok cap
  size : ids'.size + 1 = ids.size
  hash : ids'.hash = ids.hash
  bits : ids'.bits = ids.bits
  holds : ∀ e, ids'.Holds e ↔ ids.Holds e ∧ e.value ≠ s

/-- The effect of taking slot `s` of side `T` out of its queue and freeing it. The list of
the side is `p ++ s :: r` before. -/
structure Drops (T : Side) (s : Nat) (p r : List Nat) (b b' : OrderBook σ) : Prop where
  keeps : Keeps b b'
  live : b'.store.live = b.store.live - 1
  free : b'.store.free = s
  ids : Erases b.store.cap s b.ids b'.ids
  entry : ∀ t, b'.entry t = b.entry t
  side : ∀ t, b'.store.side t = b.store.side t
  next_self : b'.store.next s = b.store.free
  links : ∀ t, t ∉ b.lane (p ++ s :: r) (b.store.level s) →
    b'.store.next t = b.store.next t ∧ b'.store.prev t = b.store.prev t
  levels : ∀ i, i ≠ b.store.level s → b'.levels i = b.levels i
  queue : let lv := b'.levels (b.store.level s)
    Fifo.Queue kNil b'.store.next b'.store.prev lv.head lv.tail (b.lane (p ++ r) (b.store.level s))
  qty : (b'.levels (b.store.level s)).qty = (b.levels (b.store.level s)).qty - b.store.qty s
  other : b'.bitsOf (opposite T) = b.bitsOf (opposite T) ∧ b'.top (opposite T) = b.top (opposite T)
  bits : b'.bitsOf T = if b.lane (p ++ r) (b.store.level s) = []
    then (b.bitsOf T).clear (b.store.level s) else b.bitsOf T
  top : b'.top T = if b.lane (p ++ r) (b.store.level s) = [] ∧ (b.store.level s : Int) = b.top T
    then after T ((b.bitsOf T).clear (b.store.level s)) (b.store.level s) else b.top T

private theorem sum_middle (f : Nat → UInt64) (p r : List Nat) (s : Nat) :
    ((p ++ s :: r).map f).sum - f s = ((p ++ r).map f).sum := by
  induction p with
  | nil =>
      simp only [List.nil_append, List.map_cons, List.sum_cons]
      grind
  | cons x p ih =>
      simp only [List.cons_append, List.map_cons, List.sum_cons] at ih ⊢
      grind

private theorem lane_middle (p r : List Nat) (s : Nat) :
    b.lane (p ++ s :: r) (b.store.level s) =
      b.lane p (b.store.level s) ++ s :: b.lane r (b.store.level s) := by
  simp [lane]

private theorem lane_drop_ne (p r : List Nat) (s : Nat) {i : Nat} (hi : i ≠ b.store.level s) :
    b.lane (p ++ r) i = b.lane (p ++ s :: r) i := by
  simp [lane, Ne.symm hi]

private theorem occupied_drop (p r : List Nat) (s i : Nat) :
    b.Occupied (p ++ r) i ↔
      b.Occupied (p ++ s :: r) i ∧
      (b.lane (p ++ r) (b.store.level s) = [] → i ≠ b.store.level s) := by
  by_cases hi : i = b.store.level s
  · subst hi
    rw [← lane_ne_nil]
    simp only [ne_eq, not_true_eq_false, imp_false]
    exact ⟨fun h => ⟨⟨s, by simp, rfl⟩, h⟩, fun h => h.2⟩
  · simp only [← lane_ne_nil, lane_drop_ne p r s hi, hi, ne_eq, not_false_eq_true,
      implies_true, and_true]

private theorem First.vacate {T : Side} {m : PriceBitmap} (ok : m.Ok) {n : Nat} (hn : m.n = n)
    {occ occ' : Nat → Prop} {i : Int} {ix : Nat} (h : First T n occ 0 i)
    (hocc : ∀ k, occ' k ↔ occ k ∧ k ≠ ix)
    (hbit : ∀ k, PriceBitmap.bitAt m.words k = true ↔ occ' k) :
    First T n occ' 0 (if (ix : Int) = i then after T m ix else i) := by
  split
  · rename_i heq
    subst heq
    have hf := (first_after T ok ix).congr hbit
    rw [hn] at hf
    have hrank : ∀ k : Nat, occ' k → 0 ≤ rank T n k → rank T n ix + 1 ≤ rank T n k := by
      intro k hk h0
      obtain ⟨hk, hne⟩ := (hocc k).mp hk
      have hle := h.least k hk h0
      rcases hle.lt_or_eq with hlt | he
      · omega
      · have := rank_inj he
        omega
    refine ⟨fun k hk h0 => hf.least k hk (hrank k hk h0), hf.found.imp_right ?_⟩
    rintro ⟨j, hj, hocc', hr⟩
    refine ⟨j, hj, hocc', ?_⟩
    rcases h.found with hend | ⟨k, hk, _, h0⟩
    · omega
    · rw [hk] at hr
      omega
  · rename_i hne
    refine ⟨fun k hk h0 => h.least k ((hocc k).mp hk).1 h0, h.found.imp_right ?_⟩
    rintro ⟨j, rfl, hj, hr⟩
    exact ⟨j, rfl, (hocc j).mpr ⟨hj, fun he => hne (by rw [he])⟩, hr⟩

private theorem pool_drop {T : Side} {s cap : Nat} {p r : List Nat} (hL : L T = p ++ s :: r)
    (h : (L .buy ++ L .sell ++ free).Perm (List.range cap)) :
    let L' := Function.update L T (p ++ r)
    (L' .buy ++ L' .sell ++ s :: free).Perm (List.range cap) := by
  rw [List.perm_iff_count] at h ⊢
  intro a
  rw [← h a]
  cases T <;> simp [Function.update, hL, List.count_append, List.count_cons] <;> omega

theorem Drops.rep {T : Side} {s : Nat} {p r : List Nat} (d : Drops T s p r b b') (h : Rep b L free)
    (hL : L T = p ++ s :: r) : Rep b' (Function.update L T (p ++ r)) (s :: free) := by
  have hs : s ∈ L T := by simp [hL]
  have hlevel : ∀ t, b'.store.level t = b.store.level t :=
    fun t => congrArg Resting.level (d.entry t)
  have hid : ∀ t, b'.store.id t = b.store.id t := fun t => congrArg Resting.id (d.entry t)
  have hqty : ∀ t, b'.store.qty t = b.store.qty t := fun t => congrArg Resting.qty (d.entry t)
  have hocc := occupied_drop (b := b) p r s
  rw [← hL] at hocc
  have hsub : ∀ U, (Function.update L T (p ++ r) U).Sublist (L U) := by
    intro U
    by_cases hU : U = T
    · subst hU
      rw [Function.update_self, hL]
      exact List.Sublist.append_left (List.sublist_cons_self s r) p
    · rw [Function.update_of_ne hU]
  have hbits : ∀ i, PriceBitmap.bitAt (b'.bitsOf T).words i = true ↔ b.Occupied (p ++ r) i := by
    intro i
    rw [d.bits, hocc i, ← h.bit_iff T i]
    split <;> rename_i he
    · simp [he]
    · simp [he]
  have hok : (b'.bitsOf T).Ok ∧ (b'.bitsOf T).n = b'.n := by
    rw [d.bits, d.keeps.n, ← h.bits_n T]
    split
    · exact ⟨PriceBitmap.ok_clear (h.bits_ok T) _, rfl⟩
    · exact ⟨h.bits_ok T, rfl⟩
  have hself : s ∉ p ++ r := by
    have hnd := h.nodup T
    rw [hL] at hnd
    exact (List.nodup_middle.mp hnd).notMem
  refine ⟨?_, ?_, ?_, ?_, ?_, ?_, ?_, ?_, ?_, ?_, ?_, ?_, ?_, ?_, ?_, ?_⟩
  · intro U
    by_cases hU : U = T
    · exact hU ▸ hok.1
    · rw [eq_opposite_of_ne hU, d.other.1]
      exact h.bits_ok _
  · intro U
    by_cases hU : U = T
    · exact hU ▸ hok.2
    · rw [eq_opposite_of_ne hU, d.other.1, d.keeps.n]
      exact h.bits_n _
  · intro U i
    rw [occupied_congr hlevel]
    by_cases hU : U = T
    · subst hU
      rw [Function.update_self]
      exact hbits i
    · rw [Function.update_of_ne hU, eq_opposite_of_ne hU, d.other.1]
      exact h.bit_iff _ i
  · intro U
    rw [d.keeps.n]
    by_cases hU : U = T
    · subst hU
      rw [Function.update_self]
      refine First.congr ?_ fun k => (occupied_congr hlevel _ k).symm
      have htop := h.top_first U
      rw [d.top]
      by_cases he : b.lane (p ++ r) (b.store.level s) = []
      · have hb := hbits
        rw [d.bits, if_pos he] at hb
        simp only [he, true_and]
        refine First.vacate (PriceBitmap.ok_clear (h.bits_ok U) _) (h.bits_n U) htop ?_ hb
        intro k
        rw [hocc k]
        simp [he]
      · rw [if_neg (fun hc => he hc.1)]
        refine htop.congr fun k => ?_
        rw [hocc k]
        simp [he]
    · rw [Function.update_of_ne hU, eq_opposite_of_ne hU, d.other.2]
      exact (h.top_first _).congr fun k => (occupied_congr hlevel _ k).symm
  · intro U
    simp only [hlevel]
    exact (h.sorted U).sublist (hsub U)
  · intro U t ht
    rw [d.side, hqty]
    exact h.filed U t ((hsub U).subset ht)
  · intro t ht u hu
    rw [hlevel, hlevel]
    exact h.apart t ((hsub _).subset ht) u ((hsub _).subset hu)
  · intro U i hempty
    simp only [lane_congr hlevel] at hempty ⊢
    have hmap : ∀ l : List Nat, l.map b'.store.qty = l.map b.store.qty := fun l => by simp [hqty]
    rw [hmap]
    by_cases hi : i = b.store.level s
    · subst hi
      -- the vacated level has no queue on the other side, before or after
      have hother := h.other_lane ⟨s, hs, rfl⟩
      by_cases hU : U = T
      · subst hU
        rw [Function.update_self]
        refine ⟨d.queue, ?_⟩
        rw [d.qty, (h.queue_at hs).2, hL, lane_middle, sum_middle]
        simp [lane]
      · have hU' := eq_opposite_of_ne hU
        subst hU'
        rw [opposite_opposite, Function.update_self] at hempty
        rw [Function.update_of_ne hU, hother]
        have hq := d.queue
        rw [hempty] at hq
        refine ⟨hq, ?_⟩
        rw [d.qty, (h.queue_at hs).2, hL, lane_middle, sum_middle]
        simp only [lane, ← List.filter_append] at hempty ⊢
        rw [hempty]
    · have hlane : ∀ V, b.lane (Function.update L T (p ++ r) V) i = b.lane (L V) i := by
        intro V
        by_cases hV : V = T
        · subst hV
          rw [Function.update_self, hL, lane_drop_ne p r s hi]
        · rw [Function.update_of_ne hV]
      rw [hlane] at hempty ⊢
      rw [d.levels i hi]
      obtain ⟨hq, hsum⟩ := h.queue U i hempty
      have hfar : ∀ t ∈ b.lane (L U) i, t ∉ b.lane (p ++ s :: r) (b.store.level s) := by
        intro t ht ht'
        exact hi ((mem_lane.mp ht).2.symm.trans (mem_lane.mp ht').2)
      exact ⟨hq.congr (fun t ht => (d.links t (hfar t ht)).1)
        (fun t ht => (d.links t (hfar t ht)).2), hsum⟩
  · rw [d.keeps.cap]
    exact pool_drop hL h.pool
  · refine ⟨d.free, h.slot_ne_nil hs, ?_⟩
    rw [d.next_self]
    refine Fifo.Seg.congr (fun t ht => (d.links t fun hlane => ?_).1) h.unused
    exact h.not_free (T := T) (hL ▸ (mem_lane.mp hlane).1) ht
  · rw [d.live, h.live_eq]
    cases T <;> simp [Function.update, hL] <;> omega
  · rw [d.keeps.cap]
    exact h.cap_lt
  · rw [d.keeps.cap]
    exact d.ids.ok
  · have := d.ids.size
    rw [d.live, ← h.ids_size]
    omega
  · intro e
    rw [d.ids.holds, h.ids_holds, d.ids.hash, d.ids.bits]
    simp only [hid]
    constructor
    · rintro ⟨⟨U, t, ht, rfl⟩, hne⟩
      refine ⟨U, t, ?_, rfl⟩
      by_cases hU : U = T
      · subst hU
        rw [Function.update_self]
        rw [hL] at ht
        simp only [List.mem_append, List.mem_cons] at ht ⊢
        tauto
      · rw [Function.update_of_ne hU]
        exact ht
    · rintro ⟨U, t, ht, rfl⟩
      refine ⟨⟨U, t, (hsub U).subset ht, rfl⟩, ?_⟩
      rintro rfl
      by_cases hU : U = T
      · subst hU
        rw [Function.update_self] at ht
        exact hself ht
      · exact hU (h.side_unique ((hsub U).subset ht) hs)
  · intro U V t ht u hu he
    rw [hid, hid] at he
    exact h.ids_inj U V t ((hsub U).subset ht) u ((hsub V).subset hu) he

theorem Rep.eraseKnown (h : Rep b L free) {T : Side} {s : Nat} (hs : s ∈ L T) :
    ∃ ids', b.ids.eraseKnown (b.store.id s) s = some ids' ∧ Erases b.store.cap s b.ids ids' ∧
      b.ids.Holds ⟨b.ids.hash.fingerprint (b.store.id s) b.ids.bits, s⟩ := by
  have hheld :=
    (h.ids_holds ⟨b.ids.hash.fingerprint (b.store.id s) b.ids.bits, s⟩).mpr ⟨T, s, hs, rfl⟩
  obtain ⟨ids', hrun, hok, hsize, hhash, _, hbits, hholds⟩ :=
    OrderIndex.eraseKnown_spec h.ids_ok (b.store.id s) hheld
  exact ⟨ids', hrun, ⟨hok, hsize, hhash, hbits, hholds⟩, hheld⟩

omit [StoreLayout σ] in
private theorem closeLevel_effect (T : Side) (ix : Nat) :
    let u := b.closeLevel T ix
    Keeps b u ∧ u.ids = b.ids ∧ u.store = b.store ∧ u.levels = b.levels ∧
      u.bitsOf (opposite T) = b.bitsOf (opposite T) ∧ u.top (opposite T) = b.top (opposite T) ∧
      u.bitsOf T = (b.bitsOf T).clear ix ∧
      u.top T = if (ix : Int) = b.top T then after T ((b.bitsOf T).clear ix) ix else b.top T := by
  cases T <;> exact ⟨⟨rfl, rfl, rfl, rfl, rfl⟩, rfl, rfl, rfl, rfl, rfl, rfl, rfl⟩

private theorem detach_at (s t : Nat) :
    let lv := b.levels (b.store.level s)
    (b.detach s).store.record t = { b.store.record t with
      next := (if s = lv.head then b.store.next
        else Function.update b.store.next (b.store.prev s) (b.store.next s)) t
      prev := (if s = lv.tail then b.store.prev
        else Function.update b.store.prev (b.store.next s) (b.store.prev s)) t } := by
  intro lv
  simp only [detach, setLevel]
  by_cases hh : s = (b.levels (b.store.level s)).head
  · by_cases ht : s = (b.levels (b.store.level s)).tail
    · simp only [lv, if_pos hh, if_pos ht]
    · simp only [lv, if_pos hh, if_neg ht, FreeListStore.setPrev_at]
  · by_cases ht : s = (b.levels (b.store.level s)).tail
    · simp only [lv, if_neg hh, if_pos ht, FreeListStore.setNext_at]
    · simp only [lv, if_neg hh, if_neg ht, FreeListStore.setNext_at, FreeListStore.setPrev_at,
        FreeListStore.prev_setNext]

private theorem detach_fields (s : Nat) :
    let lv := b.levels (b.store.level s)
    let head := if s = lv.head then b.store.next s else lv.head
    let u := b.detach s
    Keeps b u ∧ u.ids = b.ids ∧ u.store.live = b.store.live ∧ u.store.free = b.store.free ∧
      u.levels = Function.update b.levels (b.store.level s) ⟨lv.qty - b.store.qty s, head,
        if s = lv.tail then (if head = kNil then kNil else b.store.prev s) else lv.tail⟩ ∧
      (∀ T, u.bitsOf T = b.bitsOf T) ∧ ∀ T, u.top T = b.top T := by
  intro lv head u
  have hstore : u.store.cap = b.store.cap ∧ u.store.live = b.store.live ∧
      u.store.free = b.store.free := by
    simp only [u, detach, setLevel]
    split <;> split <;> exact ⟨rfl, rfl, rfl⟩
  refine ⟨⟨rfl, rfl, rfl, rfl, hstore.1⟩, rfl, hstore.2.1, hstore.2.2, rfl,
    fun T => ?_, fun T => ?_⟩
  · cases T <;> rfl
  · cases T <;> rfl

theorem Rep.takeOut (h : Rep b L free) {T : Side} {s : Nat} {p r : List Nat}
    (hL : L T = p ++ s :: r) {ids' : OrderIndex} (he : Erases b.store.cap s b.ids ids') :
    Drops T s p r b (b.takeOut ids' s) := by
  have hs : s ∈ L T := by simp [hL]
  obtain ⟨hq, hsum⟩ := h.queue_at hs
  rw [hL, lane_middle] at hq
  have hnd : (b.lane p (b.store.level s) ++ s :: b.lane r (b.store.level s)).Nodup := by
    rw [← lane_middle, ← hL]
    exact (h.nodup T).filter _
  have hrem := hq.remove hnd
  have hlane : b.lane (p ++ r) (b.store.level s) =
      b.lane p (b.store.level s) ++ b.lane r (b.store.level s) := by simp [lane]
  rw [← hlane] at hrem
  have hself : s ∉ b.lane (p ++ r) (b.store.level s) := by
    rw [hlane]
    exact (List.nodup_middle.mp hnd).notMem
  have hnext : b.store.next s ∉ b.lane (p ++ s :: r) (b.store.level s) →
      s = (b.levels (b.store.level s)).tail := by
    intro hout
    by_contra hne
    exact hout (by rw [lane_middle]; simp [hq.next_mem hne])
  have hprev : b.store.prev s ∉ b.lane (p ++ s :: r) (b.store.level s) →
      s = (b.levels (b.store.level s)).head := by
    intro hout
    by_contra hne
    exact hout (by rw [lane_middle]; simp [hq.prev_mem hne])
  have hat := detach_at (b := { b with ids := ids' }) s
  obtain ⟨hkeep, hids, hlive, hfree, hlev, hbits, htop⟩ :=
    detach_fields (b := { b with ids := ids' }) s
  simp only at hat hlev hlive hfree hids
  generalize hd : ({ b with ids := ids' } : OrderBook σ).detach s = d at *
  have hhead : (d.levels (b.store.level s)).head = kNil ↔
  b.lane (p ++ r) (b.store.level s) = [] := by
    rw [hlev, Function.update_self]
    exact hrem.head_eq_nil_iff
  have hside : d.store.side s = T := by
    rw [← (h.filed T s hs).1]
    simp only [FreeListStore.side, hat]
  -- the closing of the level touches only the bitmap and the best level of the side
  obtain ⟨u, hu, hustore, hulevels, huids, hukeep, huother, hubits, hutop⟩ :
      ∃ u, b.takeOut ids' s = { u with store := u.store.release s } ∧ u.store = d.store ∧
        u.levels = d.levels ∧ u.ids = d.ids ∧ Keeps d u ∧
        (u.bitsOf (opposite T) = d.bitsOf (opposite T) ∧ u.top (opposite T) = d.top (opposite T)) ∧
        (u.bitsOf T = if b.lane (p ++ r) (b.store.level s) = []
          then (d.bitsOf T).clear (b.store.level s) else d.bitsOf T) ∧
        (u.top T = if b.lane (p ++ r) (b.store.level s) = [] ∧ (b.store.level s : Int) = d.top T
          then after T ((d.bitsOf T).clear (b.store.level s)) (b.store.level s) else d.top T) := by
    refine ⟨({ b with ids := ids' } : OrderBook σ).unlink s, rfl, ?_⟩
    simp only [unlink, hd, hside]
    by_cases hk : b.lane (p ++ r) (b.store.level s) = []
    · rw [if_pos (hhead.mpr hk)]
      obtain ⟨hk', hi, hst, hlv, ho, ho', hb, ht⟩ := closeLevel_effect (b := d) T (b.store.level s)
      refine ⟨hst, hlv, hi, hk', ⟨ho, ho'⟩, ?_, ?_⟩
      · rw [if_pos hk, hb]
      · simp only [hk, true_and, ht]
    · rw [if_neg (fun hc => hk (hhead.mp hc))]
      refine ⟨rfl, rfl, rfl, ⟨rfl, rfl, rfl, rfl, rfl⟩, ⟨rfl, rfl⟩, ?_, ?_⟩
      · rw [if_neg hk]
      · rw [if_neg (fun hc => hk hc.1)]
  rw [hu]
  have hrec : ∀ t, (u.store.release s).record t = { d.store.record t with
      next := Function.update d.store.next s b.store.free t } := by
    intro t
    rw [FreeListStore.release_at, hustore, hfree]
  refine ⟨?_, ?_, rfl, ?_, ?_, ?_, ?_, ?_, ?_, ?_, ?_, ?_, ?_, ?_⟩
  · have := hkeep.trans hukeep
    exact ⟨this.symbol, this.minPrice, this.n, this.stp, this.cap⟩
  · change u.store.live - 1 = _
    rw [hustore, hlive]
  · change Erases _ _ _ u.ids
    rw [huids, hids]
    exact he
  · intro t
    simp only [OrderBook.entry, FreeListStore.level, FreeListStore.id, FreeListStore.qty,
      FreeListStore.owner, hrec, hat]
  · intro t
    simp only [FreeListStore.side, hrec, hat]
  · simp only [FreeListStore.next, hrec, Function.update_self]
  · intro t ht
    have hts : t ≠ s := by
      rintro rfl
      exact ht (by rw [lane_middle]; simp)
    simp only [FreeListStore.next, FreeListStore.prev, hrec, Function.update_of_ne hts, hat]
    constructor
    · split
      · rfl
      · rename_i hne
        rw [Function.update_of_ne]
        rintro rfl
        exact hne (hprev ht)
    · split
      · rfl
      · rename_i hne
        rw [Function.update_of_ne]
        rintro rfl
        exact hne (hnext ht)
  · intro i hi
    change u.levels i = _
    rw [hulevels, hlev, Function.update_of_ne hi]
  · change let lv := u.levels _; Fifo.Queue _ _ _ lv.head lv.tail _
    rw [hulevels, hlev, Function.update_self]
    refine hrem.congr ?_ ?_
    · intro t ht
      have hts : t ≠ s := by
        rintro rfl
        exact hself ht
      simp only [FreeListStore.next, hrec, Function.update_of_ne hts, hat]
    · intro t _
      simp only [FreeListStore.prev, hrec, hat]
  · change (u.levels _).qty = _
    rw [hulevels, hlev, Function.update_self]
  · change u.bitsOf _ = _ ∧ u.top _ = _
    rw [huother.1, huother.2, hbits, htop]
    cases T <;> exact ⟨rfl, rfl⟩
  · change u.bitsOf _ = _
    rw [hubits, hbits]
    cases T <;> rfl
  · change u.top _ = _
    rw [hutop, hbits, htop]
    cases T <;> rfl

omit [StoreLayout σ] in
theorem retire_effect (T : Side) (ix s : Nat) :
    let u := retire (opposite T) b ix s
    Keeps b u ∧ u.ids = b.ids ∧ u.store = b.store ∧
      u.levels = Function.update b.levels ix
        ⟨(b.levels ix).qty, s, if s = kNil then kNil else (b.levels ix).tail⟩ ∧
      u.bitsOf (opposite T) = b.bitsOf (opposite T) ∧ u.top (opposite T) = b.top (opposite T) ∧
      (u.bitsOf T = if s = kNil then (b.bitsOf T).clear ix else b.bitsOf T) ∧
      u.top T = if s = kNil then after T ((b.bitsOf T).clear ix) ix else b.top T := by
  simp only [retire]
  by_cases hs : s = kNil
  · simp only [if_pos hs]
    cases T <;> exact ⟨⟨rfl, rfl, rfl, rfl, rfl⟩, rfl, rfl, rfl, rfl, rfl, rfl, rfl⟩
  · simp only [if_neg hs]
    cases T <;> exact ⟨⟨rfl, rfl, rfl, rfl, rfl⟩, rfl, rfl, rfl, rfl, rfl, rfl, rfl⟩

/-- The book after a sweep has met and dropped the maker in slot `s`: during the sweep the
level's head is only updated at the end, by `retire`. -/
def popped (b : OrderBook σ) (ids' : OrderIndex) (ix s : Nat) : OrderBook σ :=
  { b.subLevelQty ix (b.store.qty s) with ids := ids', store := b.store.release s }

theorem Rep.popped {T : Side} {ix s : Nat} {r : List Nat}
    (h : Rep (retire (opposite T) b ix s) L free) (hL : L T = s :: r) (hix : b.store.level s = ix)
    {ids' : OrderIndex} (he : Erases b.store.cap s b.ids ids') :
    Drops T s [] r (retire (opposite T) b ix s)
      (retire (opposite T) (b.popped ids' ix s) ix (b.store.next s)) := by
  have hs : s ∈ L T := by simp [hL]
  have hne : s ≠ kNil := h.slot_ne_nil hs
  obtain ⟨hq, hsum⟩ := h.queue_at hs
  have htop := h.top_eq hL
  obtain ⟨hk, hi, hst, hlv, hob, hot, hb, ht⟩ := retire_effect (b := b) T ix s
  obtain ⟨hk', hi', hst', hlv', hob', hot', hb', ht'⟩ :=
    retire_effect (b := b.popped ids' ix s) T ix (b.store.next s)
  rw [if_neg hne] at hb ht hlv
  have hlane : ∀ l i, (retire (opposite T) b ix s).lane l i = b.lane l i := by
    intro l i
    simp only [lane, hst]
  rw [hlane, hst, hlv, hix, Function.update_self, hL] at hq
  rw [hst, hix] at htop
  have hcons : b.lane (s :: r) ix = s :: b.lane r ix := by simp [lane, hix]
  rw [hcons] at hq
  have hpop := hq.pop
  have hempty : b.store.next s = kNil ↔ b.lane r ix = [] := hpop.head_eq_nil_iff
  have hself : s ∉ b.lane r ix := by
    have := (h.nodup T)
    rw [hL] at this
    exact fun hm => (List.nodup_cons.mp this).1 (mem_lane.mp hm).1
  have hrec : ∀ t, (b.popped ids' ix s).store.record t = { b.store.record t with
      next := Function.update b.store.next s b.store.free t } :=
    fun t => FreeListStore.release_at b.store s t
  have hlevels : (b.popped ids' ix s).levels =
      Function.update b.levels ix { b.levels ix with qty := (b.levels ix).qty - b.store.qty s } :=
        rfl
  constructor
  · exact ⟨hk'.symbol.trans hk.symbol.symm, hk'.minPrice.trans hk.minPrice.symm,
      hk'.n.trans hk.n.symm, hk'.stp.trans hk.stp.symm, hk'.cap.trans hk.cap.symm⟩
  · rw [hst', hst]
    rfl
  · rw [hst']
    rfl
  · rw [hi', hi, hst]
    exact he
  · intro t
    simp only [OrderBook.entry, hst, hst', FreeListStore.level, FreeListStore.id, FreeListStore.qty,
      FreeListStore.owner, hrec]
  · intro t
    simp only [FreeListStore.side, hst, hst', hrec]
  · simp only [FreeListStore.next, hst, hst', hrec, Function.update_self]
  · intro t hout
    have hts : t ≠ s := by
      rintro rfl
      exact hout (mem_lane.mpr ⟨by simp, rfl⟩)
    simp only [FreeListStore.next, FreeListStore.prev, hst, hst', hrec, Function.update_of_ne hts,
      and_self]
  · intro i hi
    rw [hst, hix] at hi
    rw [hlv', hlv, Function.update_of_ne hi, Function.update_of_ne hi, hlevels,
      Function.update_of_ne hi]
  · rw [hst, hix, hlv', Function.update_self, hlevels, Function.update_self, List.nil_append, hlane]
    refine hpop.congr ?_ ?_
    · intro t hmem
      have hts : t ≠ s := by
        rintro rfl
        exact hself hmem
      simp only [FreeListStore.next, hst', hrec, Function.update_of_ne hts]
    · intro t _
      simp only [FreeListStore.prev, hst', hrec]
  · rw [hst, hix, hlv', hlv, Function.update_self, Function.update_self, hlevels,
      Function.update_self]
  · rw [hob', hot', hob, hot]
    cases T <;> exact ⟨rfl, rfl⟩
  · rw [hb', hb, hst, hix, List.nil_append, hlane]
    have hsame : (b.popped ids' ix s).bitsOf T = b.bitsOf T := by cases T <;> rfl
    simp only [hempty, hsame]
  · rw [ht', hb, hst, hix, List.nil_append, hlane, htop]
    have hsame : (b.popped ids' ix s).bitsOf T = b.bitsOf T := by cases T <;> rfl
    have hsame' : (b.popped ids' ix s).top T = b.top T := by cases T <;> rfl
    rw [hsame, hsame', ← ht, htop]
    simp only [hempty, and_true]

private theorem sum_update (f : Nat → UInt64) {l : List Nat} (hnd : l.Nodup) {s : Nat} (hs : s ∈ l)
    (d : UInt64) : (l.map (Function.update f s (f s - d))).sum = (l.map f).sum - d := by
  obtain ⟨p, r, rfl⟩ := List.append_of_mem hs
  have hout := (List.nodup_middle.mp hnd).notMem
  have h1 := sum_middle f p r s
  have h2 := sum_middle (Function.update f s (f s - d)) p r s
  have hsame : (p ++ r).map (Function.update f s (f s - d)) = (p ++ r).map f :=
    List.map_congr_left fun t ht => Function.update_of_ne (ne_of_mem_of_not_mem ht hout) _ _
  rw [hsame, Function.update_self] at h2
  grind

/-- The book after the quantity in slot `s` has become `q` and the aggregate of its level
has lost `d`. -/
def requantified (b : OrderBook σ) (ix s : Nat) (q d : Qty) : OrderBook σ :=
  ({ b with store := b.store.setQty s q } : OrderBook σ).subLevelQty ix d

theorem Rep.requantified (h : Rep b L free) {T : Side} {s : Nat} (hs : s ∈ L T)
    {q d : Qty} (hq : q ≠ 0) (hd : b.store.qty s - d = q) :
    Rep (b.requantified (b.store.level s) s q d) L free := by
  have hrec := FreeListStore.setQty_at b.store s q
  have hstore : (b.requantified (b.store.level s) s q d).store = b.store.setQty s q := rfl
  have hlevels : (b.requantified (b.store.level s) s q d).levels = Function.update b.levels
    (b.store.level s)
      { b.levels (b.store.level s) with qty := (b.levels (b.store.level s)).qty - d } := rfl
  have hlevel : ∀ t, (b.requantified (b.store.level s) s q d).store.level t = b.store.level t := by
    intro t
    simp only [hstore, FreeListStore.level, hrec]
  have hid : ∀ t, (b.requantified (b.store.level s) s q d).store.id t = b.store.id t := by
    intro t
    simp only [hstore, FreeListStore.id, hrec]
  have hqty : (b.requantified (b.store.level s) s q d).store.qty =
      Function.update b.store.qty s q := by
    funext t
    simp only [hstore, FreeListStore.qty, hrec]
  have hnext : (b.requantified (b.store.level s) s q d).store.next = b.store.next := by
    funext t
    simp only [hstore, FreeListStore.next, hrec]
  have hprev : (b.requantified (b.store.level s) s q d).store.prev = b.store.prev := by
    funext t
    simp only [hstore, FreeListStore.prev, hrec]
  have hbits : ∀ U, (b.requantified (b.store.level s) s q d).bitsOf U = b.bitsOf U := by
    intro U
    cases U <;> rfl
  constructor
  · intro U
    rw [hbits]
    exact h.bits_ok U
  · intro U
    rw [hbits]
    exact h.bits_n U
  · intro U i
    rw [occupied_congr hlevel, hbits]
    exact h.bit_iff U i
  · intro U
    have := (h.top_first U).congr fun k => (occupied_congr hlevel (L U) k).symm
    cases U <;> exact this
  · intro U
    simp only [hlevel]
    exact h.sorted U
  · intro U t ht
    obtain ⟨hside, hpos⟩ := h.filed U t ht
    refine ⟨?_, ?_⟩
    · simp only [hstore, FreeListStore.side, hrec]
      exact hside
    · rw [hqty]
      by_cases hts : t = s
      · rw [hts, Function.update_self]
        exact hq
      · rw [Function.update_of_ne hts]
        exact hpos
  · intro t ht u hu
    rw [hlevel, hlevel]
    exact h.apart t ht u hu
  · intro U i hempty
    rw [lane_congr hlevel] at hempty ⊢
    rw [hnext, hprev, hqty, hlevels]
    obtain ⟨hqueue, hsum⟩ := h.queue U i hempty
    by_cases hi : i = b.store.level s
    · subst hi
      have hU : U = T := by
        by_contra hne
        rw [eq_opposite_of_ne hne, opposite_opposite] at hempty
        exact lane_ne_nil.mpr ⟨s, hs, rfl⟩ hempty
      subst hU
      rw [Function.update_self, ← hd,
        sum_update _ (h.lane_nodup U _) (mem_lane.mpr ⟨hs, rfl⟩), ← hsum]
      exact ⟨hqueue, rfl⟩
    · rw [Function.update_of_ne hi]
      refine ⟨hqueue, hsum.trans (congrArg List.sum (List.map_congr_left fun t ht => ?_))⟩
      rw [Function.update_of_ne]
      rintro rfl
      exact hi (mem_lane.mp ht).2.symm
  · exact h.pool
  · change Fifo.Seg kNil (OrderBook.requantified _ _ _ _ _).store.next _ free kNil
    rw [hnext]
    exact h.unused
  · exact h.live_eq
  · exact h.cap_lt
  · exact h.ids_ok
  · exact h.ids_size
  · simp only [hid]
    exact h.ids_holds
  · simp only [hid]
    exact h.ids_inj

omit [StoreLayout σ] in
theorem retire_requantified [StoreLayout σ] (S : Side) (ix : Nat) {s : Nat}
    (hs : s ≠ kNil) (q d : Qty) :
    retire S (b.requantified ix s q d) ix s = (retire S b ix s).requantified ix s q d := by
  simp only [retire, if_neg hs, requantified, subLevelQty, setLevel, Function.update_self,
    Function.update_idem]

theorem enqueue_at (T : Side) (s : Nat) (id : OrderId) (owner : OwnerId) (ix : Nat) (qty : Qty)
    (ts : UInt64) (t : Nat) :
    (enqueue T b s id owner ix qty ts).store.record t =
      ⟨if t = s then id else b.store.id t, if t = s then qty else b.store.qty t,
        (if (b.levels ix).tail = kNil then Function.update b.store.next s kNil
          else Function.update (Function.update b.store.next s kNil) (b.levels ix).tail s) t,
        Function.update b.store.prev s (b.levels ix).tail t,
        if t = s then ix else b.store.level t, if t = s then owner else b.store.owner t,
        if t = s then T else b.store.side t⟩ := by
  have hopen : ∀ (c : OrderBook σ) i, (c.openLevel T i).store = c.store := by
    intro c i
    cases T <;> rfl
  simp only [enqueue, setLevel]
  by_cases hk : (b.levels ix).tail = kNil
  · simp only [if_pos hk, hopen, FreeListStore.setPrev_at, FreeListStore.setNext_at,
      FreeListStore.init_at,
      FreeListStore.prev_setNext, FreeListStore.next_init, FreeListStore.prev_init]
    by_cases ht : t = s
    · simp [ht]
    · simp [ht]
  · simp only [if_neg hk, FreeListStore.setPrev_at, FreeListStore.setNext_at, FreeListStore.init_at,
      FreeListStore.prev_setNext, FreeListStore.next_setPrev, FreeListStore.next_setNext,
      FreeListStore.next_init, FreeListStore.prev_init]
    by_cases ht : t = s
    · simp [ht]
    · simp [ht]

theorem enqueue_effect (T : Side) (s : Nat) (id : OrderId) (owner : OwnerId) (ix : Nat) (qty : Qty)
    (ts : UInt64) :
    let u := enqueue T b s id owner ix qty ts
    let lv := b.levels ix
    Keeps b u ∧ u.ids = b.ids ∧ u.store.live = b.store.live ∧ u.store.free = b.store.free ∧
      u.levels = Function.update b.levels ix
        ⟨lv.qty + qty, if lv.tail = kNil then s else lv.head, s⟩ ∧
      u.bitsOf (opposite T) = b.bitsOf (opposite T) ∧ u.top (opposite T) = b.top (opposite T) ∧
      (u.bitsOf T = if lv.tail = kNil then (b.bitsOf T).set ix else b.bitsOf T) ∧
      u.top T = if lv.tail = kNil ∧ rank T b.n ix < rank T b.n (b.top T) then
        (ix : Int) else b.top T := by
  intro u lv
  by_cases hk : lv.tail = kNil
  · have hu : u = enqueue T b s id owner ix qty ts := rfl
    simp only [enqueue, if_pos (show (b.levels ix).tail = kNil from hk)] at hu
    simp only [hk, true_and, if_true]
    rw [hu]
    refine ⟨?_, ?_, ?_, ?_, ?_, ?_, ?_, ?_, ?_⟩
    · cases T <;> exact ⟨rfl, rfl, rfl, rfl, rfl⟩
    · cases T <;> rfl
    · cases T <;> rfl
    · cases T <;> rfl
    · cases T <;> simp [setLevel, openLevel, lv]
    · cases T <;> rfl
    · cases T <;> rfl
    · cases T <;> rfl
    · cases T
      · simp only [setLevel, openLevel, top, best, opposite, rank]
        congr 1
        rw [eq_iff_iff]
        omega
      · rfl
  · have hu : u = enqueue T b s id owner ix qty ts := rfl
    simp only [enqueue, if_neg (show ¬ (b.levels ix).tail = kNil from hk)] at hu
    simp only [hk, false_and, if_false]
    rw [hu]
    refine ⟨⟨rfl, rfl, rfl, rfl, rfl⟩, rfl, rfl, rfl, rfl, ?_, ?_, ?_, ?_⟩ <;> cases T <;> rfl

/-- Linking slot `s`, taken from the free list, at the back of the queue at `ix`. The list
of the side is `p ++ r` before, cut where the new order belongs. -/
theorem Rep.enqueued {T : Side} {s ix : Nat} {f p r : List Nat} (h : Rep b L (s :: f))
    (hL : L T = p ++ r) (hp : ∀ t ∈ p, ahead T (b.store.level t) ix = true)
    (hr : ∀ t ∈ r, ahead T (b.store.level t) ix = false) (hix : ix < b.n)
    (hfar : ∀ t ∈ L (opposite T), inRange T ix (b.store.level t) = false)
    {id : OrderId} (hid : ∀ U, ∀ t ∈ L U, b.store.id t ≠ id) {qty : Qty} (hq : qty ≠ 0)
    (owner : OwnerId) (ts : UInt64) (ids' : OrderIndex) (hok : ids'.Ok b.store.cap)
    (hsize : ids'.size = b.ids.size + 1) (hhash : ids'.hash = b.ids.hash)
    (hbits : ids'.bits = b.ids.bits)
    (hholds : ∀ e, ids'.Holds e ↔ e = ⟨b.ids.hash.fingerprint id b.ids.bits, s⟩ ∨ b.ids.Holds e) :
    let b₀ : OrderBook σ :=
      { b with store := { b.store with free := b.store.next s, live := b.store.live + 1 } }
    Rep { b₀.enqueue T s id owner ix qty ts with ids := ids' }
        (Function.update L T (p ++ s :: r)) f := by
  intro b₀
  have hsfree : s ∈ s :: f := List.mem_cons_self
  have hout : ∀ U, s ∉ L U := fun U hs => h.not_free hs hsfree
  have hne : ∀ U, ∀ t ∈ L U, t ≠ s := fun U t ht => ne_of_mem_of_not_mem ht (hout U)
  obtain ⟨hfree, hsnil, hseg⟩ := h.unused
  have hother : b.lane (L (opposite T)) ix = [] := by
    rw [lane_eq_nil]
    rintro ⟨t, ht, hlt⟩
    have := hfar t ht
    rw [hlt] at this
    cases T <;> simp [inRange] at this
  have hrank : 0 ≤ rank T b.n ix := by cases T <;> simp only [rank] <;> omega
  obtain ⟨hqueue, hsum⟩ := h.queue T ix hother
  have hopen : (b.levels ix).tail = kNil ↔ b.lane (L T) ix = [] := hqueue.tail_eq_nil_iff
  have htail : (b.levels ix).tail ≠ kNil → (b.levels ix).tail ∈ b.lane (L T) ix := by
    intro hk
    have hl := mt hopen.mpr hk
    rw [hqueue.tail_eq, List.getLastD_eq_getLast?, List.getLast?_eq_some_getLast hl,
      Option.getD_some]
    exact List.getLast_mem hl
  have hrec := enqueue_at (b := b₀) T s id owner ix qty ts
  obtain ⟨hk, _, hlive, hfree', hlv, hob, hot, hb, htop⟩ :=
    enqueue_effect (b := b₀) T s id owner ix qty ts
  generalize enqueue T b₀ s id owner ix qty ts = u at *
  have hsame : ∀ U, b₀.bitsOf U = b.bitsOf U := fun U => by cases U <;> rfl
  have hsame' : ∀ U, b₀.top U = b.top U := fun U => by cases U <;> rfl
  rw [hsame] at hb hob
  rw [hsame'] at htop hot
  have hlevel : ∀ t, t ≠ s → u.store.level t = b.store.level t := by
    intro t hts
    simp only [FreeListStore.level, hrec, if_neg hts]
    rfl
  have hlevel_s : u.store.level s = ix := by simp only [FreeListStore.level, hrec, if_true]
  have hnext : u.store.next = if (b.levels ix).tail = kNil then Function.update b.store.next s kNil
      else Function.update (Function.update b.store.next s kNil) (b.levels ix).tail s := by
    funext t
    simp only [FreeListStore.next, hrec]
    rfl
  have hid_ne : ∀ t, t ≠ s → u.store.id t = b.store.id t := by
    intro t hts
    simp only [FreeListStore.id, hrec, if_neg hts]
    rfl
  have hid_s : u.store.id s = id := by simp only [FreeListStore.id, hrec, if_true]
  have hlane : ∀ (l : List Nat) i, s ∉ l → u.lane l i = b.lane l i := by
    intro l i hl
    refine List.filter_congr fun t ht => ?_
    rw [hlevel t (ne_of_mem_of_not_mem ht hl)]
  have hpr : s ∉ p ∧ s ∉ r := by
    have := hout T
    rw [hL] at this
    simpa using this
  have hlane_ix : u.lane (p ++ s :: r) ix = b.lane (L T) ix ++ [s] := by
    have hr0 : b.lane r ix = [] := by
      rw [lane_eq_nil]
      rintro ⟨t, ht, hlt⟩
      have := hr t ht
      rw [hlt] at this
      cases T <;> simp [ahead] at this
    have hsplit : u.lane (p ++ s :: r) ix = u.lane p ix ++ s :: u.lane r ix := by
      simp [lane, hlevel_s]
    rw [hsplit, hlane p ix hpr.1, hlane r ix hpr.2, hr0, hL]
    have : b.lane (p ++ r) ix = b.lane p ix ++ b.lane r ix := by simp [lane]
    rw [this, hr0, List.append_nil]
  have hlane_ne : ∀ i, i ≠ ix → u.lane (p ++ s :: r) i = b.lane (L T) i := by
    intro i hi
    have hsplit : u.lane (p ++ s :: r) i = u.lane p i ++ u.lane r i := by
      simp [lane, hlevel_s, hi.symm]
    rw [hsplit, hlane p i hpr.1, hlane r i hpr.2, hL]
    simp [lane]
  have hocc : ∀ i, u.Occupied (p ++ s :: r) i ↔ b.Occupied (L T) i ∨ i = ix := by
    intro i
    by_cases hi : i = ix
    · subst hi
      simp only [← lane_ne_nil, hlane_ix]
      simp
    · simp only [← lane_ne_nil, hlane_ne i hi, hi, or_false]
  have hoccU : ∀ U, U ≠ T → ∀ i, u.Occupied (L U) i ↔ b.Occupied (L U) i := by
    intro U _ i
    rw [← lane_ne_nil, ← lane_ne_nil, hlane _ _ (hout U)]
  have hmem : ∀ U, ∀ t ∈ Function.update L T (p ++ s :: r) U, (t = s ∧ U = T) ∨ t ∈ L U := by
    intro U t ht
    by_cases hU : U = T
    · subst hU
      rw [Function.update_self] at ht
      rw [hL]
      simp only [List.mem_append, List.mem_cons] at ht ⊢
      tauto
    · rw [Function.update_of_ne hU] at ht
      exact .inr ht
  constructor
  · intro U
    by_cases hU : U = T
    · subst hU
      change (u.bitsOf U).Ok
      rw [hb]
      split
      · exact PriceBitmap.ok_set (h.bits_ok U) (by rw [h.bits_n U]; exact hix)
      · exact h.bits_ok U
    · rw [eq_opposite_of_ne hU]
      change (u.bitsOf (opposite T)).Ok
      rw [hob]
      exact h.bits_ok _
  · intro U
    change (u.bitsOf U).n = u.n
    rw [hk.n]
    by_cases hU : U = T
    · subst hU
      rw [hb]
      split
      · exact h.bits_n U
      · exact h.bits_n U
    · rw [eq_opposite_of_ne hU, hob]
      exact h.bits_n _
  · intro U i
    change PriceBitmap.bitAt (u.bitsOf U).words i = true ↔ u.Occupied _ i
    by_cases hU : U = T
    · subst hU
      rw [Function.update_self, hocc, hb, ← h.bit_iff U i]
      split
      · simp
      · rename_i hk'
        have hocc' := (h.bit_iff U ix).mpr (lane_ne_nil.mp (mt hopen.mpr hk'))
        constructor
        · exact .inl
        · rintro (hbit | rfl)
          · exact hbit
          · exact hocc'
    · rw [Function.update_of_ne hU, hoccU U hU, eq_opposite_of_ne hU, hob]
      exact h.bit_iff _ i
  · intro U
    change First U u.n (u.Occupied _) 0 (u.top U)
    rw [hk.n]
    by_cases hU : U = T
    · subst hU
      rw [Function.update_self, htop]
      refine First.congr ?_ fun i => (hocc i).symm
      have hfirst := h.top_first U
      by_cases hbetter : rank U b.n ix < rank U b.n (b.top U)
      · have hempty : (b.levels ix).tail = kNil := by
          rw [hopen, lane_eq_nil]
          intro ho
          have := hfirst.least ix ho hrank
          omega
        rw [if_pos ⟨hempty, hbetter⟩]
        refine ⟨?_, .inr ⟨ix, rfl, .inr rfl, hrank⟩⟩
        rintro k (hk' | rfl) h0
        · have := hfirst.least k hk' h0
          exact le_trans hbetter.le this
        · exact le_rfl
      · rw [if_neg (fun hc => hbetter hc.2)]
        refine ⟨?_, ?_⟩
        · rintro k (hk' | rfl) h0
          · exact hfirst.least k hk' h0
          · exact not_lt.mp hbetter
        · refine hfirst.found.imp_right ?_
          rintro ⟨j, hj, ho, h0⟩
          exact ⟨j, hj, .inl ho, h0⟩
    · rw [Function.update_of_ne hU]
      have := (h.top_first U).congr fun i => (hoccU U hU i).symm
      rw [eq_opposite_of_ne hU] at this ⊢
      rw [hot]
      exact this
  · intro U
    change List.Pairwise (fun s t => ahead U (u.store.level s) (u.store.level t) = true) _
    by_cases hU : U = T
    · subst hU
      rw [Function.update_self]
      have hp' := h.sorted U
      rw [hL] at hp'
      obtain ⟨h1, h2, h3⟩ := List.pairwise_append.mp hp'
      have hl : ∀ t ∈ p, u.store.level t = b.store.level t :=
        fun t ht => hlevel t (ne_of_mem_of_not_mem ht hpr.1)
      have hl' : ∀ t ∈ r, u.store.level t = b.store.level t :=
        fun t ht => hlevel t (ne_of_mem_of_not_mem ht hpr.2)
      refine List.pairwise_append.mpr ⟨?_, List.pairwise_cons.mpr ⟨?_, ?_⟩, ?_⟩
      · exact h1.imp_of_mem fun ha hb' hab => by rwa [hl _ ha, hl _ hb']
      · intro t ht
        rw [hlevel_s, hl' t ht, ahead_iff b.n]
        have := hr t ht
        rw [← Bool.not_eq_true, ahead_iff b.n] at this
        omega
      · exact h2.imp_of_mem fun ha hb' hab => by rwa [hl' _ ha, hl' _ hb']
      · intro t ht v hv
        rcases List.mem_cons.mp hv with rfl | hv
        · rw [hl t ht, hlevel_s]
          exact hp t ht
        · rw [hl t ht, hl' v hv]
          exact h3 t ht v hv
    · rw [Function.update_of_ne hU]
      exact (h.sorted U).imp_of_mem fun ha hb' hab => by
        rwa [hlevel _ (hne U _ ha), hlevel _ (hne U _ hb')]
  · intro U t ht
    change u.store.side t = U ∧ u.store.qty t ≠ 0
    simp only [FreeListStore.side, FreeListStore.qty, hrec]
    rcases hmem U t ht with ⟨rfl, rfl⟩ | htL
    · simp [hq]
    · simp only [if_neg (hne U t htL)]
      exact h.filed U t htL
  · intro t ht v hv
    change u.store.level t < u.store.level v
    rcases hmem _ t ht with ⟨rfl, rfl⟩ | htL
    · rcases hmem _ v hv with ⟨_, hT⟩ | hvL
      · cases hT
      · rw [hlevel_s, hlevel v (hne _ v hvL)]
        have := hfar v hvL
        simp [inRange] at this
        omega
    · rcases hmem _ v hv with ⟨rfl, rfl⟩ | hvL
      · rw [hlevel_s, hlevel t (hne _ t htL)]
        have := hfar t htL
        simp [inRange] at this
        omega
      · rw [hlevel t (hne _ t htL), hlevel v (hne _ v hvL)]
        exact h.apart t htL v hvL
  · intro U i hempty
    change u.lane _ i = [] at hempty
    change Fifo.Queue kNil u.store.next u.store.prev (u.levels i).head
      (u.levels i).tail (u.lane _ i) ∧
      (u.levels i).qty = ((u.lane _ i).map u.store.qty).sum
    have hprev : u.store.prev = Function.update b.store.prev s (b.levels ix).tail := by
      funext t
      simp only [FreeListStore.prev, hrec]
      rfl
    have hqty : ∀ t, t ≠ s → u.store.qty t = b.store.qty t := by
      intro t hts
      simp only [FreeListStore.qty, hrec, if_neg hts]
      rfl
    have hqty_s : u.store.qty s = qty := by simp only [FreeListStore.qty, hrec, if_true]
    by_cases hi : i = ix
    · subst hi
      have hU : U = T := by
        by_contra hU
        rw [eq_opposite_of_ne hU, opposite_opposite, Function.update_self, hlane_ix] at hempty
        simp at hempty
      subst hU
      rw [Function.update_self, hlane_ix, hlv, Function.update_self, hnext, hprev]
      refine ⟨hqueue.push (fun hm => hout U (mem_lane.mp hm).1) hsnil (h.lane_nodup U i), ?_⟩
      have hm := sum_middle u.store.qty (b.lane (L U) i) [] s
      rw [List.append_nil, hqty_s] at hm
      have hmap : (b.lane (L U) i).map u.store.qty = (b.lane (L U) i).map b.store.qty :=
        List.map_congr_left fun t ht => hqty t (hne U t (mem_lane.mp ht).1)
      rw [hmap, ← hsum] at hm
      change (b.levels i).qty + qty = _
      grind
    · have hl : ∀ V, u.lane (Function.update L T (p ++ s :: r) V) i = b.lane (L V) i := by
        intro V
        by_cases hV : V = T
        · subst hV
          rw [Function.update_self, hlane_ne i hi]
        · rw [Function.update_of_ne hV, hlane _ _ (hout V)]
      rw [hl] at hempty ⊢
      obtain ⟨hq', hs'⟩ := h.queue U i hempty
      rw [hlv, Function.update_of_ne hi]
      refine ⟨hq'.congr ?_ ?_, ?_⟩
      · intro t ht
        obtain ⟨htL, hti⟩ := mem_lane.mp ht
        rw [hnext]
        split
        · rw [Function.update_of_ne (hne U t htL)]
        · rename_i hk'
          rw [Function.update_of_ne, Function.update_of_ne (hne U t htL)]
          rintro rfl
          exact hi (hti.symm.trans (mem_lane.mp (htail hk')).2)
      · intro t ht
        rw [hprev, Function.update_of_ne (hne U t (mem_lane.mp ht).1)]
      · exact hs'.trans (congrArg List.sum
          (List.map_congr_left fun t ht => (hqty t (hne U t (mem_lane.mp ht).1)).symm))
  · change List.Perm _ (List.range u.store.cap)
    rw [hk.cap]
    refine List.Perm.trans ?_ h.pool
    rw [List.perm_iff_count]
    intro a
    cases T <;> simp [Function.update, hL, List.count_append, List.count_cons] <;> omega
  · change Fifo.Seg kNil u.store.next u.store.free f kNil
    rw [hfree']
    refine Fifo.Seg.congr ?_ hseg
    intro t ht
    have hts : t ≠ s := by
      rintro rfl
      have := (List.nodup_append.mp h.pool_nodup).2.1
      exact (List.nodup_cons.mp this).1 ht
    rw [hnext]
    split
    · rw [Function.update_of_ne hts]
    · rename_i hk'
      rw [Function.update_of_ne, Function.update_of_ne hts]
      rintro rfl
      exact h.not_free (mem_lane.mp (htail hk')).1 (List.mem_cons_of_mem _ ht)
  · change u.store.live = _
    rw [hlive]
    change b.store.live + 1 = _
    rw [h.live_eq]
    cases T <;> simp [Function.update, hL] <;> omega
  · change u.store.cap < kNil
    rw [hk.cap]
    exact h.cap_lt
  · change ids'.Ok u.store.cap
    rw [hk.cap]
    exact hok
  · change ids'.size = u.store.live
    rw [hlive, hsize, h.ids_size]
  · intro e
    change ids'.Holds e ↔ ∃ U, ∃ t ∈ _, e = ⟨ids'.hash.fingerprint (u.store.id t) ids'.bits, t⟩
    rw [hholds, h.ids_holds, hhash, hbits]
    constructor
    · rintro (rfl | ⟨U, t, ht, rfl⟩)
      · exact ⟨T, s, by simp, by rw [hid_s]⟩
      · refine ⟨U, t, ?_, by rw [hid_ne t (hne U t ht)]⟩
        by_cases hU : U = T
        · subst hU
          rw [Function.update_self]
          rw [hL] at ht
          simp only [List.mem_append, List.mem_cons] at ht ⊢
          tauto
        · rwa [Function.update_of_ne hU]
    · rintro ⟨U, t, ht, rfl⟩
      rcases hmem U t ht with ⟨rfl, rfl⟩ | htL
      · left
        rw [hid_s]
      · exact .inr ⟨U, t, htL, by rw [hid_ne t (hne U t htL)]⟩
  · intro U V t ht v hv he
    change u.store.id t = u.store.id v at he
    rcases hmem U t ht with ⟨rfl, rfl⟩ | htL
    · rcases hmem V v hv with ⟨rfl, rfl⟩ | hvL
      · rfl
      · rw [hid_s, hid_ne v (hne V v hvL)] at he
        exact absurd he.symm (hid V v hvL)
    · rcases hmem V v hv with ⟨rfl, rfl⟩ | hvL
      · rw [hid_s, hid_ne t (hne U t htL)] at he
        exact absurd he (hid U t htL)
      · rw [hid_ne t (hne U t htL), hid_ne v (hne V v hvL)] at he
        exact h.ids_inj U V t htL v hvL he

theorem Rep.find (h : Rep b L free) (id : OrderId) :
    (b.ids.find id b.store.id = some kNil ∧ ∀ U, ∀ t ∈ L U, b.store.id t ≠ id) ∨
      ∃ T, ∃ s ∈ L T, b.ids.find id b.store.id = some s ∧ b.store.id s = id := by
  obtain ⟨v, hv, hnone, hsome⟩ := OrderIndex.find_spec h.ids_ok id b.store.id
  by_cases hk : v = kNil
  · subst hk
    refine .inl ⟨hv, fun U t ht he => ?_⟩
    exact hnone rfl _ ((h.ids_holds _).mpr ⟨U, t, ht, rfl⟩) (by rw [he]) he
  · obtain ⟨hheld, hid⟩ := hsome hk
    obtain ⟨T, s, hs, he⟩ := (h.ids_holds _).mp hheld
    have hvs : v = s := congrArg IndexSlot.value he
    subst hvs
    exact .inr ⟨T, v, hs, hv, hid⟩

theorem Rep.erase (h : Rep b L free) (id : OrderId) :
    (b.ids.erase id b.store.id = some (kNil, b.ids) ∧ ∀ U, ∀ t ∈ L U, b.store.id t ≠ id) ∨
      ∃ T, ∃ s ∈ L T, ∃ ids', b.ids.erase id b.store.id = some (s, ids') ∧ b.store.id s = id ∧
        Erases b.store.cap s b.ids ids' := by
  obtain ⟨v, y, hrun, hfind, hok, hhash, _, hbits, hsame, hsize, hholds⟩ :=
    OrderIndex.erase_spec h.ids_ok id b.store.id
  rcases h.find id with ⟨hf, hnone⟩ | ⟨T, s, hs, hf, hid⟩
  · rw [hfind] at hf
    obtain rfl := Option.some.inj hf
    rw [hsame rfl] at hrun
    exact .inl ⟨hrun, hnone⟩
  · rw [hfind] at hf
    obtain rfl := Option.some.inj hf
    exact .inr ⟨T, v, hs, y, hrun, hid, ⟨hok, hsize (h.slot_ne_nil hs), hhash, hbits, hholds⟩⟩

theorem rep_make (hash : IndexHash) (symbol : SymbolId) {cfg : BookConfig} (ok : cfg.Accepted) :
    Rep (make hash symbol cfg : OrderBook σ) (fun _ => []) (List.range cfg.maxOrders) := by
  obtain ⟨hfree, hlive, hcap⟩ := FreeListStore.free_make (σ := σ) cfg.maxOrders ok.orders_lt.le
  have hocc : ∀ i, ¬ (make hash symbol cfg : OrderBook σ).Occupied [] i := by
    rintro i ⟨s, hs, _⟩
    cases hs
  have hidok := OrderIndex.ok_make hash ok.orders_lt
  constructor
  · intro T
    cases T <;> exact PriceBitmap.ok_make _ (Nat.pos_of_ne_zero ok.levels_pos) ok.levels_aligned
  · intro T
    cases T <;> rfl
  · intro T i
    simp only [hocc, iff_false]
    cases T <;> simp [make, bitsOf, PriceBitmap.make, PriceBitmap.bitAt]
  · intro T
    refine ⟨fun k hk => absurd hk (hocc k), .inl ?_⟩
    cases T <;> simp [make, top, best, opposite, rank]
  · intro T
    exact List.Pairwise.nil
  · intro T s hs
    cases hs
  · intro s hs
    cases hs
  · intro T i _
    exact ⟨Fifo.queue_empty, rfl⟩
  · change List.Perm _ (List.range (FreeListStore.make cfg.maxOrders : FreeListStore σ).cap)
    rw [hcap]
    exact List.Perm.refl _
  · exact hfree
  · exact hlive
  · change (FreeListStore.make cfg.maxOrders : FreeListStore σ).cap < kNil
    rw [hcap]
    exact ok.orders_lt
  · change (OrderIndex.make hash cfg.maxOrders).Ok
      (FreeListStore.make cfg.maxOrders : FreeListStore σ).cap
    rw [hcap]
    exact hidok
  · change 0 = (FreeListStore.make cfg.maxOrders : FreeListStore σ).live
    rw [hlive]
  · intro e
    constructor
    · rintro ⟨i, _, hv⟩
      simp [make, OrderIndex.make, OrderIndex.view] at hv
    · rintro ⟨T, s, hs, _⟩
      cases hs
  · intro T U s hs
    cases hs

end Updates
end OrderBook
end ExchangeSim.Book
