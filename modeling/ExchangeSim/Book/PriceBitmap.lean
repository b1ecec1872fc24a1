/- digest: The two-level occupancy bitset over the price ladder is an ordered set of indices. -/

import ExchangeSim.Common
import Mathlib.Data.List.Find
import Mathlib.Data.Nat.Init
import Mathlib.Tactic.Linarith

set_option autoImplicit false
set_option relaxedAutoImplicit false

namespace ExchangeSim.Book

/-- Level 0 holds one bit per price level, the summary one bit per non-zero word. -/
structure PriceBitmap where
  n : Nat
  words : PageArray (BitVec 64)
  summary : PageArray (BitVec 64)

namespace PriceBitmap

/-- Position of the lowest set bit, 64 for the zero word. -/
def countrZero (w : BitVec 64) : Nat :=
  ((List.range 64).find? fun k => w.getLsbD k).getD 64

/-- Number of zero bits above the highest set bit, 64 for the zero word. -/
def countlZero (w : BitVec 64) : Nat :=
  ((List.range 64).find? fun k => w.getLsbD (63 - k)).getD 64

def bit (i : Nat) : BitVec 64 := 1#64 <<< (i &&& 63)

def make (n : Nat) : PriceBitmap := ⟨n, fun _ => 0, fun _ => 0⟩

/-- The constructor, which refuses a size that is no positive multiple of 64 up to 2^30. -/
def create (n : Nat) : Except String PriceBitmap :=
  if n = 0 ∨ n % 64 ≠ 0 ∨ 2 ^ 30 < n then
    .error "PriceBitmap: size must be a positive multiple of 64, at most 2^30"
  else .ok (make n)

def wordCount (b : PriceBitmap) : Nat := b.n / 64
def summaryCount (b : PriceBitmap) : Nat := (b.n / 64 + 63) / 64

def set (b : PriceBitmap) (u : Nat) : PriceBitmap :=
  { b with
    words := Function.update b.words (u >>> 6) (b.words (u >>> 6) ||| bit u)
    summary := Function.update b.summary (u >>> 12) (b.summary (u >>> 12) ||| bit (u >>> 6)) }

def clear (b : PriceBitmap) (u : Nat) : PriceBitmap :=
  let w := u >>> 6
  let words := Function.update b.words w (b.words w &&& ~~~ bit u)
  { b with
    words := words
    summary := if words w = 0 then
        Function.update b.summary (w >>> 6) (b.summary (w >>> 6) &&& ~~~ bit w)
      else b.summary }

def test (b : PriceBitmap) (u : Nat) : Bool := b.words (u >>> 6) &&& bit u != 0

/-- The first non-zero summary word among the `left` words from `s` on. -/
def scanUp (summary : PageArray (BitVec 64)) : Nat → Nat → Option Nat
  | 0, _ => none
  | left + 1, s => if summary s ≠ 0 then some s else scanUp summary left (s + 1)

/-- The last non-zero summary word below `s`. -/
def scanDown (summary : PageArray (BitVec 64)) : Nat → Option Nat
  | 0 => none
  | s + 1 => if summary s ≠ 0 then some s else scanDown summary s

/-- Smallest set index `≥ i`, or the size if there is none. -/
def findNext (b : PriceBitmap) (i : Int) : Int :=
  if (b.n : Int) ≤ i then b.n else
  let u := i.toNat
  let w := u >>> 6
  let m := b.words w &&& (BitVec.allOnes 64 <<< (u &&& 63))
  if m ≠ 0 then ((w <<< 6 ||| countrZero m : Nat) : Int) else
  let w := w + 1
  if b.wordCount ≤ w then b.n else
  let s := w >>> 6
  let sm := b.summary s &&& (BitVec.allOnes 64 <<< (w &&& 63))
  let pick (s : Nat) (sm : BitVec 64) : Int :=
    let w := s <<< 6 ||| countrZero sm
    ((w <<< 6 ||| countrZero (b.words w) : Nat) : Int)
  if sm ≠ 0 then pick s sm else
  match scanUp b.summary (b.summaryCount - (s + 1)) (s + 1) with
  | none => b.n
  | some s => pick s (b.summary s)

/-- Largest set index `≤ i`, or -1 if there is none. -/
def findPrev (b : PriceBitmap) (i : Int) : Int :=
  if i < 0 then -1 else
  let u := (if (b.n : Int) ≤ i then (b.n : Int) - 1 else i).toNat
  let w := u >>> 6
  let m := b.words w &&& (BitVec.allOnes 64 >>> (63 - (u &&& 63)))
  if m ≠ 0 then ((w <<< 6 ||| (63 - countlZero m) : Nat) : Int) else
  if w = 0 then -1 else
  let w := w - 1
  let s := w >>> 6
  let sm := b.summary s &&& (BitVec.allOnes 64 >>> (63 - (w &&& 63)))
  let pick (s : Nat) (sm : BitVec 64) : Int :=
    let w := s <<< 6 ||| (63 - countlZero sm)
    ((w <<< 6 ||| (63 - countlZero (b.words w)) : Nat) : Int)
  if sm ≠ 0 then pick s sm else
  match scanDown b.summary s with
  | none => -1
  | some s => pick s (b.summary s)

/-- Bit `i` of a list of 64-bit words. -/
def bitAt (a : PageArray (BitVec 64)) (i : Nat) : Bool := (a (i / 64)).getLsbD (i % 64)

structure Ok (b : PriceBitmap) : Prop where
  pos : 0 < b.n
  aligned : b.n % 64 = 0
  inside : ∀ i, bitAt b.words i = true → i < b.n
  summary_iff : ∀ w, bitAt b.summary w = true ↔ b.words w ≠ 0

private theorem shiftRight_six (u : Nat) : u >>> 6 = u / 64 := by
  rw [Nat.shiftRight_eq_div_pow]

private theorem and_63 (u : Nat) : u &&& 63 = u % 64 :=
  Nat.and_two_pow_sub_one_eq_mod u 6

private theorem join_six (w c : Nat) (hc : c < 64) : w <<< 6 ||| c = w * 64 + c := by
  rw [← Nat.shiftLeft_add_eq_or_of_lt (by simpa using hc), Nat.shiftLeft_eq]

private theorem getLsbD_bit (u k : Nat) (hk : k < 64) :
    (bit u).getLsbD k = decide (k = u % 64) := by
  have hu : u % 64 < 64 := Nat.mod_lt _ (by decide)
  rw [bit, and_63, BitVec.getLsbD_shiftLeft]
  by_cases h : k = u % 64
  · subst h
    simp [hk]
  · by_cases hlt : k < u % 64
    · simp [h, hlt]
    · have : k - u % 64 ≠ 0 := by omega
      simp [h, hlt, this]

private theorem ne_zero_iff_bit (w : BitVec 64) : w ≠ 0 ↔ ∃ k < 64, w.getLsbD k = true := by
  constructor
  · intro h
    by_contra hno
    push Not at hno
    apply h
    apply BitVec.eq_of_getLsbD_eq
    intro k hk
    simpa using hno k hk
  · rintro ⟨k, _, hk⟩ rfl
    simp at hk

@[simp] theorem test_eq (b : PriceBitmap) (u : Nat) : b.test u = bitAt b.words u := by
  have hu : u % 64 < 64 := Nat.mod_lt _ (by decide)
  rw [Bool.eq_iff_iff, test, bne_iff_ne, ne_zero_iff_bit, bitAt, shiftRight_six]
  constructor
  · rintro ⟨k, hk, hb⟩
    rw [BitVec.getLsbD_and, getLsbD_bit u k hk, Bool.and_eq_true, decide_eq_true_eq] at hb
    rw [← hb.2]
    exact hb.1
  · intro h
    exact ⟨u % 64, hu, by rw [BitVec.getLsbD_and, getLsbD_bit u _ hu, h]; simp⟩

private theorem countrZero_spec (w : BitVec 64) (hw : w ≠ 0) :
    countrZero w < 64 ∧ w.getLsbD (countrZero w) = true ∧
      ∀ k < countrZero w, w.getLsbD k = false := by
  obtain ⟨k, hk, hb⟩ := (ne_zero_iff_bit w).mp hw
  unfold countrZero
  cases hf : (List.range 64).find? fun k => w.getLsbD k with
  | none =>
      have := (List.find?_eq_none.mp hf) k (List.mem_range.mpr hk)
      exact absurd hb this
  | some c =>
      obtain ⟨hc, pre, post, heq, hpre⟩ := List.find?_eq_some_iff_append.mp hf
      have hlen : pre.length < 64 := by
        have := congrArg List.length heq
        simp at this
        omega
      have hidx : c = pre.length := by
        have hget := congrArg (fun l => l[pre.length]?) heq
        simpa [List.getElem?_range hlen] using hget.symm
      refine ⟨by simpa [hidx] using hlen, by simpa using hc, ?_⟩
      intro j hj
      simp only [Option.getD_some] at hj
      have hmem : j ∈ pre := by
        have hget := congrArg (fun l => l[j]?) heq
        rw [hidx] at hj
        simp only [List.getElem?_range (show j < 64 by omega)] at hget
        rw [List.getElem?_append_left hj] at hget
        exact List.mem_of_getElem? hget.symm
      simpa using hpre j hmem

private theorem countlZero_spec (w : BitVec 64) (hw : w ≠ 0) :
    countlZero w < 64 ∧ w.getLsbD (63 - countlZero w) = true ∧
      ∀ k, 63 - countlZero w < k → w.getLsbD k = false := by
  have hflip : ∀ k, (w.reverse).getLsbD k = (decide (k < 64) && w.getLsbD (63 - k)) := by
    intro k
    rw [BitVec.getLsbD_reverse, BitVec.getMsbD_eq_getLsbD]
  have hne : w.reverse ≠ 0 := by
    obtain ⟨k, hk, hb⟩ := (ne_zero_iff_bit w).mp hw
    refine (ne_zero_iff_bit _).mpr ⟨63 - k, by omega, ?_⟩
    rw [hflip, show 63 - (63 - k) = k by omega, hb]
    simp; omega
  have hsame : countlZero w = countrZero w.reverse := by
    unfold countlZero countrZero
    congr 1
    apply List.find?_congr
    intro k hk
    rw [hflip]
    simp [List.mem_range.mp hk]
  obtain ⟨hlt, hset, hmin⟩ := countrZero_spec _ hne
  rw [hsame]
  refine ⟨hlt, ?_, ?_⟩
  · rw [hflip] at hset
    simpa [hlt] using hset
  · intro k hk
    by_cases h64 : k < 64
    · have := hmin (63 - k) (by omega)
      rw [hflip, show 63 - (63 - k) = k by omega] at this
      simpa [show 63 - k < 64 by omega] using this
    · exact BitVec.getLsbD_of_ge w k (by omega)

theorem ok_make (n : Nat) (pos : 0 < n) (h : n % 64 = 0) : (make n).Ok where
  pos := pos
  aligned := h
  inside := by simp [make, bitAt]
  summary_iff := by simp [make, bitAt]

private theorem bitAt_update_or (a : PageArray (BitVec 64)) (u i : Nat) :
    bitAt (Function.update a (u >>> 6) (a (u >>> 6) ||| bit u)) i =
      (bitAt a i || decide (i = u)) := by
  have hi : i % 64 < 64 := Nat.mod_lt _ (by decide)
  rw [shiftRight_six]
  by_cases h : i / 64 = u / 64
  · have hiff : (i % 64 = u % 64) ↔ i = u := by omega
    simp only [bitAt, h, Function.update_self, BitVec.getLsbD_or, getLsbD_bit u _ hi, hiff]
  · have hne : i ≠ u := fun e => h (by rw [e])
    simp [bitAt, Function.update_of_ne h, hne]

private theorem bitAt_update_andNot (a : PageArray (BitVec 64)) (u i : Nat) :
    bitAt (Function.update a (u >>> 6) (a (u >>> 6) &&& ~~~ bit u)) i =
      (bitAt a i && decide (i ≠ u)) := by
  have hi : i % 64 < 64 := Nat.mod_lt _ (by decide)
  rw [shiftRight_six]
  by_cases h : i / 64 = u / 64
  · have hiff : (i % 64 = u % 64) ↔ i = u := by omega
    simp only [bitAt, h, Function.update_self, BitVec.getLsbD_and, BitVec.getLsbD_not,
      getLsbD_bit u _ hi, hiff, hi, decide_true, Bool.true_and, ne_eq, decide_not]
  · have hne : i ≠ u := fun e => h (by rw [e])
    simp [bitAt, Function.update_of_ne h, hne]

private theorem word_ne_zero_iff (a : PageArray (BitVec 64)) (w : Nat) :
    a w ≠ 0 ↔ ∃ k < 64, bitAt a (w * 64 + k) = true := by
  rw [ne_zero_iff_bit]
  constructor
  · rintro ⟨k, hk, h⟩
    exact ⟨k, hk, by rwa [bitAt, show (w * 64 + k) / 64 = w by omega,
      show (w * 64 + k) % 64 = k by omega]⟩
  · rintro ⟨k, hk, h⟩
    rw [bitAt, show (w * 64 + k) / 64 = w by omega, show (w * 64 + k) % 64 = k by omega] at h
    exact ⟨k, hk, h⟩

@[simp] theorem n_set (b : PriceBitmap) (u : Nat) : (b.set u).n = b.n := rfl
@[simp] theorem n_clear (b : PriceBitmap) (u : Nat) : (b.clear u).n = b.n := rfl

@[simp] theorem bitAt_set (b : PriceBitmap) (u i : Nat) :
    bitAt (b.set u).words i = (bitAt b.words i || decide (i = u)) :=
  bitAt_update_or b.words u i

@[simp] theorem bitAt_clear (b : PriceBitmap) (u i : Nat) :
    bitAt (b.clear u).words i = (bitAt b.words i && decide (i ≠ u)) :=
  bitAt_update_andNot b.words u i

theorem ok_set {b : PriceBitmap} (h : b.Ok) {u : Nat} (hu : u < b.n) : (b.set u).Ok where
  pos := h.pos
  aligned := h.aligned
  inside := by
    intro i hi
    rw [bitAt_set, Bool.or_eq_true, decide_eq_true_eq] at hi
    rcases hi with hi | rfl
    · exact h.inside i hi
    · exact hu
  summary_iff := by
    intro w
    have hsum : bitAt (b.set u).summary w = (bitAt b.summary w || decide (w = u / 64)) := by
      have := bitAt_update_or b.summary (u >>> 6) w
      rw [← Nat.shiftRight_add] at this
      rw [← shiftRight_six]
      exact this
    rw [hsum, Bool.or_eq_true, decide_eq_true_eq, h.summary_iff, word_ne_zero_iff, word_ne_zero_iff]
    constructor
    · rintro (⟨k, hk, hb⟩ | rfl)
      · exact ⟨k, hk, by simp [hb]⟩
      · exact ⟨u % 64, by omega, by simp [show u / 64 * 64 + u % 64 = u by omega]⟩
    · rintro ⟨k, hk, hb⟩
      rw [bitAt_set, Bool.or_eq_true, decide_eq_true_eq] at hb
      rcases hb with hb | hb
      · exact Or.inl ⟨k, hk, hb⟩
      · exact Or.inr (by omega)

theorem ok_clear {b : PriceBitmap} (h : b.Ok) (u : Nat) : (b.clear u).Ok where
  pos := h.pos
  aligned := h.aligned
  inside := by
    intro i hi
    rw [bitAt_clear, Bool.and_eq_true] at hi
    exact h.inside i hi.1
  summary_iff := by
    intro w
    have hother : w ≠ u / 64 → (b.clear u).words w = b.words w := by
      intro hw
      simp only [clear, shiftRight_six]
      exact Function.update_of_ne hw _ _
    by_cases hz : (b.clear u).words (u / 64) = 0
    · have hsum : bitAt (b.clear u).summary w = (bitAt b.summary w && decide (w ≠ u / 64)) := by
        have hz' := hz
        simp only [clear, shiftRight_six] at hz'
        have := bitAt_update_andNot b.summary (u / 64) w
        simp only [clear, shiftRight_six, hz', if_true]
        simpa only [shiftRight_six] using this
      rw [hsum, Bool.and_eq_true, decide_eq_true_eq, h.summary_iff]
      by_cases hw : w = u / 64
      · subst hw
        simp [hz]
      · rw [hother hw]
        simp [hw]
    · have hsum : (b.clear u).summary = b.summary := by
        simp only [clear, shiftRight_six] at hz ⊢
        exact if_neg hz
      rw [hsum, h.summary_iff]
      by_cases hw : w = u / 64
      · subst hw
        simp only [hz, ne_eq, not_false_eq_true, iff_true]
        -- a word that is still non-zero after clearing a bit was non-zero before
        obtain ⟨k, hk, hb⟩ := (word_ne_zero_iff _ _).mp hz
        rw [bitAt_clear, Bool.and_eq_true] at hb
        exact (word_ne_zero_iff _ _).mpr ⟨k, hk, hb.1⟩
      · rw [hother hw]

private theorem getLsbD_from (w : BitVec 64) (k j : Nat) :
    (w &&& (BitVec.allOnes 64 <<< k)).getLsbD j = (w.getLsbD j && decide (k ≤ j)) := by
  by_cases hj : j < 64
  · rw [BitVec.getLsbD_and, BitVec.getLsbD_shiftLeft, BitVec.getLsbD_allOnes]
    by_cases hk : k ≤ j
    · simp [hj, hk, show ¬ j < k by omega, show j - k < 64 by omega]
    · simp [hk, show j < k by omega]
  · rw [BitVec.getLsbD_of_ge _ j (by omega), BitVec.getLsbD_of_ge _ j (by omega)]
    rfl

private theorem getLsbD_upto (w : BitVec 64) (k j : Nat) (hk : k < 64) :
    (w &&& (BitVec.allOnes 64 >>> (63 - k))).getLsbD j = (w.getLsbD j && decide (j ≤ k)) := by
  rw [BitVec.getLsbD_and, BitVec.getLsbD_ushiftRight, BitVec.getLsbD_allOnes]
  congr 1
  rw [decide_eq_decide]
  omega

private theorem scanUp_spec (a : PageArray (BitVec 64)) (left s : Nat) :
    match scanUp a left s with
    | none => ∀ t, s ≤ t → t < s + left → a t = 0
    | some r => s ≤ r ∧ r < s + left ∧ a r ≠ 0 ∧ ∀ t, s ≤ t → t < r → a t = 0 := by
  induction left generalizing s with
  | zero =>
      simp only [scanUp]
      omega
  | succ left ih =>
      rw [scanUp]
      split_ifs with h
      · exact ⟨le_rfl, by omega, h, by omega⟩
      · have hz : a s = 0 := by simpa using h
        have rest := ih (s + 1)
        cases hs : scanUp a left (s + 1) with
        | none =>
            rw [hs] at rest
            intro t ht hlt
            rcases Nat.eq_or_lt_of_le ht with rfl | ht
            · exact hz
            · exact rest t ht (by omega)
        | some r =>
            rw [hs] at rest
            obtain ⟨hr, hlt, hne, hmin⟩ := rest
            refine ⟨by omega, by omega, hne, ?_⟩
            intro t ht htr
            rcases Nat.eq_or_lt_of_le ht with rfl | ht
            · exact hz
            · exact hmin t ht htr

private theorem scanDown_spec (a : PageArray (BitVec 64)) (s : Nat) :
    match scanDown a s with
    | none => ∀ t < s, a t = 0
    | some r => r < s ∧ a r ≠ 0 ∧ ∀ t, r < t → t < s → a t = 0 := by
  induction s with
  | zero =>
      simp only [scanDown]
      omega
  | succ s ih =>
      rw [scanDown]
      split_ifs with h
      · exact ⟨by omega, h, by omega⟩
      · have hz : a s = 0 := by simpa using h
        cases hs : scanDown a s with
        | none =>
            rw [hs] at ih
            intro t ht
            rcases Nat.lt_succ_iff_lt_or_eq.mp ht with ht | rfl
            · exact ih t ht
            · exact hz
        | some r =>
            rw [hs] at ih
            obtain ⟨hr, hne, hmax⟩ := ih
            refine ⟨by omega, hne, ?_⟩
            intro t hrt ht
            rcases Nat.lt_succ_iff_lt_or_eq.mp ht with ht | rfl
            · exact hmax t hrt ht
            · exact hz

/-- The least set bit at or above a position, when the part of its word from there on
is not zero. -/
private theorem first_in_word (a : PageArray (BitVec 64)) (w k : Nat)
    (hm : a w &&& (BitVec.allOnes 64 <<< k) ≠ 0) :
    let c := countrZero (a w &&& (BitVec.allOnes 64 <<< k))
    c < 64 ∧ k ≤ c ∧ bitAt a (w * 64 + c) = true ∧
      ∀ j, w * 64 + k ≤ j → j < w * 64 + c → bitAt a j = false := by
  obtain ⟨hlt, hset, hmin⟩ := countrZero_spec _ hm
  generalize countrZero (a w &&& (BitVec.allOnes 64 <<< k)) = c at hlt hset hmin
  rw [getLsbD_from, Bool.and_eq_true, decide_eq_true_eq] at hset
  refine ⟨hlt, hset.2, ?_, ?_⟩
  · rw [bitAt, show (w * 64 + c) / 64 = w by omega, show (w * 64 + c) % 64 = c by omega]
    exact hset.1
  · intro j hj hjc
    have := hmin (j - w * 64) (by omega)
    rw [getLsbD_from, Bool.and_eq_false_iff] at this
    rw [bitAt, show j / 64 = w by omega, show j % 64 = j - w * 64 by omega]
    exact this.resolve_right (by simp; omega)

private theorem last_in_word (a : PageArray (BitVec 64)) (w k : Nat) (hk : k < 64)
    (hm : a w &&& (BitVec.allOnes 64 >>> (63 - k)) ≠ 0) :
    let c := 63 - countlZero (a w &&& (BitVec.allOnes 64 >>> (63 - k)))
    c < 64 ∧ c ≤ k ∧ bitAt a (w * 64 + c) = true ∧
      ∀ j, w * 64 + c < j → j ≤ w * 64 + k → bitAt a j = false := by
  obtain ⟨_, hset, hmax⟩ := countlZero_spec _ hm
  generalize hc : 63 - countlZero (a w &&& (BitVec.allOnes 64 >>> (63 - k))) = c at hset hmax
  rw [getLsbD_upto _ _ _ hk, Bool.and_eq_true, decide_eq_true_eq] at hset
  refine ⟨by omega, hset.2, ?_, ?_⟩
  · rw [bitAt, show (w * 64 + c) / 64 = w by omega, show (w * 64 + c) % 64 = c by omega]
    exact hset.1
  · intro j hj hjk
    have := hmax (j - w * 64) (by omega)
    rw [getLsbD_upto _ _ _ hk, Bool.and_eq_false_iff] at this
    rw [bitAt, show j / 64 = w by omega, show j % 64 = j - w * 64 by omega]
    exact this.resolve_right (by simp; omega)

private theorem clear_from (a : PageArray (BitVec 64)) (w k : Nat)
    (hm : a w &&& (BitVec.allOnes 64 <<< k) = 0) (j : Nat) (hj : w * 64 + k ≤ j)
    (hjw : j < (w + 1) * 64) : bitAt a j = false := by
  have h := congrArg (fun v => v.getLsbD (j - w * 64)) hm
  simp only [getLsbD_from] at h
  rw [bitAt, show j / 64 = w by omega, show j % 64 = j - w * 64 by omega]
  simpa [show k ≤ j - w * 64 by omega] using h

private theorem clear_upto (a : PageArray (BitVec 64)) (w k : Nat) (hk : k < 64)
    (hm : a w &&& (BitVec.allOnes 64 >>> (63 - k)) = 0) (j : Nat) (hj : w * 64 ≤ j)
    (hjk : j ≤ w * 64 + k) : bitAt a j = false := by
  have h := congrArg (fun v => v.getLsbD (j - w * 64)) hm
  simp only [getLsbD_upto _ _ _ hk] at h
  rw [bitAt, show j / 64 = w by omega, show j % 64 = j - w * 64 by omega]
  simpa [show j - w * 64 ≤ k by omega] using h

private theorem clear_word {a : PageArray (BitVec 64)} {j : Nat} (h : a (j / 64) = 0) :
    bitAt a j = false := by
  simp [bitAt, h]

/-- `r` is the least member at or above `i`, or the size if there is none. -/
def IsNext (b : PriceBitmap) (i r : Int) : Prop :=
  (r = b.n ∧ ∀ k : Nat, i ≤ k → bitAt b.words k = false) ∨
    ∃ j : Nat, r = j ∧ bitAt b.words j = true ∧ i ≤ j ∧
      ∀ k : Nat, i ≤ k → k < j → bitAt b.words k = false

/-- `r` is the greatest member at or below `i`, or -1 if there is none. -/
def IsPrev (b : PriceBitmap) (i r : Int) : Prop :=
  (r = -1 ∧ ∀ k : Nat, (k : Int) ≤ i → bitAt b.words k = false) ∨
    ∃ j : Nat, r = j ∧ bitAt b.words j = true ∧ (j : Int) ≤ i ∧
      ∀ k : Nat, j < k → (k : Int) ≤ i → bitAt b.words k = false

private theorem lowest_of_word (b : PriceBitmap) (u w : Nat) (hw : b.words w ≠ 0)
    (hu : u ≤ w * 64) (hgap : ∀ k, u ≤ k → k < w * 64 → bitAt b.words k = false) :
    ∃ j : Nat, ((w <<< 6 ||| countrZero (b.words w) : Nat) : Int) = j ∧
      bitAt b.words j = true ∧ u ≤ j ∧ ∀ k, u ≤ k → k < j → bitAt b.words k = false := by
  have hmask : b.words w &&& (BitVec.allOnes 64 <<< 0) = b.words w := by
    rw [BitVec.shiftLeft_zero, BitVec.and_allOnes]
  obtain ⟨hlt, _, hset, hmin⟩ := first_in_word b.words w 0 (by rwa [hmask])
  rw [hmask] at hlt hset hmin
  refine ⟨w * 64 + countrZero (b.words w), by rw [join_six _ _ hlt], hset, by omega, ?_⟩
  intro k hk hkj
  by_cases h : k < w * 64
  · exact hgap k hk h
  · exact hmin k (by omega) hkj

private theorem highest_of_word (b : PriceBitmap) (u w : Nat) (hw : b.words w ≠ 0)
    (hu : w * 64 + 63 ≤ u) (hgap : ∀ k, w * 64 + 63 < k → k ≤ u → bitAt b.words k = false) :
    ∃ j : Nat, ((w <<< 6 ||| (63 - countlZero (b.words w)) : Nat) : Int) = j ∧
      bitAt b.words j = true ∧ j ≤ u ∧ ∀ k, j < k → k ≤ u → bitAt b.words k = false := by
  have hmask : b.words w &&& (BitVec.allOnes 64 >>> (63 - 63)) = b.words w := by
    rw [BitVec.ushiftRight_zero, BitVec.and_allOnes]
  obtain ⟨hlt, _, hset, hmax⟩ := last_in_word b.words w 63 (by omega) (by rwa [hmask])
  rw [hmask] at hlt hset hmax
  refine ⟨w * 64 + (63 - countlZero (b.words w)), by rw [join_six _ _ hlt], hset, by omega, ?_⟩
  intro k hk hkj
  by_cases h : w * 64 + 63 < k
  · exact hgap k h hkj
  · exact hmax k hk (by omega)

theorem Ok.word_zero {b : PriceBitmap} (h : b.Ok) {w : Nat} (hw : bitAt b.summary w = false) :
    b.words w = 0 := by
  by_contra hne
  rw [(h.summary_iff w).mpr hne] at hw
  cases hw

theorem findNext_spec {b : PriceBitmap} (h : b.Ok) (i : Int) : b.IsNext i (b.findNext i) := by
  have inside := h.inside
  have aligned := h.aligned
  have pos := h.pos
  unfold findNext
  split_ifs with hbig
  · left
    refine ⟨rfl, fun k hk => ?_⟩
    by_contra hb
    have := inside k (by simpa using hb)
    omega
  generalize hu : i.toNat = u
  have toNat_le (k : Nat) : i ≤ (k : Int) ↔ u ≤ k := by omega
  have hun : u < b.n := by omega
  simp only [IsNext, toNat_le, shiftRight_six, and_63, wordCount]
  split_ifs with hm hend hsm
  · right
    obtain ⟨hlt, hle, hset, hmin⟩ := first_in_word b.words (u / 64) (u % 64) hm
    refine ⟨_, by rw [join_six _ _ hlt], hset, by omega, ?_⟩
    intro k hk hkj
    exact hmin k (by omega) hkj
  all_goals
    have hword : ∀ j, u ≤ j → j < (u / 64 + 1) * 64 → bitAt b.words j = false := fun j hj =>
      clear_from b.words (u / 64) (u % 64) (by simpa using hm) j (by omega)
  · left
    refine ⟨rfl, fun k hk => ?_⟩
    by_cases hk' : k < (u / 64 + 1) * 64
    · exact hword k hk hk'
    · by_contra hb
      have := inside k (by simpa using hb)
      omega
  · right
    obtain ⟨hlt, hle, hset, hmin⟩ :=
      first_in_word b.summary ((u / 64 + 1) / 64) ((u / 64 + 1) % 64) hsm
    rw [join_six _ _ hlt]
    apply lowest_of_word b u _ ((h.summary_iff _).mp hset) (by omega)
    intro k hk hkw
    by_cases hk' : k < (u / 64 + 1) * 64
    · exact hword k hk hk'
    · exact clear_word (h.word_zero (hmin (k / 64) (by omega) (by omega)))
  · have hsummary : ∀ w, u / 64 + 1 ≤ w → w / 64 = (u / 64 + 1) / 64 → bitAt b.summary w = false :=
      fun w hw hs => clear_from b.summary ((u / 64 + 1) / 64) ((u / 64 + 1) % 64)
        (by simpa using hsm) w (by omega) (by omega)
    have hscan := scanUp_spec b.summary (b.summaryCount - ((u / 64 + 1) / 64 + 1))
      ((u / 64 + 1) / 64 + 1)
    cases hs : scanUp b.summary (b.summaryCount - ((u / 64 + 1) / 64 + 1))
        ((u / 64 + 1) / 64 + 1) with
    | none =>
        rw [hs] at hscan
        left
        refine ⟨rfl, fun k hk => ?_⟩
        by_cases hk' : k < (u / 64 + 1) * 64
        · exact hword k hk hk'
        · by_contra hb
          have hkn := inside k (by simpa using hb)
          apply hb
          apply clear_word (h.word_zero _)
          by_cases hsame : k / 64 / 64 = (u / 64 + 1) / 64
          · exact hsummary _ (by omega) hsame
          · apply clear_word
            apply hscan _ (by omega)
            unfold summaryCount
            omega
    | some s =>
        rw [hs] at hscan
        obtain ⟨hle, _, hne, hmin⟩ := hscan
        right
        have hmask : b.summary s &&& (BitVec.allOnes 64 <<< 0) = b.summary s := by
          rw [BitVec.shiftLeft_zero, BitVec.and_allOnes]
        obtain ⟨hlt, _, hset, hlow⟩ := first_in_word b.summary s 0 (by rwa [hmask])
        rw [hmask] at hlt hset hlow
        dsimp only
        rw [join_six _ _ hlt]
        apply lowest_of_word b u _ ((h.summary_iff _).mp hset) (by omega)
        intro k hk hkw
        by_cases hk' : k < (u / 64 + 1) * 64
        · exact hword k hk hk'
        · apply clear_word (h.word_zero _)
          by_cases hsame : k / 64 / 64 = (u / 64 + 1) / 64
          · exact hsummary _ (by omega) hsame
          · by_cases hbelow : k / 64 / 64 < s
            · exact clear_word (hmin _ (by omega) hbelow)
            · exact hlow _ (by omega) (by omega)

theorem findPrev_spec {b : PriceBitmap} (h : b.Ok) (i : Int) : b.IsPrev i (b.findPrev i) := by
  have inside := h.inside
  have pos := h.pos
  unfold findPrev
  by_cases hneg : i < 0
  · rw [if_pos hneg]
    left
    refine ⟨rfl, fun k hk => ?_⟩
    omega
  rw [if_neg hneg]
  generalize hu : (if (b.n : Int) ≤ i then (b.n : Int) - 1 else i).toNat = u
  have hun : u < b.n := by split_ifs at hu <;> omega
  have above : ∀ k : Nat, u < k → (k : Int) ≤ i → bitAt b.words k = false := by
    intro k hk hki
    by_contra hb
    have := inside k (by simpa using hb)
    split_ifs at hu <;> omega
  have hui : (u : Int) ≤ i := by split_ifs at hu <;> omega
  suffices hcore : ∀ r : Int, ((r = -1 ∧ ∀ k : Nat, k ≤ u → bitAt b.words k = false) ∨
      ∃ j : Nat, r = j ∧ bitAt b.words j = true ∧ j ≤ u ∧
        ∀ k : Nat, j < k → k ≤ u → bitAt b.words k = false) → b.IsPrev i r by
    apply hcore
    simp only [shiftRight_six, and_63]
    have hmod : u % 64 < 64 := Nat.mod_lt _ (by decide)
    split_ifs with hm hw0 hsm
    · right
      obtain ⟨hlt, hle, hset, hmax⟩ := last_in_word b.words (u / 64) (u % 64) hmod hm
      refine ⟨_, by rw [join_six _ _ hlt], hset, by omega, ?_⟩
      intro k hk hku
      exact hmax k hk (by omega)
    all_goals
      have hword : ∀ j, u / 64 * 64 ≤ j → j ≤ u → bitAt b.words j = false := fun j hj hju =>
        clear_upto b.words (u / 64) (u % 64) hmod (by simpa using hm) j hj (by omega)
    · left
      exact ⟨rfl, fun k hk => hword k (by omega) hk⟩
    · right
      have hmod' : (u / 64 - 1) % 64 < 64 := Nat.mod_lt _ (by decide)
      obtain ⟨hlt, hle, hset, hmax⟩ :=
        last_in_word b.summary ((u / 64 - 1) / 64) ((u / 64 - 1) % 64) hmod' hsm
      rw [join_six _ _ hlt]
      apply highest_of_word b u _ ((h.summary_iff _).mp hset) (by omega)
      intro k hk hku
      by_cases hk' : u / 64 * 64 ≤ k
      · exact hword k hk' hku
      · exact clear_word (h.word_zero (hmax (k / 64) (by omega) (by omega)))
    · have hmod' : (u / 64 - 1) % 64 < 64 := Nat.mod_lt _ (by decide)
      have hsummary : ∀ w, w ≤ u / 64 - 1 → w / 64 = (u / 64 - 1) / 64 →
          bitAt b.summary w = false :=
        fun w hw hs => clear_upto b.summary ((u / 64 - 1) / 64) ((u / 64 - 1) % 64) hmod'
          (by simpa using hsm) w (by omega) (by omega)
      have hscan := scanDown_spec b.summary ((u / 64 - 1) / 64)
      cases hs : scanDown b.summary ((u / 64 - 1) / 64) with
      | none =>
          rw [hs] at hscan
          left
          refine ⟨rfl, fun k hk => ?_⟩
          by_cases hk' : u / 64 * 64 ≤ k
          · exact hword k hk' hk
          · apply clear_word (h.word_zero _)
            by_cases hsame : k / 64 / 64 = (u / 64 - 1) / 64
            · exact hsummary _ (by omega) hsame
            · exact clear_word (hscan _ (by omega))
      | some s =>
          rw [hs] at hscan
          obtain ⟨hlt', hne, hmax⟩ := hscan
          right
          have hmask : b.summary s &&& (BitVec.allOnes 64 >>> (63 - 63)) = b.summary s := by
            rw [BitVec.ushiftRight_zero, BitVec.and_allOnes]
          obtain ⟨hlt, _, hset, hhigh⟩ := last_in_word b.summary s 63 (by omega) (by rwa [hmask])
          rw [hmask] at hlt hset hhigh
          dsimp only
          rw [join_six _ _ hlt]
          apply highest_of_word b u _ ((h.summary_iff _).mp hset) (by omega)
          intro k hk hku
          by_cases hk' : u / 64 * 64 ≤ k
          · exact hword k hk' hku
          · apply clear_word (h.word_zero _)
            by_cases hsame : k / 64 / 64 = (u / 64 - 1) / 64
            · exact hsummary _ (by omega) hsame
            · by_cases habove : s < k / 64 / 64
              · exact clear_word (hmax _ habove (by omega))
              · exact hhigh _ (by omega) (by omega)
  rintro r (⟨rfl, hnone⟩ | ⟨j, rfl, hset, hju, hmax⟩)
  · left
    refine ⟨rfl, fun k hk => ?_⟩
    by_cases hku : k ≤ u
    · exact hnone k hku
    · exact above k (by omega) hk
  · right
    refine ⟨j, rfl, hset, by omega, ?_⟩
    intro k hk hki
    by_cases hku : k ≤ u
    · exact hmax k hk hku
    · exact above k (by omega) hki

/-! ### Runs -/

/-- One change of the bitmap. -/
inductive Change where
  | set (i : Nat)
  | clear (i : Nat)
  deriving DecidableEq

namespace Change

def index : Change → Nat
  | set i => i
  | clear i => i

def apply (b : PriceBitmap) : Change → PriceBitmap
  | set i => b.set i
  | clear i => b.clear i

/-- The change on the set of indices that the bitmap stands for. -/
def applySet (s : Finset Nat) : Change → Finset Nat
  | set i => insert i s
  | clear i => s.erase i

end Change

structure Stands (b : PriceBitmap) (n : Nat) (s : Finset Nat) : Prop where
  ok : b.Ok
  size : b.n = n
  mem : ∀ i, bitAt b.words i = true ↔ i ∈ s

theorem stands_make {n : Nat} (pos : 0 < n) (aligned : n % 64 = 0) : (make n).Stands n ∅ where
  ok := ok_make n pos aligned
  size := rfl
  mem := by simp [make, bitAt]

variable {b : PriceBitmap} {n : Nat} {s : Finset Nat}

theorem Stands.apply (h : b.Stands n s) {op : Change} (inside : op.index < n) :
    (op.apply b).Stands n (op.applySet s) := by
  cases op with
  | set i =>
      refine ⟨ok_set h.ok (h.size ▸ inside), h.size, fun k => ?_⟩
      simp only [Change.apply, Change.applySet, bitAt_set, Bool.or_eq_true, decide_eq_true_eq,
        h.mem, Finset.mem_insert]
      exact or_comm
  | clear i =>
      refine ⟨ok_clear h.ok i, h.size, fun k => ?_⟩
      simp only [Change.apply, Change.applySet, bitAt_clear, Bool.and_eq_true, decide_eq_true_eq,
        h.mem, Finset.mem_erase]
      exact and_comm

theorem Stands.run (h : b.Stands n s) {ops : List Change} (inside : ∀ op ∈ ops, op.index < n) :
    (ops.foldl Change.apply b).Stands n (ops.foldl Change.applySet s) := by
  induction ops generalizing b s with
  | nil => exact h
  | cons op ops ih =>
      rw [List.forall_mem_cons] at inside
      exact ih (h.apply inside.1) inside.2

theorem Stands.absent (h : b.Stands n s) {k : Nat} (hk : bitAt b.words k = false) : k ∉ s := by
  intro hs
  rw [(h.mem k).mpr hs] at hk
  cases hk

theorem Stands.next (h : b.Stands n s) (i : Int) :
    (b.findNext i = n ∧ ∀ k ∈ s, ¬ i ≤ k) ∨ ∃ j : Nat, b.findNext i = j ∧
    IsLeast {k : Nat | k ∈ s ∧ i ≤ k} j := by
  rcases findNext_spec h.ok i with ⟨heq, hnone⟩ | ⟨j, heq, hset, hle, hmin⟩
  · left
    rw [heq, h.size]
    exact ⟨rfl, fun k hk hik => h.absent (hnone k hik) hk⟩
  · right
    refine ⟨j, heq, ⟨(h.mem j).mp hset, hle⟩, ?_⟩
    rintro k ⟨hk, hik⟩
    by_contra hlt
    exact h.absent (hmin k hik (not_le.mp hlt)) hk

theorem Stands.prev (h : b.Stands n s) (i : Int) :
    (b.findPrev i = -1 ∧ ∀ k ∈ s, ¬ (k : Int) ≤ i) ∨
      ∃ j : Nat, b.findPrev i = j ∧ IsGreatest {k : Nat | k ∈ s ∧ (k : Int) ≤ i} j := by
  rcases findPrev_spec h.ok i with ⟨heq, hnone⟩ | ⟨j, heq, hset, hle, hmax⟩
  · left
    exact ⟨heq, fun k hk hki => h.absent (hnone k hki) hk⟩
  · right
    refine ⟨j, heq, ⟨(h.mem j).mp hset, hle⟩, ?_⟩
    rintro k ⟨hk, hki⟩
    by_contra hlt
    exact h.absent (hmax k (not_le.mp hlt) hki) hk

/-- After any changes the bitmap answers every query as the ordered set of its members does. -/
theorem bitmap_is_ordered_set (n : Nat) (b : PriceBitmap) (created : create n = .ok b)
    (ops : List Change) (inside : ∀ op ∈ ops, op.index < n) :
    let b := ops.foldl Change.apply b
    let s := ops.foldl Change.applySet ∅
    (∀ w < b.wordCount, (b.summary (w / 64)).getLsbD (w % 64) = true ↔ b.words w ≠ 0) ∧
      (∀ i < n, b.test i = decide (i ∈ s)) ∧
      (∀ i : Int, (b.findNext i = n ∧ ∀ k ∈ s, ¬ i ≤ k) ∨
        ∃ j : Nat, b.findNext i = j ∧ IsLeast {k : Nat | k ∈ s ∧ i ≤ k} j) ∧
      ∀ i : Int, (b.findPrev i = -1 ∧ ∀ k ∈ s, ¬ (k : Int) ≤ i) ∨
        ∃ j : Nat, b.findPrev i = j ∧ IsGreatest {k : Nat | k ∈ s ∧ (k : Int) ≤ i} j := by
  intro b' s
  have hstands : b'.Stands n s := by
    rw [create] at created
    split at created
    · cases created
    · rename_i hsize
      cases created
      exact (stands_make (by omega) (by omega)).run inside
  refine ⟨fun w _ => hstands.ok.summary_iff w, fun i _ => ?_, hstands.next, hstands.prev⟩
  rw [test_eq, Bool.eq_iff_iff, hstands.mem, decide_eq_true_eq]

theorem bitmap_is_ordered_set_gap :
    let b := [Change.set 3, .set 4159, .set 4160, .clear 4159].foldl Change.apply (make 8192)
    b.findNext 4 = 4160 ∧ b.findPrev 4159 = 3 := by
  have h := bitmap_is_ordered_set 8192 (make 8192) rfl
    [.set 3, .set 4159, .set 4160, .clear 4159] (by decide)
  have hs : ∀ k, k ∈ [Change.set 3, .set 4159, .set 4160, .clear 4159].foldl Change.applySet ∅ ↔
      k = 3 ∨ k = 4160 := by
    intro k
    simp [Change.applySet]
    omega
  simp only [hs] at h
  refine ⟨?_, ?_⟩
  · rcases h.2.2.1 4 with ⟨_, hnone⟩ | ⟨j, hj, ⟨hmem, _⟩, _⟩
    · exact absurd (by decide) (hnone 4160 (.inr rfl))
    · omega
  · rcases h.2.2.2 4159 with ⟨_, hnone⟩ | ⟨j, hj, ⟨hmem, _⟩, _⟩
    · exact absurd (by decide) (hnone 3 (.inl rfl))
    · omega

end PriceBitmap
end ExchangeSim.Book
