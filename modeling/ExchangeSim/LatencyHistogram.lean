/- digest: The log-linear latency histogram: bucket arithmetic, the percentile scan and merging. -/

import ExchangeSim.Common
import ExchangeSim.Lib.LogLinear

set_option autoImplicit false
set_option relaxedAutoImplicit false

namespace ExchangeSim

open ExchangeSim.Lib

structure LatencyHistogram where
  counts : PageArray UInt64 := fun _ => 0
  count : UInt64 := 0
  sum : UInt64 := 0
  min : UInt64 := 0xFFFFFFFFFFFFFFFF
  max : UInt64 := 0

namespace LatencyHistogram

def kSubBits : Nat := 5
def kSub : Nat := 1 <<< kSubBits
def kBuckets : Nat := (64 - kSubBits + 1) * kSub

def index (v : UInt64) : Nat :=
  if v.toNat < kSub then v.toNat
  else
    let msb := 63 - v.toBitVec.clz.toNat
    let shift := msb - kSubBits
    (shift + 1) * kSub + (v >>> UInt64.ofNat shift).toUInt32.toNat - kSub

/-- In the last bucket the shift leaves nothing and the subtraction wraps round to the greatest
value. -/
def upperBound (idx : Nat) : UInt64 :=
  if idx < kSub then UInt64.ofNat idx
  else
    let shift := idx / kSub - 1
    let sub := UInt64.ofNat (idx % kSub + kSub)
    ((sub + 1) <<< UInt64.ofNat shift) - 1

def record (h : LatencyHistogram) (v : UInt64) : LatencyHistogram where
  counts := Function.update h.counts (index v) (h.counts (index v) + 1)
  count := h.count + 1
  sum := h.sum + v
  min := Min.min h.min v
  max := Max.max h.max v

/-- The loop of `percentile` from bucket `i` on, with `left` buckets to go. -/
def scanFrom (h : LatencyHistogram) (rank : UInt64) : Nat → Nat → UInt64 → UInt64
  | 0, _, _ => h.max
  | left + 1, i, cum =>
      let cum := cum + h.counts i
      if cum ≥ rank then Min.min (upperBound i) h.max else scanFrom h rank left (i + 1) cum

/-- The value that `percentile` returns once it has turned its argument into a rank. -/
def atRank (h : LatencyHistogram) (rank : UInt64) : UInt64 :=
  if h.count = 0 then 0 else h.scanFrom rank kBuckets 0 0

def merge (h o : LatencyHistogram) : LatencyHistogram where
  counts := fun i => if i < kBuckets then h.counts i + o.counts i else h.counts i
  count := h.count + o.count
  sum := h.sum + o.sum
  min := Min.min h.min o.min
  max := Max.max h.max o.max

/-- The histogram of the values of a list. -/
def ofList (values : List UInt64) : LatencyHistogram := values.foldl record {}

/-! ### Buckets -/

theorem kSub_eq : kSub = 2 ^ 5 := rfl

theorem index_eq (v : UInt64) : index v = LogLinear.bucket 5 v.toNat := by
  rw [index, LogLinear.bucket, kSub_eq]
  by_cases h : v.toNat < 2 ^ 5
  · rw [if_pos h, if_pos h]
  rw [if_neg h, if_neg h]
  have hne : v.toBitVec ≠ 0#64 := by
    intro h0
    apply h
    rw [← UInt64.toNat_toBitVec, h0]
    decide
  have hlow := BitVec.two_pow_sub_clz_le_toNat_of_ne_zero (by decide) hne
  have hhigh := BitVec.toNat_lt_two_pow_sub_clz (x := v.toBitVec)
  have hclz := BitVec.lt_def.mp (BitVec.clz_lt_iff_ne_zero.mpr hne)
  rw [UInt64.toNat_toBitVec] at hlow hhigh
  rw [show ((64 : Nat) : BitVec 64).toNat = 64 from rfl] at hclz
  have hlog : Nat.log2 v.toNat = 63 - v.toBitVec.clz.toNat := by
    rw [Nat.log2_eq_iff (by omega)]
    refine ⟨hlow, ?_⟩
    rwa [show 63 - v.toBitVec.clz.toNat + 1 = 64 - v.toBitVec.clz.toNat by omega]
  simp only [← hlog, show kSubBits = 5 from rfl]
  have hc := LogLinear.cell 5 (not_lt.mp h)
  have hlt : Nat.log2 v.toNat < 64 := by omega
  have hshift : (v >>> UInt64.ofNat (Nat.log2 v.toNat - 5)).toNat = v.toNat / 2 ^
      (Nat.log2 v.toNat - 5) := by
    rw [UInt64.toNat_shiftRight, UInt64.toNat_ofNat', Nat.shiftRight_eq_div_pow]
    congr 2
    omega
  have hhigh := hc.high
  rw [UInt64.toNat_toUInt32, hshift, Nat.mod_eq_of_lt (by omega)]
  rw [Nat.succ_mul]
  omega

theorem upperBound_eq {i : Nat} (h : i < kBuckets) :
    (upperBound i).toNat = LogLinear.upper 5 i := by
  have hi : i < 1920 := h
  rw [upperBound, LogLinear.upper, kSub_eq]
  by_cases hs : i < 2 ^ 5
  · rw [if_pos hs, if_pos hs, UInt64.toNat_ofNat', Nat.mod_eq_of_lt (by omega)]
  rw [if_neg hs, if_neg hs]
  have hshift : i / 2 ^ 5 - 1 ≤ 58 := by omega
  have hsub : (UInt64.ofNat (i % 2 ^ 5 + 2 ^ 5) + 1).toNat = i % 2 ^ 5 + 2 ^ 5 + 1 := by
    rw [UInt64.toNat_add, UInt64.toNat_ofNat']
    have : (1 : UInt64).toNat = 1 := rfl
    omega
  have hfit : (i % 2 ^ 5 + 2 ^ 5 + 1) * 2 ^ (i / 2 ^ 5 - 1) ≤ 2 ^ 64 := by
    calc (i % 2 ^ 5 + 2 ^ 5 + 1) * 2 ^ (i / 2 ^ 5 - 1) ≤ 2 ^ 6 * 2 ^ 58 :=
          Nat.mul_le_mul (by omega) (Nat.pow_le_pow_right (by decide) hshift)
      _ = 2 ^ 64 := by decide
  have hpos : 0 < (i % 2 ^ 5 + 2 ^ 5 + 1) * 2 ^ (i / 2 ^ 5 - 1) := by positivity
  rw [UInt64.toNat_sub, UInt64.toNat_shiftLeft, hsub, UInt64.toNat_ofNat', Nat.shiftLeft_eq,
    show (i / 2 ^ 5 - 1) % 2 ^ 64 % 64 = i / 2 ^ 5 - 1 by omega]
  generalize (i % 2 ^ 5 + 2 ^ 5 + 1) * 2 ^ (i / 2 ^ 5 - 1) = x at hfit hpos
  have : (1 : UInt64).toNat = 1 := rfl
  omega

theorem index_lt (v : UInt64) : index v < kBuckets := by
  rw [index_eq]
  exact LogLinear.bucket_lt 5 (by decide) v.toNat_lt

theorem index_mono {a b : UInt64} (h : a ≤ b) : index a ≤ index b := by
  rw [index_eq, index_eq]
  exact LogLinear.bucket_mono 5 h

theorem le_upperBound (v : UInt64) : v ≤ upperBound (index v) := by
  rw [UInt64.le_iff_toNat_le, upperBound_eq (index_lt v), index_eq]
  exact LogLinear.le_upper 5 v.toNat

theorem upperBound_le (v : UInt64) : (upperBound (index v)).toNat ≤ v.toNat + v.toNat / 32 := by
  rw [upperBound_eq (index_lt v), index_eq]
  exact LogLinear.upper_le 5 v.toNat

theorem upperBound_pred_lt {v : UInt64} (h : 0 < index v) : upperBound (index v - 1) < v := by
  have hlt := index_lt v
  rw [UInt64.lt_iff_toNat_lt, upperBound_eq (by omega)]
  rw [index_eq] at h ⊢
  exact LogLinear.upper_pred_lt 5 h

/-! ### Counts -/

theorem ofList_append (values : List UInt64) (v : UInt64) :
    ofList (values ++ [v]) = (ofList values).record v := by
  rw [ofList, ofList, List.foldl_append, List.foldl_cons, List.foldl_nil]

theorem counts_ofList (values : List UInt64) (i : Nat) :
    (ofList values).counts i = UInt64.ofNat (values.countP fun v => index v = i) := by
  induction values using List.reverseRecOn with
  | nil => rfl
  | append_singleton values v ih =>
      rw [ofList_append, record, List.countP_append, List.countP_singleton]
      by_cases h : i = index v
      · subst h
        simp [ih, UInt64.ofNat_add]
      · simp [Function.update_of_ne h, ih, Ne.symm h]

theorem count_ofList (values : List UInt64) :
    (ofList values).count = UInt64.ofNat values.length := by
  induction values using List.reverseRecOn with
  | nil => rfl
  | append_singleton values v ih =>
      rw [ofList_append, record, ih, List.length_append, UInt64.ofNat_add]
      rfl

theorem le_max_ofList {values : List UInt64} {v : UInt64} (h : v ∈ values) :
    v ≤ (ofList values).max := by
  induction values using List.reverseRecOn with
  | nil => cases h
  | append_singleton values w ih =>
      rw [ofList_append, record, UInt64.le_iff_toNat_le, UInt64.toNat_max]
      rcases List.mem_append.mp h with h | h
      · exact le_max_of_le_left (ih h)
      · rw [List.mem_singleton.mp h]
        exact le_max_right _ _

theorem countP_index_succ (values : List UInt64) (i : Nat) :
    values.countP (fun v => index v < i + 1) =
      values.countP (fun v => index v < i) + values.countP fun v => index v = i := by
  induction values with
  | nil => rfl
  | cons v values ih =>
      simp only [List.countP_cons, ih]
      rcases Nat.lt_trichotomy (index v) i with h | h | h
      · simp [h, h.ne, Nat.lt_succ_of_lt h]
        omega
      · simp [h]
        omega
      · simp [h.ne', show ¬ index v < i by omega, show ¬ index v < i + 1 by omega]

theorem scanFrom_eq {values : List UInt64} {rank : UInt64} {j : Nat}
    (small : values.length < 2 ^ 64) (before : values.countP (fun v => index v < j) < rank.toNat)
    (reached : rank.toNat ≤ values.countP fun v => index v < j + 1) (left i : Nat) (hi : i ≤ j)
      (hleft : j < i + left) :
    (ofList values).scanFrom rank left i (UInt64.ofNat (values.countP fun v => index v < i)) =
      Min.min (upperBound j) (ofList values).max := by
  induction left generalizing i with
  | zero => omega
  | succ left ih =>
      have hcum : UInt64.ofNat (values.countP fun v => index v < i) + (ofList values).counts i =
          UInt64.ofNat (values.countP fun v => index v < i + 1) := by
        rw [counts_ofList, ← UInt64.ofNat_add, countP_index_succ]
      have hval : (UInt64.ofNat (values.countP fun v => index v < i + 1)).toNat =
          values.countP fun v => index v < i + 1 := by
        rw [UInt64.toNat_ofNat', Nat.mod_eq_of_lt]
        exact lt_of_le_of_lt List.countP_le_length small
      rw [scanFrom]
      simp only [hcum]
      by_cases hij : i = j
      · subst hij
        rw [if_pos]
        rw [ge_iff_le, UInt64.le_iff_toNat_le, hval]
        exact reached
      · rw [if_neg]
        · exact ih (i + 1) (by omega) (by omega)
        · rw [ge_iff_le, UInt64.le_iff_toNat_le, hval, not_le]
          refine lt_of_le_of_lt (List.countP_mono_left fun v _ hv => ?_) before
          simp only [decide_eq_true_eq] at hv ⊢
          omega

/-- The values in increasing order. -/
def sorted (values : List UInt64) : List UInt64 := values.mergeSort fun a b => a ≤ b

theorem atRank_eq {values : List UInt64} (small : values.length < 2 ^ 64) {rank x : UInt64}
    (pos : 0 < rank.toNat) (hx : (sorted values)[rank.toNat - 1]? = some x) :
    (ofList values).atRank rank = Min.min (upperBound (index x)) (ofList values).max := by
  have hsorted : (sorted values).Pairwise fun a b => decide (a ≤ b) = true :=
    List.pairwise_mergeSort (by simp; exact fun a b c => UInt64.le_trans)
      (by simp; exact UInt64.le_total) values
  have hmono : ∀ a b : UInt64, decide (a ≤ b) = true → index a ≤ index b :=
    fun a b h => index_mono (of_decide_eq_true h)
  have hperm : (sorted values).Perm values := List.mergeSort_perm _ _
  have hlow := LogLinear.countP_lt_of_sorted hmono hsorted hx
  have hhigh := LogLinear.lt_countP_of_sorted hmono hsorted hx
  rw [hperm.countP_eq] at hlow hhigh
  have hlen : 0 < values.length := by
    have := (List.getElem?_eq_some_iff.mp hx).1
    rw [hperm.length_eq] at this
    omega
  have hcount : (ofList values).count ≠ 0 := by
    rw [count_ofList, Ne, ← UInt64.toNat_inj, UInt64.toNat_ofNat', Nat.mod_eq_of_lt small]
    exact hlen.ne'
  have hzero : (values.countP fun v => index v < 0) = 0 := by simp
  have hbefore : (values.countP fun v => index v < index x) < rank.toNat := by omega
  have hreached : rank.toNat ≤ values.countP fun v => index v < index x + 1 := by
    simp only [Nat.lt_succ_iff]
    omega
  have hin : index x < 0 + kBuckets := by
    have := index_lt x
    omega
  have hscan := scanFrom_eq small hbefore hreached kBuckets 0 (Nat.zero_le _) hin
  rw [hzero] at hscan
  rw [atRank, if_neg hcount]
  exact hscan

theorem min_assoc (a b c : UInt64) : Min.min a (Min.min b c) = Min.min (Min.min a b) c := by
  apply UInt64.toNat_inj.mp
  simp only [UInt64.toNat_min, Nat.min_assoc]

theorem max_assoc (a b c : UInt64) : Max.max a (Max.max b c) = Max.max (Max.max a b) c := by
  apply UInt64.toNat_inj.mp
  simp only [UInt64.toNat_max, Nat.max_assoc]

theorem merge_record (h o : LatencyHistogram) (v : UInt64) :
    h.merge (o.record v) = (h.merge o).record v := by
  rw [merge, record, record, merge, mk.injEq]
  refine ⟨?_, (UInt64.add_assoc _ _ _).symm, (UInt64.add_assoc _ _ _).symm, min_assoc _ _ _,
    max_assoc _ _ _⟩
  ext1 i
  by_cases hi : i = index v
  · subst hi
    simp [index_lt v, UInt64.add_assoc]
  · simp only [Function.update_of_ne hi]

theorem merge_empty (h : LatencyHistogram) : h.merge {} = h := by
  obtain ⟨counts, count, sum, least, greatest⟩ := h
  rw [merge, mk.injEq]
  refine ⟨?_, UInt64.add_zero _, UInt64.add_zero _, ?_, ?_⟩
  · ext1 i
    simp
  · apply UInt64.toNat_inj.mp
    have := least.toNat_lt
    rw [UInt64.toNat_min, Nat.min_eq_left]
    exact Nat.le_of_lt_succ this
  · apply UInt64.toNat_inj.mp
    rw [UInt64.toNat_max, Nat.max_eq_left]
    exact Nat.zero_le _

theorem merge_ofList (xs ys : List UInt64) : (ofList xs).merge (ofList ys) = ofList (xs ++ ys) := by
  induction ys using List.reverseRecOn with
  | nil =>
      rw [List.append_nil]
      exact merge_empty _
  | append_singleton ys v ih =>
      rw [ofList_append, merge_record, ih, ← List.append_assoc, ofList_append]

/-- Every rank is reported at its value or at most one part in 32 above it; the buckets tile the
64-bit values in order; merging is recording both lists. -/
theorem histogram_quantiles :
    (∀ (values : List UInt64) (rank : UInt64), values.length < 2 ^ 64 → 1 ≤ rank.toNat →
      rank.toNat ≤ values.length →
      ∃ x, (sorted values)[rank.toNat - 1]? = some x ∧ x ≤ (ofList values).atRank rank ∧
        ((ofList values).atRank rank).toNat ≤ x.toNat + x.toNat / 32) ∧
    (∀ a b : UInt64, a ≤ b → index a ≤ index b) ∧
    (∀ v : UInt64, index v < kBuckets ∧ (0 < index v → upperBound (index v - 1) < v) ∧
      v ≤ upperBound (index v)) ∧
    ∀ xs ys : List UInt64, (ofList xs).merge (ofList ys) = ofList (xs ++ ys) := by
  refine ⟨?_, fun a b => index_mono,
    fun v => ⟨index_lt v, upperBound_pred_lt, le_upperBound v⟩, merge_ofList⟩
  intro values rank small pos hrank
  have hlen : (sorted values).length = values.length := List.length_mergeSort _
  have hi : rank.toNat - 1 < (sorted values).length := by omega
  have hx := List.getElem?_eq_getElem hi
  generalize (sorted values)[rank.toNat - 1] = x at hx
  have hmem : x ∈ values := (List.mergeSort_perm _ _).mem_iff.mp (List.mem_of_getElem? hx)
  refine ⟨x, hx, ?_⟩
  rw [atRank_eq small pos hx, UInt64.le_iff_toNat_le, UInt64.toNat_min]
  constructor
  · exact le_min (le_upperBound x) (le_max_ofList hmem)
  · exact (Nat.min_le_left _ _).trans (upperBound_le x)

theorem histogram_quantiles_top :
    ∃ x, (sorted [7, 0xFFFFFFFFFFFFFFFF, 1000])[2]? = some x ∧
    x ≤ (ofList [7, 0xFFFFFFFFFFFFFFFF, 1000]).atRank 3 ∧
      upperBound (index 1000 - 1) < 1000 := by
  obtain ⟨x, hx, hle, _⟩ := histogram_quantiles.1 [7, 0xFFFFFFFFFFFFFFFF, 1000] 3 (by decide)
    (by decide) (by decide)
  exact ⟨x, hx, hle, (histogram_quantiles.2.2.1 1000).2.1 (by decide)⟩

end LatencyHistogram
end ExchangeSim
