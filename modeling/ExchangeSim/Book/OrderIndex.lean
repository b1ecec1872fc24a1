/- digest: The fingerprint hash index from order ids to store slots is a finite map. -/

import ExchangeSim.Common
import ExchangeSim.Lib.Loop
import ExchangeSim.Lib.RobinHood
import Mathlib.Data.Finset.Card
import Mathlib.Data.Nat.Log
import Mathlib.Data.Nat.Bitwise
import Mathlib.Tactic.Linarith

set_option autoImplicit false
set_option relaxedAutoImplicit false

namespace ExchangeSim.Book

open ExchangeSim.Lib

structure IndexHash where
  fingerprint : OrderId → Nat → UInt32

/-- The Murmur3 finalizer. -/
def scatterHash : IndexHash where
  fingerprint k _ :=
    let k := k ^^^ (k >>> 33)
    let k := k * 0xff51afd7ed558ccd
    let k := k ^^^ (k >>> 33)
    let k := k * 0xc4ceb9fe1a85ec53
    let k := k ^^^ (k >>> 33)
    k.toUInt32

/-- The low bits of the id, folded with the bits above the table size. -/
def localityHash : IndexHash where
  fingerprint k bits := (k ^^^ (k >>> UInt64.ofNat bits)).toUInt32

structure IndexSlot where
  fp : UInt32
  value : Nat
  deriving DecidableEq

structure OrderIndex where
  hash : IndexHash
  mask : Nat
  bits : Nat
  slots : PageArray IndexSlot
  size : Nat

namespace OrderIndex

/-- The smallest power of two not below `x`. -/
def bitCeil (x : Nat) : Nat := 2 ^ Nat.clog 2 x

/-- The table size is a power of two, whose trailing zeros are its binary logarithm. -/
def make (hash : IndexHash) (maxEntries : Nat) : OrderIndex :=
  let mask := (bitCeil (max (2 * maxEntries) 16) - 1) % 2 ^ 32
  { hash := hash, mask := mask, bits := Nat.log 2 (mask + 1),
    slots := fun _ => ⟨0, kNil⟩, size := 0 }

/-- Probe distance of the entry at slot `i` from its home slot, in 32-bit arithmetic. -/
def dist (x : OrderIndex) (i : Nat) (fp : UInt32) : Nat :=
  (i + 2 ^ 32 - fp.toNat) % 2 ^ 32 &&& x.mask

def next (x : OrderIndex) (i : Nat) : Nat := (i + 1) % 2 ^ 32 &&& x.mask

/-- More passes than any probe of the table can take. -/
def fuel (x : OrderIndex) : Nat := x.mask + 2

/-- The probe shared by `find` and `erase` ends at an empty slot, at an entry closer
to its own home, or at the entry of the key. -/
def probePass (x : OrderIndex) (fp : UInt32) (key : OrderId) (keyOf : Nat → OrderId) :
    Nat × Nat → Loop.Pass (Nat × Nat) (Option Nat)
  | (i, d) =>
      let s := x.slots i
      if s.value = kNil ∨ x.dist i s.fp < d then .leave none
      else if s.fp = fp ∧ keyOf s.value = key then .leave (some i)
      else .again (x.next i, d + 1)

/-- The table slot that holds `key`, if any. -/
def probe (x : OrderIndex) (key : OrderId) (keyOf : Nat → OrderId) : Option (Option Nat) :=
  let fp := x.hash.fingerprint key x.bits
  Loop.run (x.probePass fp key keyOf) x.fuel (fp.toNat &&& x.mask, 0)

/-- The store slot holding `key`, or `kNil`. -/
def find (x : OrderIndex) (key : OrderId) (keyOf : Nat → OrderId) : Option Nat := do
  match ← x.probe key keyOf with
  | none => return kNil
  | some i => return (x.slots i).value

/-- Insertion in Robin Hood order: the entry further from its home keeps the slot,
and the displaced one probes on. -/
def insertPass (x : OrderIndex) : PageArray IndexSlot × IndexSlot × Nat × Nat →
    Loop.Pass (PageArray IndexSlot × IndexSlot × Nat × Nat) (PageArray IndexSlot)
  | (slots, cur, i, d) =>
      if (slots i).value = kNil then .leave (Function.update slots i cur)
      else
        let sd := x.dist i (slots i).fp
        if sd < d then .again (Function.update slots i cur, slots i, x.next i, sd + 1)
        else .again (slots, cur, x.next i, d + 1)

def insert (x : OrderIndex) (key : OrderId) (value : Nat) : Option OrderIndex := do
  let cur : IndexSlot := ⟨x.hash.fingerprint key x.bits, value⟩
  let slots ← Loop.run x.insertPass x.fuel (x.slots, cur, cur.fp.toNat &&& x.mask, 0)
  return { x with slots := slots, size := x.size + 1 }

/-- Backward-shift deletion stops at an empty slot or at an entry in its home slot. -/
def removePass (x : OrderIndex) : PageArray IndexSlot × Nat →
    Loop.Pass (PageArray IndexSlot × Nat) (PageArray IndexSlot)
  | (slots, hole) =>
      let j := x.next hole
      if (slots j).value ≠ kNil ∧ x.dist j (slots j).fp ≠ 0 then
        .again (Function.update slots hole (slots j), j)
      else .leave (Function.update slots hole { slots hole with value := kNil })

def removeAt (x : OrderIndex) (hole : Nat) : Option OrderIndex := do
  let slots ← Loop.run x.removePass x.fuel (x.slots, hole)
  return { x with slots := slots, size := x.size - 1 }

def eraseKnownPass (x : OrderIndex) (value i : Nat) : Loop.Pass Nat Nat :=
  if (x.slots i).value ≠ value then .again (x.next i) else .leave i

/-- Removes the entry of a store slot the caller knows to be present. -/
def eraseKnown (x : OrderIndex) (key : OrderId) (value : Nat) : Option OrderIndex := do
  let fp := x.hash.fingerprint key x.bits
  let i ← Loop.run (x.eraseKnownPass value) x.fuel (fp.toNat &&& x.mask)
  x.removeAt i

/-- Looks up and removes `key`; returns its store slot, or `kNil` if absent. -/
def erase (x : OrderIndex) (key : OrderId) (keyOf : Nat → OrderId) : Option (Nat × OrderIndex) := do
  match ← x.probe key keyOf with
  | none => return (kNil, x)
  | some i => return ((x.slots i).value, ← x.removeAt i)

/-- The table with its empty slots as `none`. -/
def view (slots : PageArray IndexSlot) (i : Nat) : Option IndexSlot :=
  if (slots i).value = kNil then none else some (slots i)

def home (x : OrderIndex) (s : IndexSlot) : Nat := s.fp.toNat &&& x.mask

/-- The table holds the entry `s`. -/
def Holds (x : OrderIndex) (s : IndexSlot) : Prop := ∃ i < x.mask + 1, view x.slots i = some s

def occupied (M : Nat) (slots : PageArray IndexSlot) : Finset Nat :=
  (Finset.range M).filter fun i => (slots i).value ≠ kNil

structure Ok (x : OrderIndex) (cap : Nat) : Prop where
  pow : ∃ b ≤ 32, x.mask + 1 = 2 ^ b
  many : 1 < x.mask + 1
  room : cap < x.mask + 1
  size_le : x.size ≤ cap
  ordered : RobinHood.Ordered (x.mask + 1) x.home (view x.slots)
  distinct : ∀ i < x.mask + 1, ∀ j < x.mask + 1, (x.slots i).value ≠ kNil →
    (x.slots i).value = (x.slots j).value → i = j
  count : x.size = (occupied (x.mask + 1) x.slots).card

private theorem and_mask {m b : Nat} (h : m + 1 = 2 ^ b) (a : Nat) : a &&& m = a % (m + 1) := by
  rw [show m = 2 ^ b - 1 by omega, Nat.and_two_pow_sub_one_eq_mod,
    Nat.sub_add_cancel Nat.one_le_two_pow]

variable {x : OrderIndex} {cap : Nat}

theorem Ok.home_eq (ok : x.Ok cap) (s : IndexSlot) : x.home s = s.fp.toNat % (x.mask + 1) := by
  obtain ⟨b, _, hb⟩ := ok.pow
  exact and_mask hb _

theorem Ok.home_lt (ok : x.Ok cap) (s : IndexSlot) : x.home s < x.mask + 1 := by
  rw [ok.home_eq]
  exact Nat.mod_lt _ (by omega)

theorem Ok.next_eq (ok : x.Ok cap) {i : Nat} (hi : i < x.mask + 1) :
    x.next i = RobinHood.next (x.mask + 1) i := by
  obtain ⟨b, hb32, hb⟩ := ok.pow
  have hdvd : x.mask + 1 ∣ 2 ^ 32 := by
    rw [hb]
    exact Nat.pow_dvd_pow 2 hb32
  rw [next, and_mask hb, Nat.mod_mod_of_dvd _ hdvd]
  unfold RobinHood.next
  split_ifs with h
  · rw [h, Nat.mod_self]
  · exact Nat.mod_eq_of_lt (by omega)

theorem Ok.dist_eq (ok : x.Ok cap) {i : Nat} (hi : i < x.mask + 1) (s : IndexSlot) :
    x.dist i s.fp = RobinHood.dist (x.mask + 1) i (x.home s) := by
  obtain ⟨b, hb32, hb⟩ := ok.pow
  have hdvd : x.mask + 1 ∣ 2 ^ 32 := by
    rw [hb]
    exact Nat.pow_dvd_pow 2 hb32
  rw [dist, and_mask hb, Nat.mod_mod_of_dvd _ hdvd, ok.home_eq]
  have hfp : s.fp.toNat < 2 ^ 32 := s.fp.toNat_lt
  obtain ⟨K, hK⟩ := hdvd
  have hM : 0 < x.mask + 1 := by omega
  generalize x.mask + 1 = M at *
  generalize s.fp.toNat = f at *
  have hdiv : M * (f / M) + f % M = f := Nat.div_add_mod f M
  have hr : f % M < M := Nat.mod_lt _ hM
  have hq : f / M < K := by
    rw [Nat.div_lt_iff_lt_mul hM]
    calc f < 2 ^ 32 := hfp
      _ = K * M := by rw [hK, Nat.mul_comm]
  generalize f / M = q at *
  generalize f % M = r at *
  obtain ⟨e, rfl⟩ := Nat.exists_eq_add_of_lt hq
  have hpow : 2 ^ 32 = M * q + M * e + M := by rw [hK, Nat.mul_add, Nat.mul_add, Nat.mul_one]
  unfold RobinHood.dist
  split_ifs with h
  · rw [show i + 2 ^ 32 - f = (i - r) + M * (e + 1) by rw [Nat.mul_add]; omega,
      Nat.add_mul_mod_self_left]
    exact Nat.mod_eq_of_lt (by omega)
  · rw [show i + 2 ^ 32 - f = (i + M - r) + M * e by omega, Nat.add_mul_mod_self_left]
    exact Nat.mod_eq_of_lt (by omega)

private theorem view_update (slots : PageArray IndexSlot) (i : Nat) (s : IndexSlot) :
    view (Function.update slots i s) =
      Function.update (view slots) i (if s.value = kNil then none else some s) := by
  funext j
  by_cases h : j = i
  · subst h
    simp [view]
  · simp [view, Function.update_of_ne h]

private theorem view_eq_some {slots : PageArray IndexSlot} {i : Nat} {s : IndexSlot} :
    view slots i = some s ↔ slots i = s ∧ s.value ≠ kNil := by
  unfold view
  split_ifs with h
  · constructor
    · intro hn
      cases hn
    · rintro ⟨rfl, hs⟩
      exact absurd h hs
  · rw [Option.some.injEq]
    constructor
    · rintro rfl
      exact ⟨rfl, h⟩
    · exact fun hs => hs.1

private theorem view_eq_none {slots : PageArray IndexSlot} {i : Nat} :
    view slots i = none ↔ (slots i).value = kNil := by
  unfold view
  split_ifs with h <;> simp [h]

theorem Ok.exists_empty (ok : x.Ok cap) : ∃ k < x.mask + 1, view x.slots k = none := by
  by_contra hno
  push Not at hno
  have hall : occupied (x.mask + 1) x.slots = Finset.range (x.mask + 1) := by
    apply Finset.filter_true_of_mem
    intro i hi
    have := hno i (Finset.mem_range.mp hi)
    rwa [ne_eq, view_eq_none] at this
  have hcount := ok.count
  rw [hall, Finset.card_range] at hcount
  have h1 := ok.size_le
  have h2 := ok.room
  omega

private theorem dist_target_next {M e i : Nat} (he : e < M) (hi : i < M) (hne : i ≠ e) :
    RobinHood.dist M e (RobinHood.next M i) + 1 = RobinHood.dist M e i := by
  unfold RobinHood.dist RobinHood.next
  split_ifs <;> omega

theorem probe_spec (ok : x.Ok cap) (key : OrderId) (keyOf : Nat → OrderId) :
    ∃ r, x.probe key keyOf = some r ∧
      (r = none → ∀ s, x.Holds s → s.fp = x.hash.fingerprint key x.bits → keyOf s.value ≠ key) ∧
      ∀ i, r = some i → i < x.mask + 1 ∧ (x.slots i).value ≠ kNil ∧
        (x.slots i).fp = x.hash.fingerprint key x.bits ∧ keyOf (x.slots i).value = key := by
  obtain ⟨k, hk, hempty⟩ := ok.exists_empty
  generalize hfp : x.hash.fingerprint key x.bits = fp
  have hhome : ∀ s : IndexSlot, s.fp = fp → x.home s = fp.toNat &&& x.mask := by
    rintro s rfl
    rfl
  have hlt : fp.toNat &&& x.mask < x.mask + 1 := ok.home_lt ⟨fp, 0⟩
  unfold probe fuel
  simp only [hfp]
  -- every slot passed over holds an entry at least as far from home, and none matches
  apply Loop.run_total _
    (fun p : Nat × Nat => p.2 ≤ x.mask + 1 ∧
      p.1 = RobinHood.after (x.mask + 1) (fp.toNat &&& x.mask) p.2 ∧
      ∀ e < p.2, ∃ s, view x.slots (RobinHood.after (x.mask + 1) (fp.toNat &&& x.mask) e) = some s ∧
        ¬(s.fp = fp ∧ keyOf s.value = key))
    (fun p => x.mask + 1 - p.2)
  · rintro ⟨i, d⟩ r ⟨hd, hi, hpast⟩ hbody
    dsimp only at hd hi hpast
    simp only [probePass] at hbody
    have hilt : i < x.mask + 1 := hi ▸ RobinHood.after_lt hlt hd
    split_ifs at hbody with hstop hmatch
    · cases hbody
      refine ⟨?_, by simp⟩
      rintro - s ⟨j, hj, hs⟩ hsfp hkey
      by_cases hfar : RobinHood.dist (x.mask + 1) j (x.home s) < d
      · -- the entry would already have been met
        obtain ⟨s', hs', hno⟩ := hpast _ hfar
        rw [← hhome s hsfp, RobinHood.after_dist hj (ok.home_lt s), hs] at hs'
        cases hs'
        exact hno ⟨hsfp, hkey⟩
      · obtain ⟨a, ha, hda⟩ := ok.ordered.occupied_back ok.home_lt hj hs d (by omega)
        rw [hhome s hsfp, ← hi] at ha hda
        obtain ⟨rfl, hne⟩ := view_eq_some.mp ha
        rcases hstop with hstop | hstop
        · exact hne hstop
        · rw [ok.dist_eq hilt] at hstop
          omega
    · cases hbody
      refine ⟨by simp, ?_⟩
      rintro j hj
      cases hj
      push Not at hstop
      exact ⟨hilt, hstop.1, hmatch.1, hmatch.2⟩
  · rintro ⟨i, d⟩ p ⟨hd, hi, hpast⟩ hbody
    dsimp only at hd hi hpast
    simp only [probePass] at hbody
    split_ifs at hbody with hstop hmatch
    cases hbody
    push Not at hstop
    have hmet : ∀ e < d + 1, ∃ s,
        view x.slots (RobinHood.after (x.mask + 1) (fp.toNat &&& x.mask) e) = some s ∧
          ¬(s.fp = fp ∧ keyOf s.value = key) := by
      intro e he
      rcases Nat.lt_succ_iff_lt_or_eq.mp he with he | rfl
      · exact hpast e he
      · exact ⟨x.slots i, view_eq_some.mpr ⟨by rw [← hi], hstop.1⟩, hmatch⟩
    have hdlt : d < x.mask + 1 := by
      by_contra hge
      obtain ⟨s, hs, _⟩ :=
        hmet _ (show RobinHood.dist (x.mask + 1) k (fp.toNat &&& x.mask) < d + 1 by
        have := RobinHood.dist_lt hk hlt
        omega)
      rw [RobinHood.after_dist hk hlt, hempty] at hs
      cases hs
    refine ⟨⟨by omega, ?_, hmet⟩, by dsimp only; omega⟩
    rw [RobinHood.after_succ hlt hdlt, ← hi, ok.next_eq (hi ▸ RobinHood.after_lt hlt hd)]
  · exact ⟨Nat.zero_le _, (RobinHood.after_zero hlt).symm, by omega⟩
  · dsimp only
    omega

theorem find_spec (ok : x.Ok cap) (key : OrderId) (keyOf : Nat → OrderId) :
    ∃ v, x.find key keyOf = some v ∧
      (v = kNil → ∀ s, x.Holds s → s.fp = x.hash.fingerprint key x.bits → keyOf s.value ≠ key) ∧
      (v ≠ kNil → x.Holds ⟨x.hash.fingerprint key x.bits, v⟩ ∧ keyOf v = key) := by
  obtain ⟨r, hr, habsent, hfound⟩ := probe_spec ok key keyOf
  cases r with
  | none => exact ⟨kNil, by simp [find, hr], fun _ => habsent rfl, by simp⟩
  | some i =>
      obtain ⟨hi, hne, hfp, hkey⟩ := hfound i rfl
      refine ⟨(x.slots i).value, by simp [find, hr], fun h => absurd h hne,
        fun _ => ⟨⟨i, hi, ?_⟩, hkey⟩⟩
      rw [← hfp]
      exact view_eq_some.mpr ⟨rfl, hne⟩

private theorem holds_update {M i : Nat} (hi : i < M) (slots : PageArray IndexSlot)
    {new s : IndexSlot} (hnew : new.value ≠ kNil) :
    (∃ j < M, view (Function.update slots i new) j = some s) ↔
      s = new ∨ ∃ j < M, j ≠ i ∧ view slots j = some s := by
  rw [view_update, if_neg hnew]
  constructor
  · rintro ⟨j, hj, hs⟩
    by_cases h : j = i
    · subst h
      rw [Function.update_self] at hs
      exact Or.inl (Option.some.inj hs).symm
    · rw [Function.update_of_ne h] at hs
      exact Or.inr ⟨j, hj, h, hs⟩
  · rintro (rfl | ⟨j, hj, h, hs⟩)
    · exact ⟨i, hi, Function.update_self ..⟩
    · exact ⟨j, hj, by rwa [Function.update_of_ne h]⟩

private structure Carrying (x : OrderIndex) (new : IndexSlot)
    (p : PageArray IndexSlot × IndexSlot × Nat × Nat) : Prop where
  ordered : RobinHood.Ordered (x.mask + 1) x.home (view p.1)
  carried : p.2.1.value ≠ kNil
  inside : p.2.2.1 < x.mask + 1
  dist_eq : p.2.2.2 = RobinHood.dist (x.mask + 1) p.2.2.1 (x.home p.2.1)
  fits : RobinHood.Fits (x.mask + 1) x.home (view p.1) p.2.2.1 p.2.1
  fresh : ∀ j < x.mask + 1, (p.1 j).value ≠ p.2.1.value
  distinct : ∀ i < x.mask + 1, ∀ j < x.mask + 1, (p.1 i).value ≠ kNil →
    (p.1 i).value = (p.1 j).value → i = j
  contents : ∀ s, (s = p.2.1 ∨ ∃ j < x.mask + 1, view p.1 j = some s) ↔ (s = new ∨ x.Holds s)
  empty : ∀ j, (p.1 j).value = kNil ↔ (x.slots j).value = kNil

private theorem Carrying.swap {new : IndexSlot} {slots : PageArray IndexSlot} {cur : IndexSlot}
    {i d : Nat} (ok : x.Ok cap) (h : Carrying x new (slots, cur, i, d))
    (hocc : (slots i).value ≠ kNil) (hlt : x.dist i (slots i).fp < d) :
    Carrying x new (Function.update slots i cur, slots i, x.next i, x.dist i (slots i).fp + 1) := by
  obtain ⟨hord, hcar, hi, hd, hfits, hfresh, hdist, hcont, hemp⟩ := h
  dsimp only at hord hcar hi hd hfits hfresh hdist hcont hemp
  obtain ⟨k, hk, hkempty⟩ := ok.exists_empty
  have hkview : view slots k = none := view_eq_none.mpr ((hemp k).mpr (view_eq_none.mp hkempty))
  have hview : view slots i = some (slots i) := view_eq_some.mpr ⟨rfl, hocc⟩
  have hstep := hord.dist_succ_lt ok.home_lt hk hkview hi hview
  rw [ok.dist_eq hi, hd] at hlt
  have hnew : view (Function.update slots i cur) = Function.update (view slots) i (some cur) := by
    rw [view_update, if_neg hcar]
  refine ⟨?_, hocc, ?_, ?_, ?_, ?_, ?_, ?_, ?_⟩ <;> dsimp only
  · rw [hnew]
    exact hord.displace ok.many hi hview hlt hfits
  · rw [ok.next_eq hi]
    exact RobinHood.next_lt hi
  · rw [ok.next_eq hi, ok.dist_eq hi, RobinHood.dist_next (ok.home_lt _) hstep]
  · rw [hnew, ok.next_eq hi]
    exact RobinHood.Fits.next ok.home_lt hi (Function.update_self ..) hlt.le hstep
  · intro j hj
    by_cases hji : j = i
    · subst hji
      rw [Function.update_self]
      exact (hfresh j hj).symm
    · rw [Function.update_of_ne hji]
      exact fun e => hji (hdist i hi j hj hocc e.symm).symm
  · intro a ha b hb hne heq
    by_cases hai : a = i <;> by_cases hbi : b = i
    · exact hai.trans hbi.symm
    · subst hai
      rw [Function.update_self, Function.update_of_ne hbi] at heq
      exact absurd heq.symm (hfresh b hb)
    · subst hbi
      rw [Function.update_self, Function.update_of_ne hai] at heq
      exact absurd heq (hfresh a ha)
    · rw [Function.update_of_ne hai] at hne heq
      rw [Function.update_of_ne hbi] at heq
      exact hdist a ha b hb hne heq
  · intro s
    rw [← hcont s, holds_update hi slots hcar]
    constructor
    · rintro (rfl | rfl | ⟨j, hj, _, hs⟩)
      · exact Or.inr ⟨i, hi, hview⟩
      · exact Or.inl rfl
      · exact Or.inr ⟨j, hj, hs⟩
    · rintro (rfl | ⟨j, hj, hs⟩)
      · exact Or.inr (Or.inl rfl)
      · by_cases hji : j = i
        · subst hji
          rw [hview] at hs
          exact Or.inl (Option.some.inj hs).symm
        · exact Or.inr (Or.inr ⟨j, hj, hji, hs⟩)
  · intro j
    rw [← hemp j]
    by_cases hji : j = i
    · subst hji
      simp [hcar, hocc]
    · rw [Function.update_of_ne hji]

private theorem Carrying.pass {new : IndexSlot} {slots : PageArray IndexSlot} {cur : IndexSlot}
    {i d : Nat} (ok : x.Ok cap) (h : Carrying x new (slots, cur, i, d))
    (hocc : (slots i).value ≠ kNil) (hge : ¬ x.dist i (slots i).fp < d) :
    Carrying x new (slots, cur, x.next i, d + 1) := by
  obtain ⟨hord, hcar, hi, hd, hfits, hfresh, hdist, hcont, hemp⟩ := h
  dsimp only at hord hcar hi hd hfits hfresh hdist hcont hemp
  obtain ⟨k, hk, hkempty⟩ := ok.exists_empty
  have hkview : view slots k = none := view_eq_none.mpr ((hemp k).mpr (view_eq_none.mp hkempty))
  have hview : view slots i = some (slots i) := view_eq_some.mpr ⟨rfl, hocc⟩
  have hstep := hord.dist_succ_lt ok.home_lt hk hkview hi hview
  rw [ok.dist_eq hi, hd] at hge
  refine ⟨hord, hcar, ?_, ?_, ?_, hfresh, hdist, hcont, hemp⟩ <;> dsimp only <;> rw [ok.next_eq hi]
  · exact RobinHood.next_lt hi
  · rw [hd, RobinHood.dist_next (ok.home_lt _) (by omega)]
  · exact RobinHood.Fits.next ok.home_lt hi hview (by omega) (by omega)

private theorem Carrying.start (ok : x.Ok cap) {new : IndexSlot} (hne : new.value ≠ kNil)
    (fresh : ∀ s, x.Holds s → s.value ≠ new.value) :
    Carrying x new (x.slots, new, new.fp.toNat &&& x.mask, 0) := by
  refine ⟨ok.ordered, hne, ok.home_lt new, ?_, ?_, ?_, ok.distinct, fun s => Iff.rfl,
    fun j => Iff.rfl⟩
  · exact (RobinHood.dist_self _).symm
  · exact Or.inl (RobinHood.dist_self _)
  · intro j hj heq
    dsimp only at heq
    exact fresh (x.slots j) ⟨j, hj, view_eq_some.mpr ⟨rfl, by rwa [heq]⟩⟩ heq

private theorem card_occupied_fill {M i : Nat} (hi : i < M) {slots : PageArray IndexSlot}
    {new : IndexSlot} (hempty : (slots i).value = kNil) (hnew : new.value ≠ kNil) :
    (occupied M (Function.update slots i new)).card = (occupied M slots).card + 1 := by
  have heq : occupied M (Function.update slots i new) = Insert.insert i (occupied M slots) := by
    ext j
    by_cases h : j = i
    · subst h
      simp [occupied, hi, hnew]
    · simp [occupied, h]
  rw [heq, Finset.card_insert_of_notMem (by simp [occupied, hempty])]

private theorem card_occupied_drop {M i : Nat} (hi : i < M) {slots : PageArray IndexSlot}
    {new : IndexSlot} (hocc : (slots i).value ≠ kNil) (hnew : new.value = kNil) :
    (occupied M (Function.update slots i new)).card = (occupied M slots).card - 1 := by
  have heq : occupied M (Function.update slots i new) = (occupied M slots).erase i := by
    ext j
    by_cases h : j = i
    · subst h
      simp [occupied, hnew]
    · simp [occupied, h]
  rw [heq, Finset.card_erase_of_mem (by simp [occupied, hi, hocc])]

private theorem occupied_congr (M : Nat) {a b : PageArray IndexSlot}
    (h : ∀ j, (a j).value = kNil ↔ (b j).value = kNil) : occupied M a = occupied M b := by
  ext j
  simp [occupied, h j]

theorem insert_spec (ok : x.Ok cap) (key : OrderId) {value : Nat} (hne : value ≠ kNil)
    (hroom : x.size < cap) (fresh : ∀ s, x.Holds s → s.value ≠ value) :
    ∃ y, x.insert key value = some y ∧ y.Ok cap ∧ y.size = x.size + 1 ∧
      y.hash = x.hash ∧ y.mask = x.mask ∧ y.bits = x.bits ∧
      ∀ s, y.Holds s ↔ s = ⟨x.hash.fingerprint key x.bits, value⟩ ∨ x.Holds s := by
  obtain ⟨k, hk, hempty⟩ := ok.exists_empty
  generalize hnew : (⟨x.hash.fingerprint key x.bits, value⟩ : IndexSlot) = new
  have hnewne : new.value ≠ kNil := by rw [← hnew]; exact hne
  have hcore := Loop.run_total x.insertPass
    (Carrying x new) (fun p => RobinHood.dist (x.mask + 1) k p.2.2.1)
    (fun slots => ({ x with slots := slots, size := x.size + 1 } : OrderIndex).Ok cap ∧
      ∀ s, (∃ j < x.mask + 1, view slots j = some s) ↔ s = new ∨ x.Holds s)
    ?_ ?_ x.fuel (x.slots, new, new.fp.toNat &&& x.mask, 0)
    (Carrying.start ok hnewne (by rw [← hnew]; exact fresh))
    (by
      have := RobinHood.dist_lt hk (ok.home_lt new)
      unfold fuel
      unfold home at this
      dsimp only
      omega)
  · obtain ⟨slots, hrun, hok, hholds⟩ := hcore
    refine ⟨{ x with slots := slots, size := x.size + 1 }, ?_, hok, rfl, rfl, rfl, rfl, hholds⟩
    subst hnew
    simp [insert, hrun]
  · rintro ⟨slots, cur, i, d⟩ v h hbody
    simp only [insertPass] at hbody
    split_ifs at hbody with hfree
    · cases hbody
      obtain ⟨hord, hcar, hi, hd, hfits, hfresh, hdist, hcont, hemp⟩ := h
      dsimp only at hord hcar hi hd hfits hfresh hdist hcont hemp
      have hview : view slots i = none := view_eq_none.mpr hfree
      refine ⟨⟨ok.pow, ok.many, ok.room, Nat.succ_le_of_lt hroom, ?_, ?_, ?_⟩, ?_⟩
      · dsimp only
        rw [view_update, if_neg hcar]
        exact hord.fill ok.many hi hview hfits
      · intro a ha b hb hane heq
        dsimp only at hane heq
        by_cases hai : a = i <;> by_cases hbi : b = i
        · exact hai.trans hbi.symm
        · subst hai
          rw [Function.update_self, Function.update_of_ne hbi] at heq
          exact absurd heq.symm (hfresh b hb)
        · subst hbi
          rw [Function.update_self, Function.update_of_ne hai] at heq
          exact absurd heq (hfresh a ha)
        · rw [Function.update_of_ne hai] at hane heq
          rw [Function.update_of_ne hbi] at heq
          exact hdist a ha b hb hane heq
      · dsimp only
        rw [card_occupied_fill hi hfree hcar, occupied_congr _ hemp, ← ok.count]
      · intro s
        rw [← hcont s, holds_update hi slots hcar]
        constructor
        · rintro (rfl | ⟨j, hj, _, hs⟩)
          · exact Or.inl rfl
          · exact Or.inr ⟨j, hj, hs⟩
        · rintro (rfl | ⟨j, hj, hs⟩)
          · exact Or.inl rfl
          · refine Or.inr ⟨j, hj, ?_, hs⟩
            rintro rfl
            rw [hview] at hs
            cases hs
  · rintro ⟨slots, cur, i, d⟩ q h hbody
    simp only [insertPass] at hbody
    split_ifs at hbody with hfree hlt <;> cases hbody
    all_goals
      have hi : i < x.mask + 1 := h.inside
      have hik : i ≠ k := by
        rintro rfl
        exact hfree ((h.empty i).mpr (view_eq_none.mp hempty))
      have hvar := dist_target_next hk hi hik
    · refine ⟨h.swap ok hfree hlt, ?_⟩
      dsimp only
      rw [ok.next_eq hi]
      omega
    · refine ⟨h.pass ok hfree hlt, ?_⟩
      dsimp only
      rw [ok.next_eq hi]
      omega

private structure Shifting (x : OrderIndex) (start : Nat) (p : PageArray IndexSlot × Nat) :
    Prop where
  ordered : RobinHood.Ordered (x.mask + 1) x.home (view p.1)
  inside : p.2 < x.mask + 1
  hole : (p.1 p.2).value ≠ kNil
  distinct : ∀ i < x.mask + 1, ∀ j < x.mask + 1, i ≠ p.2 → j ≠ p.2 → (p.1 i).value ≠ kNil →
    (p.1 i).value = (p.1 j).value → i = j
  contents : ∀ s, (∃ j < x.mask + 1, j ≠ p.2 ∧ view p.1 j = some s) ↔
    (∃ j < x.mask + 1, j ≠ start ∧ view x.slots j = some s)
  empty : ∀ j, (p.1 j).value = kNil ↔ (x.slots j).value = kNil

private theorem Shifting.shift {start : Nat} {slots : PageArray IndexSlot} {hole : Nat}
    (ok : x.Ok cap) (h : Shifting x start (slots, hole))
    (hocc : (slots (x.next hole)).value ≠ kNil)
    (haway : x.dist (x.next hole) (slots (x.next hole)).fp ≠ 0) :
    Shifting x start (Function.update slots hole (slots (x.next hole)), x.next hole) := by
  obtain ⟨hord, hin, hhole, hdist, hcont, hemp⟩ := h
  dsimp only at hord hin hhole hdist hcont hemp
  rw [ok.next_eq hin] at *
  generalize hj : RobinHood.next (x.mask + 1) hole = j at *
  have hjlt : j < x.mask + 1 := hj ▸ RobinHood.next_lt hin
  have hjne : j ≠ hole := hj ▸ RobinHood.next_ne ok.many
  have hview : view slots j = some (slots j) := view_eq_some.mpr ⟨rfl, hocc⟩
  rw [ok.dist_eq hjlt] at haway
  refine ⟨?_, hjlt, ?_, ?_, ?_, ?_⟩ <;> dsimp only
  · rw [view_update, if_neg hocc]
    apply hord.shift ok.many ok.home_lt hin
    · rw [hj]
      exact hview
    · rw [hj]
      exact haway
  · rwa [Function.update_of_ne hjne]
  · intro a ha b hb haj hbj hane heq
    by_cases hah : a = hole <;> by_cases hbh : b = hole
    · exact hah.trans hbh.symm
    · subst hah
      rw [Function.update_self, Function.update_of_ne hbh] at heq
      exact absurd (hdist j hjlt b hb hjne hbh hocc heq).symm hbj
    · subst hbh
      rw [Function.update_self, Function.update_of_ne hah] at heq
      exact absurd (hdist j hjlt a ha hjne hah hocc heq.symm).symm haj
    · rw [Function.update_of_ne hah] at hane heq
      rw [Function.update_of_ne hbh] at heq
      exact hdist a ha b hb hah hbh hane heq
  · intro s
    rw [← hcont s, view_update, if_neg hocc]
    constructor
    · rintro ⟨k, hk, hkj, hs⟩
      by_cases hkh : k = hole
      · subst hkh
        rw [Function.update_self] at hs
        exact ⟨j, hjlt, hjne, hview.trans hs⟩
      · rw [Function.update_of_ne hkh] at hs
        exact ⟨k, hk, hkh, hs⟩
    · rintro ⟨k, hk, hkh, hs⟩
      by_cases hkj : k = j
      · subst hkj
        refine ⟨hole, hin, hjne.symm, ?_⟩
        rw [Function.update_self]
        exact hview.symm.trans hs
      · exact ⟨k, hk, hkj, by rwa [Function.update_of_ne hkh]⟩
  · intro k
    rw [← hemp k]
    by_cases hkh : k = hole
    · subst hkh
      simp [hocc, hhole]
    · rw [Function.update_of_ne hkh]

theorem removeAt_spec (ok : x.Ok cap) {i : Nat} (hi : i < x.mask + 1)
    (hocc : (x.slots i).value ≠ kNil) :
    ∃ y, x.removeAt i = some y ∧ y.Ok cap ∧ y.size + 1 = x.size ∧
      y.hash = x.hash ∧ y.mask = x.mask ∧ y.bits = x.bits ∧
      ∀ s, y.Holds s ↔ x.Holds s ∧ s.value ≠ (x.slots i).value := by
  obtain ⟨k, hk, hempty⟩ := ok.exists_empty
  have hpos : 0 < x.size := by
    rw [ok.count]
    exact Finset.card_pos.mpr ⟨i, by simp [occupied, hi, hocc]⟩
  have hcore := Loop.run_total x.removePass (Shifting x i)
    (fun p => RobinHood.dist (x.mask + 1) k p.2)
    (fun slots => ({ x with slots := slots, size := x.size - 1 } : OrderIndex).Ok cap ∧
      ∀ s, (∃ j < x.mask + 1, view slots j = some s) ↔
        ∃ j < x.mask + 1, j ≠ i ∧ view x.slots j = some s)
    ?_ ?_ x.fuel (x.slots, i)
    ⟨ok.ordered, hi, hocc, fun a ha b hb _ _ => ok.distinct a ha b hb, fun s => Iff.rfl,
      fun j => Iff.rfl⟩
    (by
      have := RobinHood.dist_lt hk hi
      unfold fuel
      dsimp only
      omega)
  · obtain ⟨slots, hrun, hok, hholds⟩ := hcore
    refine ⟨{ x with slots := slots, size := x.size - 1 }, by simp [removeAt, hrun], hok,
      Nat.sub_add_cancel hpos, rfl, rfl, rfl, ?_⟩
    intro s
    refine (hholds s).trans ⟨?_, ?_⟩
    · rintro ⟨j, hj, hji, hs⟩
      refine ⟨⟨j, hj, hs⟩, fun heq => hji ?_⟩
      obtain ⟨rfl, _⟩ := view_eq_some.mp hs
      exact (ok.distinct i hi j hj hocc heq.symm).symm
    · rintro ⟨⟨j, hj, hs⟩, hne⟩
      refine ⟨j, hj, ?_, hs⟩
      rintro rfl
      obtain ⟨rfl, _⟩ := view_eq_some.mp hs
      exact hne rfl
  · rintro ⟨slots, hole⟩ v h hbody
    simp only [removePass] at hbody
    split_ifs at hbody with hgo
    cases hbody
    obtain ⟨hord, hin, hhole, hdist, hcont, hemp⟩ := h
    dsimp only at hord hin hhole hdist hcont hemp
    have hview : view (Function.update slots hole { slots hole with value := kNil }) =
        Function.update (view slots) hole none := by
      rw [view_update, if_pos rfl]
    refine ⟨⟨ok.pow, ok.many, ok.room, (Nat.sub_le _ _).trans ok.size_le, ?_, ?_, ?_⟩, ?_⟩
    · dsimp only
      rw [hview]
      apply hord.drop ok.many hin
      intro b hb
      by_contra hpos
      obtain ⟨rfl, hbne⟩ := view_eq_some.mp hb
      rw [← ok.dist_eq (RobinHood.next_lt hin), ← ok.next_eq hin] at hpos
      rw [← ok.next_eq hin] at hbne
      exact hgo ⟨hbne, hpos⟩
    · intro a ha b hb hane heq
      dsimp only at hane heq
      by_cases hah : a = hole
      · subst hah
        simp at hane
      · by_cases hbh : b = hole
        · subst hbh
          rw [heq, Function.update_self] at hane
          exact absurd rfl hane
        · rw [Function.update_of_ne hah] at hane heq
          rw [Function.update_of_ne hbh] at heq
          exact hdist a ha b hb hah hbh hane heq
    · dsimp only
      rw [card_occupied_drop hin hhole rfl, occupied_congr _ hemp, ← ok.count]
    · intro s
      rw [← hcont s, hview]
      constructor
      · rintro ⟨j, hj, hs⟩
        by_cases hjh : j = hole
        · subst hjh
          rw [Function.update_self] at hs
          cases hs
        · rw [Function.update_of_ne hjh] at hs
          exact ⟨j, hj, hjh, hs⟩
      · rintro ⟨j, hj, hjh, hs⟩
        exact ⟨j, hj, by rwa [Function.update_of_ne hjh]⟩
  · rintro ⟨slots, hole⟩ q h hbody
    simp only [removePass] at hbody
    split_ifs at hbody with hgo
    cases hbody
    have hin : hole < x.mask + 1 := h.inside
    have hne : hole ≠ k := by
      rintro rfl
      exact h.hole ((h.empty hole).mpr (view_eq_none.mp hempty))
    have hvar := dist_target_next hk hin hne
    refine ⟨h.shift ok hgo.1 hgo.2, ?_⟩
    dsimp only
    rw [ok.next_eq hin]
    omega

theorem eraseKnown_spec (ok : x.Ok cap) (key : OrderId) {value : Nat}
    (present : x.Holds ⟨x.hash.fingerprint key x.bits, value⟩) :
    ∃ y, x.eraseKnown key value = some y ∧ y.Ok cap ∧ y.size + 1 = x.size ∧
      y.hash = x.hash ∧ y.mask = x.mask ∧ y.bits = x.bits ∧
      ∀ s, y.Holds s ↔ x.Holds s ∧ s.value ≠ value := by
  obtain ⟨j, hj, hs⟩ := present
  obtain ⟨hslot, hne⟩ := view_eq_some.mp hs
  dsimp only at hne
  have hhome := ok.home_lt ⟨x.hash.fingerprint key x.bits, value⟩
  obtain ⟨i, hrun, hi, hval⟩ := Loop.run_total (x.eraseKnownPass value)
    (fun i => i < x.mask + 1) (fun i => RobinHood.dist (x.mask + 1) j i)
    (fun i => i < x.mask + 1 ∧ (x.slots i).value = value)
    (by
      intro i v hi hbody
      simp only [eraseKnownPass] at hbody
      split_ifs at hbody with h
      cases hbody
      exact ⟨hi, by simpa using h⟩)
    (by
      intro i q hi hbody
      simp only [eraseKnownPass] at hbody
      split_ifs at hbody with h
      cases hbody
      have hij : i ≠ j := by
        rintro rfl
        exact h (by rw [hslot])
      have hvar := dist_target_next hj hi hij
      rw [ok.next_eq hi]
      exact ⟨RobinHood.next_lt hi, by omega⟩)
    x.fuel _ hhome
    (by
      have := RobinHood.dist_lt hj hhome
      unfold fuel
      omega)
  obtain ⟨y, hy, hok, hrest⟩ := removeAt_spec ok hi (by rw [hval]; exact hne)
  rw [hval] at hrest
  refine ⟨y, ?_, hok, hrest⟩
  unfold home at hrun
  simp [eraseKnown, hrun, hy]

theorem erase_spec (ok : x.Ok cap) (key : OrderId) (keyOf : Nat → OrderId) :
    ∃ v y, x.erase key keyOf = some (v, y) ∧ x.find key keyOf = some v ∧ y.Ok cap ∧
      y.hash = x.hash ∧ y.mask = x.mask ∧ y.bits = x.bits ∧
      (v = kNil → y = x) ∧ (v ≠ kNil → y.size + 1 = x.size) ∧
      ∀ s, y.Holds s ↔ x.Holds s ∧ s.value ≠ v := by
  obtain ⟨r, hr, _, hfound⟩ := probe_spec ok key keyOf
  cases r with
  | none =>
      refine ⟨kNil, x, by simp [erase, hr], by simp [find, hr], ok, rfl, rfl, rfl, fun _ => rfl,
        by simp, ?_⟩
      intro s
      refine ⟨fun h => ⟨h, ?_⟩, fun h => h.1⟩
      obtain ⟨i, _, hs⟩ := h
      exact (view_eq_some.mp hs).2
  | some i =>
      obtain ⟨hi, hne, _, _⟩ := hfound i rfl
      obtain ⟨y, hy, hok, hsize, h1, h2, h3, hholds⟩ := removeAt_spec ok hi hne
      exact ⟨(x.slots i).value, y, by simp [erase, hr, hy], by simp [find, hr], hok, h1, h2, h3,
        fun h => absurd h hne, fun _ => hsize, hholds⟩

theorem ok_make (hash : IndexHash) {maxEntries : Nat} (hmax : maxEntries < kNil) :
    (make hash maxEntries).Ok maxEntries := by
  have hpow : ∃ b ≤ 32, (make hash maxEntries).mask + 1 = 2 ^ b ∧ 4 ≤ b := by
    have hclog : 2 ^ 4 ≤ 2 ^ Nat.clog 2 (max (2 * maxEntries) 16) :=
      (le_max_right _ _).trans (Nat.le_pow_clog (by decide) _)
    have h4 := (Nat.pow_le_pow_iff_right (by decide)).mp hclog
    simp only [make, bitCeil]
    generalize Nat.clog 2 (max (2 * maxEntries) 16) = b at *
    by_cases hb : b ≤ 32
    · refine ⟨b, hb, ?_, h4⟩
      have hle : 2 ^ b ≤ 2 ^ 32 := Nat.pow_le_pow_right (by decide) hb
      have hpos : 0 < 2 ^ b := Nat.pow_pos (by decide)
      rw [Nat.mod_eq_of_lt (by omega)]
      omega
    · -- a mask wider than 32 bits is truncated to all ones
      refine ⟨32, le_rfl, ?_, by decide⟩
      obtain ⟨c, rfl⟩ := Nat.exists_eq_add_of_le (show 32 ≤ b by omega)
      have hpos : 0 < 2 ^ c := Nat.pow_pos (by decide)
      rw [show 2 ^ (32 + c) - 1 = (2 ^ 32 - 1) + 2 ^ 32 * (2 ^ c - 1) by
        rw [Nat.pow_add, Nat.mul_sub]
        omega, Nat.add_mul_mod_self_left]
      rfl
  have hroom : maxEntries < (make hash maxEntries).mask + 1 := by
    have hle : max (2 * maxEntries) 16 ≤ 2 ^ Nat.clog 2 (max (2 * maxEntries) 16) :=
      Nat.le_pow_clog (by decide) _
    simp only [make, bitCeil]
    generalize Nat.clog 2 (max (2 * maxEntries) 16) = b at *
    have h16 := (le_max_left (2 * maxEntries) 16).trans hle
    have hpos : 16 ≤ 2 ^ b := (le_max_right (2 * maxEntries) 16).trans hle
    unfold kNil at hmax
    by_cases hb : b ≤ 32
    · have hle : 2 ^ b ≤ 2 ^ 32 := Nat.pow_le_pow_right (by decide) hb
      rw [Nat.mod_eq_of_lt (by omega)]
      omega
    · obtain ⟨c, rfl⟩ := Nat.exists_eq_add_of_le (show 32 ≤ b by omega)
      have hpos : 0 < 2 ^ c := Nat.pow_pos (by decide)
      rw [show 2 ^ (32 + c) - 1 = (2 ^ 32 - 1) + 2 ^ 32 * (2 ^ c - 1) by
        rw [Nat.pow_add, Nat.mul_sub]
        omega, Nat.add_mul_mod_self_left]
      omega
  obtain ⟨b, hb, hM, h4⟩ := hpow
  refine ⟨⟨b, hb, hM⟩, ?_, hroom, Nat.zero_le _, ?_, ?_, ?_⟩
  · rw [hM]
    exact Nat.one_lt_two_pow (by omega)
  · intro i _ s hs
    simp [make, view] at hs
  · intro i _ j _ hne
    simp [make] at hne
  · simp [make, occupied]

end OrderIndex
end ExchangeSim.Book
