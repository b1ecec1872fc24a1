/- digest: Runs of the order index against an association list from order ids to store slots. -/

import ExchangeSim.Book.OrderIndex

set_option autoImplicit false
set_option relaxedAutoImplicit false

namespace ExchangeSim.Book

open ExchangeSim.Lib

namespace OrderIndex

/-- Along a run of occupied slots, the distance from home grows by at most one per slot. -/
def robinHoodOrdered (x : OrderIndex) : Bool :=
  (List.range (x.mask + 1)).all fun i =>
    let p := (i + 2 ^ 32 - 1) % 2 ^ 32 &&& x.mask
    if (x.slots i).value = kNil then true
    else
      let d := x.dist i (x.slots i).fp
      !(0 < d && ((x.slots p).value = kNil || (x.dist p (x.slots p).fp + 1) % 2 ^ 32 < d))

end OrderIndex

/-- A call of the index. `keyOf` is the order id in a store slot at the time of the call. -/
inductive TableCall where
  | insert (key : OrderId) (value : Nat)
  | find (key : OrderId) (keyOf : Nat → OrderId)
  | erase (key : OrderId) (keyOf : Nat → OrderId)
  | eraseKnown (key : OrderId) (value : Nat)

/-- The keys that are held, each with its store slot. -/
abbrev IndexMap := List (OrderId × Nat)

namespace IndexMap

/-- The slot of the key, or `kNil`. -/
def slotOf (m : IndexMap) (key : OrderId) : Nat := (m.lookup key).getD kNil

def without (m : IndexMap) (key : OrderId) : IndexMap := m.filter fun e => e.1 ≠ key

/-- `keyOf` is right about every slot that is held. -/
def Consistent (m : IndexMap) (keyOf : Nat → OrderId) : Prop := ∀ e ∈ m, keyOf e.2 = e.1

end IndexMap

namespace TableCall

/-- The table after the call, and what it returns. -/
def exec (x : OrderIndex) : TableCall → Option (OrderIndex × Option Nat)
  | .insert key value => (x.insert key value).map fun y => (y, none)
  | .find key keyOf => (x.find key keyOf).map fun v => (x, some v)
  | .erase key keyOf => (x.erase key keyOf).map fun r => (r.2, some r.1)
  | .eraseKnown key value => (x.eraseKnown key value).map fun y => (y, none)

/-- What a finite map does. -/
def spec (m : IndexMap) : TableCall → IndexMap × Option Nat
  | .insert key value => ((key, value) :: m, none)
  | .find key _ => (m, some (m.slotOf key))
  | .erase key _ => (m.without key, some (m.slotOf key))
  | .eraseKnown key _ => (m.without key, none)

/-- The preconditions of a call. -/
def Allowed (maxEntries : Nat) (m : IndexMap) : TableCall → Prop
  | .insert key value => (∀ e ∈ m, e.1 ≠ key ∧ e.2 ≠ value) ∧ m.length < maxEntries ∧ value ≠ kNil
  | .find _ keyOf => m.Consistent keyOf
  | .erase _ keyOf => m.Consistent keyOf
  | .eraseKnown key value => (key, value) ∈ m

/-- Calls in a row, with what they return. -/
def run (x : OrderIndex) : List TableCall → Option (OrderIndex × List (Option Nat))
  | [] => some (x, [])
  | c :: cs => do
      let (y, r) ← c.exec x
      let (z, rs) ← run y cs
      return (z, r :: rs)

def specRun (m : IndexMap) : List TableCall → IndexMap × List (Option Nat)
  | [] => (m, [])
  | c :: cs => ((specRun (c.spec m).1 cs).1, (c.spec m).2 :: (specRun (c.spec m).1 cs).2)

/-- Every call meets its preconditions. -/
def Respects (maxEntries : Nat) (m : IndexMap) : List TableCall → Prop
  | [] => True
  | c :: cs => c.Allowed maxEntries m ∧ Respects maxEntries (c.spec m).1 cs

end TableCall

namespace OrderIndex

structure Agrees (x : OrderIndex) (maxEntries : Nat) (m : IndexMap) : Prop where
  ok : x.Ok maxEntries
  holds : ∀ s, x.Holds s ↔ ∃ e ∈ m, s = ⟨x.hash.fingerprint e.1 x.bits, e.2⟩
  keys : (m.map Prod.fst).Nodup
  slots : (m.map Prod.snd).Nodup
  nil : ∀ e ∈ m, e.2 ≠ kNil
  size : x.size = m.length

variable {x y : OrderIndex} {maxEntries : Nat} {m : IndexMap}

private theorem slotOf_of_mem (h : (m.map Prod.fst).Nodup) {key : OrderId} {value : Nat}
    (hm : (key, value) ∈ m) :
    m.slotOf key = value := by
  induction m with
  | nil => cases hm
  | cons e m ih =>
      obtain ⟨k, v⟩ := e
      rw [List.map_cons, List.nodup_cons] at h
      rw [IndexMap.slotOf, List.lookup_cons]
      rcases List.mem_cons.mp hm with heq | htail
      · cases heq
        simp
      · have hne : key ≠ k := by
          rintro rfl
          exact h.1 (List.mem_map.mpr ⟨_, htail, rfl⟩)
        simp only [beq_eq_false_iff_ne.mpr hne]
        exact ih h.2 htail

private theorem slotOf_of_notMem {key : OrderId} (h : ∀ e ∈ m, e.1 ≠ key) :
    m.slotOf key = kNil := by
  have : m.lookup key = none := by
    rw [List.lookup_eq_none_iff]
    intro e he
    exact bne_iff_ne.mpr fun heq => h e he heq.symm
  rw [IndexMap.slotOf, this]
  rfl

private theorem slot_injective (h : (m.map Prod.snd).Nodup) {e f : OrderId × Nat}
    (he : e ∈ m) (hf : f ∈ m) (heq : e.2 = f.2) : e = f := List.inj_on_of_nodup_map h he hf heq

private theorem key_injective (h : (m.map Prod.fst).Nodup) {e f : OrderId × Nat}
    (he : e ∈ m) (hf : f ∈ m) (heq : e.1 = f.1) : e = f := List.inj_on_of_nodup_map h he hf heq

theorem Agrees.find (h : x.Agrees maxEntries m) (key : OrderId) {keyOf : Nat → OrderId}
    (hkey : m.Consistent keyOf) :
    x.find key keyOf = some (m.slotOf key) := by
  obtain ⟨v, hv, habsent, hfound⟩ := find_spec h.ok key keyOf
  rw [hv]
  congr 1
  by_cases hnil : v = kNil
  · rw [hnil]
    refine (slotOf_of_notMem fun e he heq => ?_).symm
    refine habsent hnil ⟨x.hash.fingerprint e.1 x.bits, e.2⟩ ((h.holds _).mpr ⟨e, he, rfl⟩)
      (by rw [heq]) ?_
    rw [hkey e he, heq]
  · obtain ⟨hheld, hk⟩ := hfound hnil
    obtain ⟨e, he, hs⟩ := (h.holds _).mp hheld
    obtain ⟨_, rfl⟩ := IndexSlot.mk.inj hs
    have : e.1 = key := (hkey e he).symm.trans hk
    rw [← this]
    exact (slotOf_of_mem h.keys he).symm

theorem Agrees.insert (h : x.Agrees maxEntries m) {key : OrderId} {value : Nat}
    (hnew : ∀ e ∈ m, e.1 ≠ key ∧ e.2 ≠ value) (hroom : m.length < maxEntries) (hne : value ≠ kNil) :
    ∃ y, x.insert key value = some y ∧ y.Agrees maxEntries ((key, value) :: m) := by
  have hfresh : ∀ s, x.Holds s → s.value ≠ value := by
    intro s hs
    obtain ⟨e, he, rfl⟩ := (h.holds s).mp hs
    exact (hnew e he).2
  obtain ⟨y, hy, hok, hsize, hhash, _, hbits, hholds⟩ :=
    insert_spec h.ok key hne (by rw [h.size]; exact hroom) hfresh
  refine ⟨y, hy, hok, fun s => ?_, ?_, ?_, ?_, ?_⟩
  · rw [hholds, h.holds, hhash, hbits]
    simp only [List.mem_cons, exists_eq_or_imp]
  · rw [List.map_cons, List.nodup_cons]
    refine ⟨fun hk => ?_, h.keys⟩
    obtain ⟨e, he, heq⟩ := List.mem_map.mp hk
    exact (hnew e he).1 heq
  · rw [List.map_cons, List.nodup_cons]
    refine ⟨fun hk => ?_, h.slots⟩
    obtain ⟨e, he, heq⟩ := List.mem_map.mp hk
    exact (hnew e he).2 heq
  · intro e he
    rcases List.mem_cons.mp he with rfl | he
    · exact hne
    · exact h.nil e he
  · rw [hsize, h.size, List.length_cons]

private theorem length_without (h : (m.map Prod.fst).Nodup) {e : OrderId × Nat} (he : e ∈ m) :
    (m.without e.1).length + 1 = m.length := by
  have hone : m.without e.1 = m.erase e := by
    rw [List.Nodup.erase_eq_filter h.of_map]
    refine List.filter_congr fun f hf => ?_
    by_cases hk : f.1 = e.1
    · simp [key_injective h hf he hk]
    · have : f ≠ e := fun heq => hk (by rw [heq])
      simp [hk, this]
  rw [hone, List.length_erase_of_mem he]
  have := List.length_pos_of_mem he
  omega

theorem Agrees.without (h : x.Agrees maxEntries m) {e : OrderId × Nat} (he : e ∈ m)
    (hok : y.Ok maxEntries) (hsize : y.size + 1 = x.size) (hhash : y.hash = x.hash)
    (hbits : y.bits = x.bits) (hholds : ∀ s, y.Holds s ↔ x.Holds s ∧ s.value ≠ e.2) :
    y.Agrees maxEntries (m.without e.1) := by
  have hsub : (m.without e.1).Sublist m := List.filter_sublist
  refine ⟨hok, fun s => ?_, h.keys.sublist (hsub.map _), h.slots.sublist (hsub.map _),
    fun f hf => h.nil f (hsub.subset hf), ?_⟩
  · rw [hholds, h.holds, hhash, hbits]
    constructor
    · rintro ⟨⟨f, hf, rfl⟩, hne⟩
      refine ⟨f, List.mem_filter.mpr ⟨hf, ?_⟩, rfl⟩
      exact decide_eq_true fun hk => hne (congrArg Prod.snd (key_injective h.keys hf he hk))
    · rintro ⟨f, hf, rfl⟩
      obtain ⟨hf, hk⟩ := List.mem_filter.mp hf
      refine ⟨⟨f, hf, rfl⟩, fun hv => ?_⟩
      exact of_decide_eq_true hk (congrArg Prod.fst (slot_injective h.slots hf he hv))
  · have := length_without h.keys he
    have := h.size
    omega

theorem Agrees.eraseKnown (h : x.Agrees maxEntries m) {key : OrderId} {value : Nat}
    (hm : (key, value) ∈ m) :
    ∃ y, x.eraseKnown key value = some y ∧ y.Agrees maxEntries (m.without key) := by
  obtain ⟨y, hy, hok, hsize, hhash, _, hbits, hholds⟩ :=
    eraseKnown_spec h.ok key ((h.holds _).mpr ⟨_, hm, rfl⟩)
  exact ⟨y, hy, h.without hm hok hsize hhash hbits hholds⟩

theorem Agrees.erase (h : x.Agrees maxEntries m) (key : OrderId) {keyOf : Nat → OrderId}
    (hkey : m.Consistent keyOf) :
    ∃ y, x.erase key keyOf = some (m.slotOf key, y) ∧ y.Agrees maxEntries (m.without key) := by
  obtain ⟨v, y, hy, hfind, hok, hhash, _, hbits, hsame, hsize, hholds⟩ := erase_spec h.ok key keyOf
  rw [h.find key hkey] at hfind
  obtain rfl := Option.some.inj hfind
  refine ⟨y, hy, ?_⟩
  by_cases hin : ∃ e ∈ m, e.1 = key
  · obtain ⟨e, he, rfl⟩ := hin
    have hslot : m.slotOf e.1 = e.2 := slotOf_of_mem h.keys he
    rw [hslot] at hsize hholds
    exact h.without he hok (hsize (h.nil e he)) hhash hbits hholds
  · have hnone : ∀ e ∈ m, e.1 ≠ key := fun e he heq => hin ⟨e, he, heq⟩
    rw [hsame (slotOf_of_notMem hnone), IndexMap.without, List.filter_eq_self.mpr fun e he =>
      decide_eq_true (hnone e he)]
    exact h

theorem Agrees.exec (h : x.Agrees maxEntries m) {c : TableCall} (hc : c.Allowed maxEntries m) :
    ∃ y, c.exec x = some (y, (c.spec m).2) ∧ y.Agrees maxEntries (c.spec m).1 := by
  cases c with
  | insert key value =>
      obtain ⟨y, hy, h'⟩ := h.insert hc.1 hc.2.1 hc.2.2
      exact ⟨y, by rw [TableCall.exec, hy]; rfl, h'⟩
  | find key keyOf => exact ⟨x, by rw [TableCall.exec, h.find key hc]; rfl, h⟩
  | erase key keyOf =>
      obtain ⟨y, hy, h'⟩ := h.erase key hc
      exact ⟨y, by rw [TableCall.exec, hy]; rfl, h'⟩
  | eraseKnown key value =>
      obtain ⟨y, hy, h'⟩ := h.eraseKnown hc
      exact ⟨y, by rw [TableCall.exec, hy]; rfl, h'⟩

theorem Agrees.run (h : x.Agrees maxEntries m) {calls : List TableCall}
    (hc : TableCall.Respects maxEntries m calls) :
    ∃ y, TableCall.run x calls = some (y, (TableCall.specRun m calls).2) ∧
      y.Agrees maxEntries (TableCall.specRun m calls).1 := by
  induction calls generalizing x m with
  | nil => exact ⟨x, rfl, h⟩
  | cons c cs ih =>
      obtain ⟨y, hy, h1⟩ := h.exec hc.1
      obtain ⟨z, hz, h2⟩ := ih h1 hc.2
      refine ⟨z, ?_, h2⟩
      rw [TableCall.run, hy]
      simp only [Option.bind_eq_bind, Option.bind_some, hz]
      rfl

theorem agrees_make (hash : IndexHash) (hmax : maxEntries ≤ 2 ^ 30) :
    (make hash maxEntries).Agrees maxEntries [] where
  ok := ok_make hash (Nat.lt_of_le_of_lt hmax (by decide))
  holds s := by
    constructor
    · rintro ⟨i, _, hs⟩
      simp [make, view] at hs
    · rintro ⟨e, he, _⟩
      cases he
  keys := List.nodup_nil
  slots := List.nodup_nil
  nil _ he := nomatch he
  size := rfl

private theorem Ok.back {cap : Nat} (ok : x.Ok cap) {i : Nat} (hi : i < x.mask + 1) :
    ∃ p < x.mask + 1, (i + 2 ^ 32 - 1) % 2 ^ 32 &&& x.mask = p ∧
    RobinHood.next (x.mask + 1) p = i := by
  obtain ⟨b, hb32, hb⟩ := ok.pow
  have hle : x.mask + 1 ≤ 2 ^ 32 := by
    rw [hb]
    exact Nat.pow_le_pow_right (by decide) hb32
  have hmask : ∀ a, a &&& x.mask = a % (x.mask + 1) := by
    intro a
    have hmask : x.mask = 2 ^ b - 1 := by omega
    rw [hb, hmask, Nat.and_two_pow_sub_one_eq_mod]
  have hmod : (i + 2 ^ 32 - 1) % 2 ^ 32 % (x.mask + 1) = (i + 2 ^ 32 - 1) % (x.mask + 1) :=
    Nat.mod_mod_of_dvd _ (by rw [hb]; exact Nat.pow_dvd_pow 2 hb32)
  rw [hmask, hmod]
  by_cases hzero : i = 0
  · have hdvd : x.mask + 1 ∣ 2 ^ 32 := by
      rw [hb]
      exact Nat.pow_dvd_pow 2 hb32
    obtain ⟨k, hk⟩ := hdvd
    have hlast : (i + 2 ^ 32 - 1) % (x.mask + 1) = x.mask := by
      obtain ⟨j, rfl⟩ : ∃ j, k = j + 1 := Nat.exists_eq_succ_of_ne_zero (by rintro rfl; omega)
      have : i + 2 ^ 32 - 1 = x.mask + (x.mask + 1) * j := by
        rw [hk, Nat.mul_add, Nat.mul_one]
        omega
      rw [this, Nat.add_mul_mod_self_left]
      exact Nat.mod_eq_of_lt (Nat.lt_succ_self _)
    refine ⟨x.mask, Nat.lt_succ_self _, hlast, ?_⟩
    rw [RobinHood.next, if_pos rfl, hzero]
  · have hprev : (i + 2 ^ 32 - 1) % (x.mask + 1) = i - 1 := by
      have : i + 2 ^ 32 - 1 = i - 1 + 2 ^ 32 := by omega
      rw [this, hb, Nat.add_mod, (Nat.dvd_iff_mod_eq_zero).mp (Nat.pow_dvd_pow 2 hb32),
        Nat.add_zero, Nat.mod_mod, ← hb]
      exact Nat.mod_eq_of_lt (by omega)
    refine ⟨i - 1, by omega, hprev, ?_⟩
    rw [RobinHood.next, if_neg (by omega)]
    omega

theorem Ok.robinHoodOrdered {cap : Nat} (ok : x.Ok cap) (hmask : x.mask + 1 < 2 ^ 32) :
    x.robinHoodOrdered = true := by
  refine List.all_eq_true.mpr fun i hi => ?_
  rw [List.mem_range] at hi
  obtain ⟨p, hp, hback, hnext⟩ := ok.back hi
  simp only [hback]
  split
  · rfl
  rename_i hval
  have hview : view x.slots (RobinHood.next (x.mask + 1) p) = some (x.slots i) := by
    rw [hnext, view, if_neg hval]
  by_cases hzero : x.dist i (x.slots i).fp = 0
  · rw [hzero]
    rfl
  have hd := ok.dist_eq hi (x.slots i)
  obtain ⟨a, ha, hle⟩ := ok.ordered p hp _ hview (by rw [hnext, ← hd]; exact hzero)
  have hpval : (x.slots p).value ≠ kNil := by
    intro hnil
    rw [view, if_pos hnil] at ha
    cases ha
  have hslot : a = x.slots p := by
    rw [view, if_neg hpval] at ha
    exact (Option.some.inj ha).symm
  subst hslot
  have hdp := ok.dist_eq hp (x.slots p)
  have hlt := RobinHood.dist_lt hp (ok.home_lt (x.slots p))
  rw [hnext, ← hd, ← hdp] at hle
  rw [← hdp] at hlt
  rw [Nat.mod_eq_of_lt (by omega)]
  simp [hpval, hle]

theorem make_mask_lt (hash : IndexHash) (hmax : maxEntries ≤ 2 ^ 30) :
    (make hash maxEntries).mask + 1 < 2 ^ 32 := by
  have hlog : Nat.clog 2 (max (2 * maxEntries) 16) ≤ 31 :=
    Nat.clog_le_of_le_pow (Nat.max_le.mpr ⟨by omega, by decide⟩)
  have hpow : bitCeil (max (2 * maxEntries) 16) ≤ 2 ^ 31 := Nat.pow_le_pow_right (by decide) hlog
  have : (make hash maxEntries).mask ≤ bitCeil (max (2 * maxEntries) 16) - 1 := Nat.mod_le _ _
  omega

theorem exec_mask {c : TableCall} {r : Option Nat} (h : c.exec x = some (y, r)) :
    y.mask = x.mask := by
  have hremove : ∀ i z, x.removeAt i = some z → z.mask = x.mask := by
    intro i z hz
    rw [removeAt] at hz
    obtain ⟨slots, _, hz⟩ := Option.bind_eq_some_iff.mp hz
    cases hz
    rfl
  cases c with
  | insert key value =>
      obtain ⟨z, hz, he⟩ := Option.map_eq_some_iff.mp h
      cases he
      rw [insert] at hz
      obtain ⟨slots, _, hz⟩ := Option.bind_eq_some_iff.mp hz
      cases hz
      rfl
  | find key keyOf =>
      obtain ⟨v, _, he⟩ := Option.map_eq_some_iff.mp h
      cases he
      rfl
  | erase key keyOf =>
      obtain ⟨⟨v, z⟩, hz, he⟩ := Option.map_eq_some_iff.mp h
      cases he
      rw [erase] at hz
      obtain ⟨p, _, hz⟩ := Option.bind_eq_some_iff.mp hz
      cases p with
      | none =>
          cases hz
          rfl
      | some i =>
          obtain ⟨z', hz', he⟩ := Option.bind_eq_some_iff.mp hz
          cases he
          exact hremove i _ hz'
  | eraseKnown key value =>
      obtain ⟨z, hz, he⟩ := Option.map_eq_some_iff.mp h
      cases he
      rw [eraseKnown] at hz
      obtain ⟨i, _, hz⟩ := Option.bind_eq_some_iff.mp hz
      exact hremove i _ hz

theorem run_mask {calls : List TableCall} {rs : List (Option Nat)}
    (h : TableCall.run x calls = some (y, rs)) :
    y.mask = x.mask := by
  induction calls generalizing x rs with
  | nil =>
      cases h
      rfl
  | cons c cs ih =>
      rw [TableCall.run] at h
      obtain ⟨⟨z, r⟩, hz, h⟩ := Option.bind_eq_some_iff.mp h
      obtain ⟨⟨w, rs'⟩, hw, h⟩ := Option.bind_eq_some_iff.mp h
      cases h
      exact (ih hw).trans (exec_mask hz)

/-- Whatever the fingerprints are, every sequence of calls that meets the preconditions returns,
call by call, what a finite map returns; afterwards every lookup finds what the map has, the size is
the number of keys, and the table is in Robin Hood order. -/
theorem index_is_finite_map (hash : IndexHash) (maxEntries : Nat) (_hmin : 1 ≤ maxEntries)
    (hmax : maxEntries ≤ 2 ^ 30) (calls : List TableCall)
    (respects : TableCall.Respects maxEntries [] calls) :
    ∃ x, TableCall.run (make hash maxEntries) calls = some (x, (TableCall.specRun [] calls).2) ∧
      (∀ key keyOf, (TableCall.specRun [] calls).1.Consistent keyOf →
        x.find key keyOf = some ((TableCall.specRun [] calls).1.slotOf key)) ∧
      x.size = (TableCall.specRun [] calls).1.length ∧ x.robinHoodOrdered = true := by
  obtain ⟨x, hx, h⟩ := (agrees_make hash hmax).run respects
  refine ⟨x, hx, fun key keyOf hk => h.find key hk, h.size, h.ok.robinHoodOrdered ?_⟩
  rw [run_mask hx]
  exact make_mask_lt hash hmax

/-- Three orders with the same fingerprint, one of them known to the caller when it goes. -/
def colliding : List TableCall :=
  let keyOf : Nat → OrderId := fun v => UInt64.ofNat v + 10
  [.insert 15 5, .insert 16 6, .insert 17 7, .find 16 keyOf, .eraseKnown 15 5, .find 17 keyOf,
    .erase 16 keyOf, .find 16 keyOf]

theorem index_is_finite_map_colliding : TableCall.Respects 4 [] colliding ∧
    ∃ x, TableCall.run (make ⟨fun _ _ => 3⟩ 4) colliding =
        some (x, [none, none, none, some 6, none, some 7, some 6, some kNil]) ∧
      x.size = 1 ∧ x.robinHoodOrdered = true := by
  have respects : TableCall.Respects 4 [] colliding := by
    simp [colliding, TableCall.Respects, TableCall.Allowed, TableCall.spec, IndexMap.Consistent,
      IndexMap.without, kNil]
  obtain ⟨x, hx, _, hsize, hord⟩ :=
    index_is_finite_map ⟨fun _ _ => 3⟩ 4 (by decide) (by decide) colliding respects
  exact ⟨respects, x, hx, hsize, hord⟩

end OrderIndex
end ExchangeSim.Book
