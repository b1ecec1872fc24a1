/- digest: Resting-order slabs in three memory layouts with one embedded free list. -/

import ExchangeSim.Common
import ExchangeSim.Lib.Fifo

set_option autoImplicit false
set_option relaxedAutoImplicit false

namespace ExchangeSim.Book

open ExchangeSim.Lib

structure OrderRecord where
  id : OrderId
  qty : Qty
  next : Nat
  prev : Nat
  level : Nat
  owner : OwnerId
  side : Side

/-- A memory layout: where each field of a slot lives. The laws say that the accessors
of a slot behave as one record, whatever the layout. -/
class StoreLayout (σ : Type) where
  zeroed : σ
  record : σ → Nat → OrderRecord
  setQty : σ → Nat → Qty → σ
  setNext : σ → Nat → Nat → σ
  setPrev : σ → Nat → Nat → σ
  init : σ → Nat → OrderId → Qty → Nat → OwnerId → Side → UInt64 → σ
  record_setQty : ∀ st s q, record (setQty st s q) =
    Function.update (record st) s { record st s with qty := q }
  record_setNext : ∀ st s n, record (setNext st s n) =
    Function.update (record st) s { record st s with next := n }
  record_setPrev : ∀ st s p, record (setPrev st s p) =
    Function.update (record st) s { record st s with prev := p }
  record_init : ∀ st s id q lv o sd ts, record (init st s id q lv o sd ts) =
    Function.update (record st) s
      { record st s with id := id, qty := q, level := lv, owner := o, side := sd }

structure AosOrder where
  id : OrderId
  ts : UInt64
  qty : Qty
  origQty : Qty
  next : Nat
  prev : Nat
  level : Nat
  owner : OwnerId
  side : Side
  flags : UInt8

structure AosStore where
  o : PageArray AosOrder

instance : StoreLayout AosStore where
  zeroed := ⟨fun _ => ⟨0, 0, 0, 0, 0, 0, 0, 0, .buy, 0⟩⟩
  record st s :=
    let o := st.o s
    ⟨o.id, o.qty, o.next, o.prev, o.level, o.owner, o.side⟩
  setQty st s q := ⟨Function.update st.o s { st.o s with qty := q }⟩
  setNext st s n := ⟨Function.update st.o s { st.o s with next := n }⟩
  setPrev st s p := ⟨Function.update st.o s { st.o s with prev := p }⟩
  init st s id q lv o sd ts := ⟨Function.update st.o s
    { st.o s with id := id, ts := ts, qty := q, origQty := q, level := lv, owner := o, side := sd,
                  flags := 0 }⟩
  record_setQty := by intro st s q; funext j; by_cases h : j = s <;> simp [h]
  record_setNext := by intro st s n; funext j; by_cases h : j = s <;> simp [h]
  record_setPrev := by intro st s p; funext j; by_cases h : j = s <;> simp [h]
  record_init := by intro st s id q lv o sd ts; funext j; by_cases h : j = s <;> simp [h]

structure SoaStore where
  id : PageArray OrderId
  ts : PageArray UInt64
  qty : PageArray Qty
  origQty : PageArray Qty
  next : PageArray Nat
  prev : PageArray Nat
  level : PageArray Nat
  owner : PageArray OwnerId
  side : PageArray Side

instance : StoreLayout SoaStore where
  zeroed := ⟨fun _ => 0, fun _ => 0, fun _ => 0, fun _ => 0, fun _ => 0, fun _ => 0, fun _ => 0,
    fun _ => 0, fun _ => .buy⟩
  record st s := ⟨st.id s, st.qty s, st.next s, st.prev s, st.level s, st.owner s, st.side s⟩
  setQty st s q := { st with qty := Function.update st.qty s q }
  setNext st s n := { st with next := Function.update st.next s n }
  setPrev st s p := { st with prev := Function.update st.prev s p }
  init st s id q lv o sd ts :=
    { st with
      id := Function.update st.id s id
      ts := Function.update st.ts s ts
      qty := Function.update st.qty s q
      origQty := Function.update st.origQty s q
      level := Function.update st.level s lv
      owner := Function.update st.owner s o
      side := Function.update st.side s sd }
  record_setQty := by intro st s q; funext j; by_cases h : j = s <;> simp [h]
  record_setNext := by intro st s n; funext j; by_cases h : j = s <;> simp [h]
  record_setPrev := by intro st s p; funext j; by_cases h : j = s <;> simp [h]
  record_init := by intro st s id q lv o sd ts; funext j; by_cases h : j = s <;> simp [h]

structure HybridRecord where
  id : OrderId
  qty : Qty
  next : Nat
  prev : Nat
  level : Nat
  owner : OwnerId
  side : Side
  flags : UInt8

structure HybridAudit where
  ts : UInt64
  origQty : Qty

structure HybridStore where
  hot : PageArray HybridRecord
  audit : PageArray HybridAudit

instance : StoreLayout HybridStore where
  zeroed := ⟨fun _ => ⟨0, 0, 0, 0, 0, 0, .buy, 0⟩, fun _ => ⟨0, 0⟩⟩
  record st s :=
    let r := st.hot s
    ⟨r.id, r.qty, r.next, r.prev, r.level, r.owner, r.side⟩
  setQty st s q := { st with hot := Function.update st.hot s { st.hot s with qty := q } }
  setNext st s n := { st with hot := Function.update st.hot s { st.hot s with next := n } }
  setPrev st s p := { st with hot := Function.update st.hot s { st.hot s with prev := p } }
  init st s id q lv o sd ts :=
    { hot := Function.update st.hot s
        { st.hot s with id := id, qty := q, level := lv, owner := o, side := sd, flags := 0 }
      audit := Function.update st.audit s ⟨ts, q⟩ }
  record_setQty := by intro st s q; funext j; by_cases h : j = s <;> simp [h]
  record_setNext := by intro st s n; funext j; by_cases h : j = s <;> simp [h]
  record_setPrev := by intro st s p; funext j; by_cases h : j = s <;> simp [h]
  record_init := by intro st s id q lv o sd ts; funext j; by_cases h : j = s <;> simp [h]

structure FreeListStore (σ : Type) where
  layout : σ
  free : Nat
  cap : Nat
  live : Nat

namespace FreeListStore

variable {σ : Type} [StoreLayout σ]

abbrev record (st : FreeListStore σ) : Nat → OrderRecord := StoreLayout.record st.layout
abbrev id (st : FreeListStore σ) (s : Nat) : OrderId := (st.record s).id
abbrev qty (st : FreeListStore σ) (s : Nat) : Qty := (st.record s).qty
abbrev next (st : FreeListStore σ) (s : Nat) : Nat := (st.record s).next
abbrev prev (st : FreeListStore σ) (s : Nat) : Nat := (st.record s).prev
abbrev level (st : FreeListStore σ) (s : Nat) : Nat := (st.record s).level
abbrev owner (st : FreeListStore σ) (s : Nat) : OwnerId := (st.record s).owner
abbrev side (st : FreeListStore σ) (s : Nat) : Side := (st.record s).side

def setQty (st : FreeListStore σ) (s : Nat) (q : Qty) : FreeListStore σ :=
  { st with layout := StoreLayout.setQty st.layout s q }

def setNext (st : FreeListStore σ) (s n : Nat) : FreeListStore σ :=
  { st with layout := StoreLayout.setNext st.layout s n }

def setPrev (st : FreeListStore σ) (s p : Nat) : FreeListStore σ :=
  { st with layout := StoreLayout.setPrev st.layout s p }

def init (st : FreeListStore σ) (s : Nat) (id : OrderId) (qty : Qty) (level : Nat) (owner : OwnerId)
    (side : Side) (ts : UInt64) : FreeListStore σ :=
  { st with layout := StoreLayout.init st.layout s id qty level owner side ts }

/-- Pops the free list; `kNil` when it is empty. -/
def alloc (st : FreeListStore σ) : Nat × FreeListStore σ :=
  let s := st.free
  if s ≠ kNil then (s, { st with free := st.next s, live := st.live + 1 }) else (s, st)

def release (st : FreeListStore σ) (s : Nat) : FreeListStore σ :=
  { st.setNext s st.free with free := s, live := st.live - 1 }

def buildFreeList (cap : Nat) (st : FreeListStore σ) : FreeListStore σ :=
  let st := (List.range cap).foldl
    (fun st i => setNext st i (if i + 1 < cap then i + 1 else kNil)) { st with cap := cap }
  { st with free := if cap ≠ 0 then 0 else kNil }

def make (cap : Nat) : FreeListStore σ :=
  buildFreeList cap ⟨StoreLayout.zeroed, kNil, 0, 0⟩

section Records

variable (st : FreeListStore σ) (s : Nat)

@[simp] theorem record_setQty (q : Qty) : (st.setQty s q).record =
    Function.update st.record s { st.record s with qty := q } := StoreLayout.record_setQty _ _ _
@[simp] theorem record_setNext (n : Nat) : (st.setNext s n).record =
    Function.update st.record s { st.record s with next := n } := StoreLayout.record_setNext _ _ _
@[simp] theorem record_setPrev (p : Nat) : (st.setPrev s p).record =
    Function.update st.record s { st.record s with prev := p } := StoreLayout.record_setPrev _ _ _
@[simp] theorem record_init (id : OrderId) (q : Qty) (lv : Nat) (o : OwnerId)
    (sd : Side) (ts : UInt64) :
    (st.init s id q lv o sd ts).record = Function.update st.record s
      { st.record s with id := id, qty := q, level := lv, owner := o, side := sd } :=
  StoreLayout.record_init ..
@[simp] theorem record_release : (st.release s).record =
    Function.update st.record s { st.record s with next := st.free } :=
  StoreLayout.record_setNext _ _ _

theorem setQty_at (q : Qty) (t : Nat) :
    (st.setQty s q).record t = { st.record t with qty := Function.update st.qty s q t } := by
  rw [record_setQty]
  by_cases h : t = s
  · subst h; simp
  · simp [Function.update_of_ne h]

theorem setNext_at (n t : Nat) :
    (st.setNext s n).record t = { st.record t with next := Function.update st.next s n t } := by
  rw [record_setNext]
  by_cases h : t = s
  · subst h; simp
  · simp [Function.update_of_ne h]

theorem prev_setNext (n : Nat) : (st.setNext s n).prev = st.prev := by
  funext t
  simp only [prev, setNext_at]

theorem setPrev_at (p t : Nat) :
    (st.setPrev s p).record t = { st.record t with prev := Function.update st.prev s p t } := by
  rw [record_setPrev]
  by_cases h : t = s
  · subst h; simp
  · simp [Function.update_of_ne h]

theorem init_at (id : OrderId) (q : Qty) (lv : Nat) (o : OwnerId) (sd : Side)
    (ts : UInt64) (t : Nat) :
    (st.init s id q lv o sd ts).record t = if t = s
      then { st.record t with id := id, qty := q, level := lv, owner := o, side := sd }
        else st.record t := by
  rw [record_init]
  by_cases h : t = s
  · subst h; simp
  · simp [h]

theorem next_setNext (n : Nat) : (st.setNext s n).next = Function.update st.next s n := by
  funext t
  simp only [next, setNext_at]

theorem next_setPrev (p : Nat) : (st.setPrev s p).next = st.next := by
  funext t
  simp only [next, setPrev_at]

theorem next_init (id : OrderId) (q : Qty) (lv : Nat) (o : OwnerId) (sd : Side) (ts : UInt64) :
    (st.init s id q lv o sd ts).next = st.next := by
  funext t
  simp only [next, init_at]
  split <;> rfl

theorem prev_init (id : OrderId) (q : Qty) (lv : Nat) (o : OwnerId) (sd : Side) (ts : UInt64) :
    (st.init s id q lv o sd ts).prev = st.prev := by
  funext t
  simp only [prev, init_at]
  split <;> rfl

theorem release_at (t : Nat) :
    (st.release s).record t = { st.record t with next := Function.update st.next s st.free t } :=
  setNext_at st s st.free t

end Records

/-- The free list of a store, front first. -/
def Free (st : FreeListStore σ) (l : List Nat) : Prop := Fifo.Seg kNil st.next st.free l kNil

private theorem record_build (cap : Nat) (st : FreeListStore σ) (k : Nat) :
    let st' := (List.range k).foldl
      (fun st i => setNext st i (if i + 1 < cap then i + 1 else kNil)) st
    st'.live = st.live ∧ st'.cap = st.cap ∧
      ∀ i < k, st'.next i = if i + 1 < cap then i + 1 else kNil := by
  induction k with
  | zero => simp
  | succ k ih =>
      obtain ⟨hlive, hcap, hnext⟩ := ih
      rw [List.range_succ, List.foldl_append]
      simp only [List.foldl_cons, List.foldl_nil]
      refine ⟨hlive, hcap, fun i hi => ?_⟩
      rw [next, record_setNext]
      by_cases h : i = k
      · subst h
        rw [Function.update_self]
      · rw [Function.update_of_ne h]
        exact hnext i (by omega)

theorem free_make (cap : Nat) (hcap : cap ≤ kNil) :
    (make cap : FreeListStore σ).Free (List.range cap) ∧ (make cap : FreeListStore σ).live = 0 ∧
      (make cap : FreeListStore σ).cap = cap := by
  obtain ⟨hlive, hc, hnext⟩ :=
    record_build cap (⟨StoreLayout.zeroed, kNil, cap, 0⟩ : FreeListStore σ) cap
  refine ⟨?_, hlive, hc⟩
  have hseg : ∀ k ≤ cap, Fifo.Seg kNil (make cap : FreeListStore σ).next
      (if k < cap then k else kNil) (List.range' k (cap - k)) kNil := by
    intro k hk
    induction hj : cap - k generalizing k with
    | zero => simp [Fifo.Seg, show ¬ k < cap by omega]
    | succ j ih =>
        have hlt : k < cap := by omega
        rw [if_pos hlt, List.range'_succ]
        refine ⟨rfl, by omega, ?_⟩
        have := hnext k hlt
        have hstep := ih (k + 1) (by omega) (by omega)
        change Fifo.Seg kNil _ (FreeListStore.next _ k) _ _
        rw [show (make cap : FreeListStore σ).next k = if k + 1 < cap then k + 1
          else kNil from this]
        exact hstep
  have h0 := hseg 0 (Nat.zero_le _)
  rw [List.range_eq_range']
  unfold Free
  rw [show (make cap : FreeListStore σ).free = if 0 < cap then 0 else kNil by
    simp [make, buildFreeList, Nat.pos_iff_ne_zero]]
  simpa using h0

end FreeListStore
end ExchangeSim.Book
