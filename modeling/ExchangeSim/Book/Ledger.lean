/- digest: The event stream alone rebuilds the book, and every accepted lot is accounted for
   once. -/

import ExchangeSim.Book.Audit

set_option autoImplicit false
set_option relaxedAutoImplicit false

namespace ExchangeSim.Book

open PriorityBook (Rules Outcome ahead lookup eraseId join Distinct)

structure OpenOrder where
  id : OrderId
  side : Side
  price : Price
  qty : Qty
  deriving DecidableEq

structure Account where
  accepted : Nat := 0
  filled : Nat := 0
  decremented : Nat := 0
  canceled : Nat := 0

/-- The fold state: the resting orders, each behind those that joined before it, and the
order the current command works on. -/
structure Ledger where
  resting : List OpenOrder := []
  working : Option OpenOrder := none
  account : OrderId → Account := fun _ => {}

namespace Ledger

def find (l : Ledger) (id : OrderId) : Option OpenOrder := l.resting.find? (·.id = id)

/-- The order an event names. -/
def order (l : Ledger) (id : OrderId) : Option OpenOrder :=
  match l.working with
  | some w => if w.id = id then some w else l.find id
  | none => l.find id

/-- An order with nothing left is gone. -/
def held (o : OpenOrder) : Option OpenOrder := if o.qty = 0 then none else some o

/-- The named order is left with this quantity. -/
def shrink (l : Ledger) (id : OrderId) (q : Qty) : Ledger :=
  { l with
    resting := l.resting.filterMap fun o => if o.id = id then held { o with qty := q } else some o
    working := l.working.bind fun w => if w.id = id then held { w with qty := q } else some w }

def charge (l : Ledger) (id : OrderId) (f : Account → Account) : Ledger :=
  { l with account := Function.update l.account id (f (l.account id)) }

/-- One event. `none` if the event does not fit what the earlier events said. -/
def apply (l : Ledger) (e : Event) : Option Ledger :=
  match e.type with
  | .accepted =>
      if l.working = none ∧ l.find e.orderId = none then
        some (charge { l with working := held ⟨e.orderId, e.side, e.price, e.qty⟩ } e.orderId
          fun a => { a with accepted := a.accepted + e.qty.toNat })
      else none
  | .rejected => some l
  | .trade =>
      match l.working, l.find e.makerId with
      | some taker, some maker =>
          if taker.id = e.orderId ∧ e.qty ≤ taker.qty ∧ e.qty ≤ maker.qty ∧
              e.leaves = maker.qty - e.qty then
            let fill := fun a : Account => { a with filled := a.filled + e.qty.toNat }
            some ((((l.shrink taker.id (taker.qty - e.qty)).charge taker.id fill).shrink maker.id
              e.leaves).charge
              maker.id fill)
          else none
      | _, _ => none
  | .canceled =>
      match l.order e.orderId with
      | some o =>
          if e.qty = o.qty then
            some ((l.shrink o.id 0).charge o.id fun a =>
              { a with canceled := a.canceled + o.qty.toNat })
          else none
      | none => none
  | .modified =>
      if e.reason = .selfTrade then
        match l.order e.orderId with
        | some o =>
            if e.qty ≤ o.qty then
              some ((l.shrink o.id e.qty).charge o.id
                fun a => { a with decremented := a.decremented + (o.qty - e.qty).toNat })
            else none
        | none => none
      else if l.working = none then
        match l.find e.orderId with
        | some o =>
            -- lots taken off by an amendment count as cancelled, lots added as accepted
            let amend := fun a : Account =>
              { a with
                accepted := a.accepted + (e.qty.toNat - o.qty.toNat)
                canceled := a.canceled + (o.qty.toNat - e.qty.toNat) }
            if e.price = o.price ∧ e.qty ≤ o.qty then some ((l.shrink o.id e.qty).charge o.id amend)
            else
              some (charge { l.shrink o.id 0 with
                working := held { o with price := e.price, qty := e.qty } }
              o.id amend)
        | none => none
      else none

/-- The end of a command: what is left of the working order joins the back of its queue. -/
def close (l : Ledger) : Ledger :=
  { l with resting := l.resting ++ l.working.toList, working := none }

def applyAll (l : Ledger) (evs : List Event) : Option Ledger := evs.foldlM apply l

def command (l : Ledger) (evs : List Event) : Option Ledger := (l.applyAll evs).map close

/-- The events of a run, command by command. -/
def replay (l : Ledger) (evss : List (List Event)) : Option Ledger := evss.foldlM command l

/-- The queue at a price: (price, id, quantity), oldest first. -/
def queue (l : Ledger) (S : Side) (p : Price) : List (Price × OrderId × Qty) :=
  (l.resting.filter fun o => o.side = S ∧ o.price = p).map fun o => (o.price, o.id, o.qty)

/-! ### The accounts balance -/

/-- The lots of an id that are still open. -/
def openQty (l : Ledger) (id : OrderId) : Nat := (l.order id).elim 0 fun o => o.qty.toNat

structure Balanced (l : Ledger) : Prop where
  fresh : ∀ w, l.working = some w → l.find w.id = none
  balance : ∀ id, (l.account id).accepted =
    (l.account id).filled + (l.account id).decremented + (l.account id).canceled + l.openQty id

theorem find_shrink (l : Ledger) (id : OrderId) (q : Qty) (i : OrderId) :
    (l.shrink id q).find i = if i = id then (l.find i).bind fun o =>
      held { o with qty := q } else l.find i := by
  simp only [find, shrink]
  induction l.resting with
  | nil => simp
  | cons o os ih =>
      by_cases ho : o.id = id
      · by_cases hi : i = id
        · subst hi
          rw [if_pos rfl] at ih ⊢
          by_cases hq : q = 0
          · rw [List.filterMap_cons_none (by simp [ho, held, hq]), ih]
            simp [held, hq]
          · rw [List.filterMap_cons_some (b := { o with qty := q }) (by simp [ho, held, hq])]
            simp [ho, held, hq]
        · rw [if_neg hi] at ih ⊢
          rw [List.find?_cons_of_neg (by simp [ho, Ne.symm hi]), ← ih]
          by_cases hq : q = 0
          · rw [List.filterMap_cons_none (by simp [ho, held, hq])]
          · rw [List.filterMap_cons_some (b := { o with qty := q }) (by simp [ho, held, hq]),
              List.find?_cons_of_neg (by simp [ho, Ne.symm hi])]
      · rw [List.filterMap_cons_some (b := o) (by simp [ho])]
        by_cases hoi : o.id = i
        · simp [hoi, show i ≠ id from hoi ▸ ho]
        · rw [List.find?_cons_of_neg (by simp [hoi]), List.find?_cons_of_neg (by simp [hoi]), ih]

theorem find_id {l : Ledger} {id : OrderId} {o : OpenOrder} (h : l.find id = some o) :
    o.id = id := by
  simpa using List.find?_some h

theorem order_id {l : Ledger} {id : OrderId} {o : OpenOrder} (h : l.order id = some o) :
    o.id = id := by
  rw [order] at h
  split at h
  · split at h
    · rename_i hw
      cases h
      exact hw
    · exact find_id h
  · exact find_id h

theorem Balanced.fresh_shrink {l : Ledger} (h : ∀ w, l.working = some w → l.find w.id = none)
    (id : OrderId) (q : Qty) :
    ∀ w, (l.shrink id q).working = some w → (l.shrink id q).find w.id = none := by
  intro w hw
  obtain ⟨w₀, hw₀, hstep⟩ := Option.bind_eq_some_iff.mp hw
  have hid : w.id = w₀.id := by
    split at hstep
    · rw [held] at hstep
      split at hstep
      · cases hstep
      · cases hstep
        rfl
    · cases hstep
      rfl
  rw [find_shrink, hid, h w₀ hw₀]
  simp

theorem order_shrink {l : Ledger} (h : ∀ w, l.working = some w → l.find w.id = none) (id : OrderId)
    (q : Qty) (i : OrderId) :
    (l.shrink id q).order i = if i = id then (l.order i).bind fun o =>
      held { o with qty := q } else l.order i := by
  cases hw : l.working with
  | none =>
      have hw' : (l.shrink id q).working = none := by simp [shrink, hw]
      simp only [order, hw, hw', find_shrink]
  | some w =>
      have hfind := h w hw
      by_cases hwid : w.id = id
      · by_cases hq : q = 0
        · have hw' : (l.shrink id q).working = none := by simp [shrink, hw, hwid, held, hq]
          simp only [order, hw, hw', find_shrink]
          by_cases hi : i = id
          · subst hi
            rw [hwid] at hfind
            simp [hwid, hfind, held, hq]
          · simp [hi, hwid, Ne.symm hi]
        · have hw' : (l.shrink id q).working = some { w with qty := q } := by
            simp [shrink, hw, hwid, held, hq]
          simp only [order, hw, hw', find_shrink]
          by_cases hi : i = id
          · subst hi
            simp [hwid, held, hq]
          · simp [hi, hwid, Ne.symm hi]
      · have hw' : (l.shrink id q).working = some w := by simp [shrink, hw, hwid]
        simp only [order, hw, hw', find_shrink]
        by_cases hi : i = id
        · subst hi
          simp [hwid]
        · simp [hi]

theorem held_elim (o : OpenOrder) : (held o).elim 0 (fun o => o.qty.toNat) = o.qty.toNat := by
  rw [held]
  split
  · rename_i h
    simp [h]
  · rfl

theorem Balanced.moved {l : Ledger} (h : l.Balanced) {id : OrderId} {o : OpenOrder}
    (ho : l.order id = some o) {q : Qty} {f : Account → Account}
    (hf : ∀ a : Account, (f a).accepted + o.qty.toNat + a.filled + a.decremented + a.canceled =
      a.accepted + q.toNat + (f a).filled + (f a).decremented + (f a).canceled) :
    ((l.shrink id q).charge id f).Balanced := by
  refine ⟨Balanced.fresh_shrink h.fresh id q, fun i => ?_⟩
  have hbal := h.balance i
  have hopen : ((l.shrink id q).charge id f).openQty i = if i = id then q.toNat
      else l.openQty i := by
    change ((l.shrink id q).order i).elim 0 _ = _
    rw [order_shrink h.fresh]
    by_cases hi : i = id
    · subst hi
      rw [if_pos rfl, if_pos rfl, ho, Option.bind_some, held_elim]
    · rw [if_neg hi, if_neg hi]
      rfl
  rw [hopen]
  by_cases hi : i = id
  · subst hi
    have hwas : l.openQty i = o.qty.toNat := by rw [openQty, ho]; rfl
    have := hf (l.account i)
    simp only [charge, shrink, Function.update_self, if_true]
    omega
  · simp only [charge, shrink, Function.update_of_ne hi, if_neg hi]
    exact hbal

theorem openQty_of_idle {l : Ledger} (hw : l.working = none) (i : OrderId) :
    l.openQty i = (l.find i).elim 0 fun o => o.qty.toNat := by
  rw [openQty, order, hw]

theorem Balanced.opened {l : Ledger} (hw : l.working = none) {o : OpenOrder}
    (ho : l.find o.id = none) {f : Account → Account}
    (hother : ∀ i, i ≠ o.id → (l.account i).accepted =
      (l.account i).filled + (l.account i).decremented + (l.account i).canceled + l.openQty i)
    (hself : (f (l.account o.id)).accepted = (f (l.account o.id)).filled +
      (f (l.account o.id)).decremented +
      (f (l.account o.id)).canceled + o.qty.toNat) :
    (charge { l with working := held o } o.id f).Balanced := by
  have hworking : ∀ w, held o = some w → w = o := by
    intro w hw
    rw [held] at hw
    split at hw
    · cases hw
    · exact (Option.some.inj hw).symm
  refine ⟨fun w hw => ?_, fun i => ?_⟩
  · rw [hworking w hw]
    exact ho
  by_cases hi : i = o.id
  · subst hi
    have hopen : (charge { l with working := held o } o.id f).openQty o.id = o.qty.toNat := by
      rw [← held_elim o]
      simp only [openQty, order, charge]
      cases hheld : held o with
      | none => exact congrArg (fun x => Option.elim x 0 fun o : OpenOrder => o.qty.toNat) ho
      | some w =>
          rw [hworking w hheld]
          simp
    rw [hopen]
    simp only [charge, Function.update_self]
    exact hself
  · have hopen : (charge { l with working := held o } o.id f).openQty i = l.openQty i := by
      rw [openQty_of_idle hw]
      simp only [openQty, order, charge]
      cases hheld : held o with
      | none => rfl
      | some w =>
          rw [hworking w hheld]
          simp only [if_neg (Ne.symm hi)]
          rfl
    rw [hopen]
    simp only [charge, Function.update_of_ne hi]
    exact hother i hi

theorem Balanced.apply {l l' : Ledger} (h : l.Balanced) {e : Event} (hl : l.apply e = some l') :
    l'.Balanced := by
  rw [Ledger.apply] at hl
  split at hl
  · split at hl
    · rename_i hguard
      obtain ⟨hw, hnone⟩ := hguard
      cases hl
      refine Balanced.opened (o := ⟨e.orderId, e.side, e.price, e.qty⟩) hw hnone
        (fun i _ => h.balance i) ?_
      have hbal := h.balance e.orderId
      rw [openQty_of_idle hw, hnone] at hbal
      simp only [Option.elim_none] at hbal ⊢
      omega
    · cases hl
  · cases hl
    exact h
  · split at hl
    · rename_i taker maker hw hm
      split at hl
      · rename_i hguard
        obtain ⟨_, htaker, hmaker, hleaves⟩ := hguard
        cases hl
        have hne : maker.id ≠ taker.id := by
          intro heq
          have := h.fresh taker hw
          rw [← heq, find_id hm, hm] at this
          cases this
        have hot : l.order taker.id = some taker := by simp [order, hw]
        have hom : l.order maker.id = some maker := by
          rw [order, hw]
          simp only [if_neg (Ne.symm hne)]
          rw [find_id hm]
          exact hm
        rw [UInt64.le_iff_toNat_le] at htaker hmaker
        refine (h.moved hot fun a => ?_).moved (o := maker) ?_ fun a => ?_
        · simp only
          rw [UInt64.toNat_sub_of_le _ _ (UInt64.le_iff_toNat_le.mpr htaker)]
          omega
        · change (l.shrink taker.id _).order maker.id = _
          rw [order_shrink h.fresh, if_neg hne, hom]
        · simp only
          rw [hleaves, UInt64.toNat_sub_of_le _ _ (UInt64.le_iff_toNat_le.mpr hmaker)]
          omega
      · cases hl
    · cases hl
  · split at hl
    · rename_i o ho
      split at hl
      · cases hl
        rw [← order_id ho] at ho
        exact h.moved ho fun a => by simp only [UInt64.toNat_zero]; omega
      · cases hl
    · cases hl
  · split at hl
    · split at hl
      · rename_i o ho
        split at hl
        · rename_i hle
          cases hl
          rw [← order_id ho] at ho
          refine h.moved ho fun a => ?_
          simp only
          rw [UInt64.toNat_sub_of_le _ _ hle]
          rw [UInt64.le_iff_toNat_le] at hle
          omega
        · cases hl
      · cases hl
    · split at hl
      · rename_i hw
        split at hl
        · rename_i o ho
          have hord : l.order o.id = some o := by
            rw [order, hw, find_id ho]
            exact ho
          split at hl
          · rename_i hkeep
            cases hl
            refine h.moved hord fun a => ?_
            simp only
            omega
          · cases hl
            have hidle : (l.shrink o.id 0).working = none := by simp [shrink, hw]
            have hgone : (l.shrink o.id 0).find o.id = none := by
              rw [find_shrink, if_pos rfl]
              cases l.find o.id <;> simp [held]
            refine Balanced.opened (o := { o with price := e.price, qty := e.qty }) hidle hgone
              (fun i hi => ?_) ?_
            · have hsame : (l.shrink o.id 0).openQty i = l.openQty i := by
                rw [openQty, order_shrink h.fresh, if_neg hi]
                rfl
              rw [hsame]
              exact h.balance i
            · have hbal := h.balance o.id
              rw [openQty, hord] at hbal
              simp only [Option.elim_some] at hbal
              simp only [shrink]
              omega
        · cases hl
      · cases hl

theorem Balanced.close {l : Ledger} (h : l.Balanced) : l.close.Balanced := by
  refine ⟨fun w hw => (nomatch hw), fun i => ?_⟩
  have hopen : l.close.openQty i = l.openQty i := by
    rw [openQty_of_idle rfl, openQty, order]
    cases hw : l.working with
    | none => simp [Ledger.close, find, hw]
    | some w =>
        simp only [Ledger.close, find, hw, List.find?_append, Option.toList_some]
        by_cases hi : w.id = i
        · have hnone := h.fresh w hw
          rw [hi, find] at hnone
          simp [hnone, hi]
        · simp [hi]
  rw [hopen]
  exact h.balance i

theorem Balanced.applyAll {l l' : Ledger} (h : l.Balanced) {evs : List Event}
    (hl : l.applyAll evs = some l') :
    l'.Balanced := by
  induction evs generalizing l with
  | nil =>
      cases hl
      exact h
  | cons e evs ih =>
      obtain ⟨l₁, h₁, hrest⟩ := Option.bind_eq_some_iff.mp (by simpa [Ledger.applyAll] using hl)
      exact ih (h.apply h₁) hrest

theorem Balanced.command {l l' : Ledger} (h : l.Balanced) {evs : List Event}
    (hl : l.command evs = some l') :
    l'.Balanced := by
  obtain ⟨l₁, h₁, rfl⟩ := Option.map_eq_some_iff.mp hl
  exact (h.applyAll h₁).close

theorem applyAll_append (l : Ledger) (es fs : List Event) :
    l.applyAll (es ++ fs) = (l.applyAll es).bind fun l => l.applyAll fs := by
  simp [applyAll, List.foldlM_append]

/-! ### The ledger is the book -/

def entryOf (R : Rules) (S : Side) (e : Resting) : OpenOrder := ⟨e.id, S, R.priceOf e.level, e.qty⟩

/-- Each queue of the ledger is the queue of the book. -/
def Records (R : Rules) (l : Ledger) (A : PriorityBook) : Prop :=
  ∀ S p, (l.resting.filter fun o => o.side = S ∧ o.price = p) =
    ((A S).map (entryOf R S)).filter fun o => o.price = p

section Records

variable {R : Rules} {l : Ledger} {A : PriorityBook}

theorem Records.mem_iff (h : Records R l A) (o : OpenOrder) :
    o ∈ l.resting ↔ ∃ e ∈ A o.side, entryOf R o.side e = o := by
  have := congrArg (o ∈ ·) (h o.side o.price)
  simpa [List.mem_filter] using this

theorem Records.find_eq (h : Records R l A) (hd : Distinct A) {S : Side} {e : Resting}
    (he : e ∈ A S) :
    l.find e.id = some (entryOf R S e) := by
  have hmem : entryOf R S e ∈ l.resting := (h.mem_iff _).mpr ⟨e, he, rfl⟩
  cases hf : l.find e.id with
  | none =>
      have := List.find?_eq_none.mp hf _ hmem
      simp [entryOf] at this
  | some o =>
      have hid := find_id hf
      obtain ⟨e', he', heq⟩ := (h.mem_iff o).mp (List.mem_of_find?_eq_some hf)
      have hid' : e'.id = e.id := (congrArg OpenOrder.id heq).trans hid
      obtain ⟨hS, rfl⟩ := hd.unique he' he hid'
      rw [← heq, hS]

theorem Records.find_none (h : Records R l A) {id : OrderId} (hid : ∀ U, ∀ e ∈ A U, e.id ≠ id) :
    l.find id = none := by
  rw [find, List.find?_eq_none]
  intro o ho
  obtain ⟨e, he, heq⟩ := (h.mem_iff o).mp ho
  simp only [decide_eq_true_eq]
  rw [← heq]
  exact hid _ e he

private theorem filter_filterMap_comm {α : Type} {p : α → Bool} {g : α → Option α}
    (hg : ∀ a b, g a = some b → p b = p a) (l : List α) :
    (l.filterMap g).filter p = (l.filter p).filterMap g := by
  induction l with
  | nil => rfl
  | cons a l ih =>
      cases ha : g a with
      | none =>
          rw [List.filterMap_cons_none ha, ih]
          by_cases hp : p a = true
          · rw [List.filter_cons_of_pos hp, List.filterMap_cons_none ha]
          · rw [List.filter_cons_of_neg hp]
      | some b =>
          rw [List.filterMap_cons_some ha]
          by_cases hp : p a = true
          · rw [List.filter_cons_of_pos (by rw [hg a b ha, hp]), List.filter_cons_of_pos hp,
              List.filterMap_cons_some ha, ih]
          · rw [List.filter_cons_of_neg (by rw [hg a b ha]; exact hp),
              List.filter_cons_of_neg hp, ih]

/-- What `shrink` does to the order with the id. -/
def leave (id : OrderId) (q : Qty) (e : Resting) : Option Resting :=
  if e.id = id then (if q = 0 then none else some { e with qty := q }) else some e

theorem Records.shrink (h : Records R l A) (id : OrderId) (q : Qty) :
    Records R (l.shrink id q) fun S => (A S).filterMap (leave id q) := by
  intro S p
  have hkeep : ∀ (P : OpenOrder → Prop) [DecidablePred P],
    (∀ (o : OpenOrder) n, P { o with qty := n } ↔ P o) →
      ∀ o o', (if o.id = id then held { o with qty := q } else some o) = some o' →
        decide (P o') = decide (P o) := by
    intro P _ hP o o' ho
    split at ho
    · rw [held] at ho
      split at ho
      · cases ho
      · cases ho
        exact decide_eq_decide.mpr (hP o q)
    · cases ho
      rfl
  have hmap : ((A S).filterMap (leave id q)).map (entryOf R S) =
      ((A S).map (entryOf R S)).filterMap fun o => if o.id = id then held
        { o with qty := q } else some o := by
    rw [List.map_filterMap, List.filterMap_map]
    refine congrArg (List.filterMap · (A S)) (funext fun e => ?_)
    by_cases he : e.id = id <;> by_cases hq : q = 0 <;> simp [leave, entryOf, held, he, hq]
  rw [hmap, filter_filterMap_comm (hkeep (fun o => o.price = p) fun _ _ => Iff.rfl), ← h S p]
  exact filter_filterMap_comm (hkeep (fun o => o.side = S ∧ o.price = p) fun _ _ => Iff.rfl) _

theorem leave_of_ne {id : OrderId} {q : Qty} {m : List Resting} (hm : ∀ e ∈ m, e.id ≠ id) :
    m.filterMap (leave id q) = m := by
  rw [List.filterMap_congr (g := some) fun e he => by rw [leave, if_neg (hm e he)]]
  exact List.filterMap_some

theorem Records.shrink_at (h : Records R l A) (hd : Distinct A) {T : Side} {e : Resting}
    (he : e ∈ A T) (q : Qty) :
    Records R (l.shrink e.id q) (Function.update A T ((A T).filterMap (leave e.id q))) := by
  have hsame : (fun S => (A S).filterMap (leave e.id q)) =
      Function.update A T ((A T).filterMap (leave e.id q)) := by
    funext S
    by_cases hS : S = T
    · rw [hS, Function.update_self]
    · rw [Function.update_of_ne hS]
      exact leave_of_ne fun x hx heq => hS (hd.unique hx he heq).1
  rw [← hsame]
  exact h.shrink e.id q

theorem leave_zero (id : OrderId) (m : List Resting) : m.filterMap (leave id 0) = eraseId id m := by
  rw [eraseId, ← List.filterMap_eq_filter]
  refine congrArg (List.filterMap · m) (funext fun e => ?_)
  by_cases he : e.id = id <;> simp [leave, he, Option.guard]

theorem leave_pos (id : OrderId) {q : Qty} (hq : q ≠ 0) (m : List Resting) :
    m.filterMap (leave id q) = PriorityBook.setQty id q m := by
  rw [PriorityBook.setQty, ← List.filterMap_eq_map]
  refine congrArg (List.filterMap · m) (funext fun e => ?_)
  by_cases he : e.id = id <;> simp [leave, he, hq]

theorem leave_head {e : Resting} {es : List Resting} (hnew : ∀ x ∈ es, x.id ≠ e.id) (q : Qty) :
    (e :: es).filterMap (leave e.id q) = if q = 0 then es else { e with qty := q } :: es := by
  by_cases hq : q = 0
  · rw [List.filterMap_cons_none (by simp [leave, hq]), leave_of_ne hnew, if_pos hq]
  · rw [List.filterMap_cons_some (b := { e with qty := q }) (by simp [leave, hq]),
      leave_of_ne hnew, if_neg hq]

structure Tells (R : Rules) (l : Ledger) (A : PriorityBook) (w : Option OpenOrder) : Prop where
  records : Records R l A
  working : l.working = w

theorem Tells.charge {w : Option OpenOrder} (h : Tells R l A w) (id : OrderId)
    (f : Account → Account) :
    Tells R (l.charge id f) A w :=
  ⟨h.records, h.working⟩

theorem Tells.taker {w : OpenOrder} (h : Tells R l A (some w))
    (hid : ∀ U, ∀ e ∈ A U, e.id ≠ w.id) (q : Qty) :
    Tells R (l.shrink w.id q) A (held { w with qty := q }) := by
  refine ⟨?_, by simp [Ledger.shrink, h.working]⟩
  have := h.records.shrink w.id q
  simp only [leave_of_ne (hid _)] at this
  exact this

theorem Tells.maker {w : Option OpenOrder} (h : Tells R l A w) (hd : Distinct A) {T : Side}
    {e : Resting} (he : e ∈ A T) (hw : ∀ o, w = some o → e.id ≠ o.id) (q : Qty) :
    Tells R (l.shrink e.id q) (Function.update A T ((A T).filterMap (leave e.id q))) w := by
  refine ⟨h.records.shrink_at hd he q, ?_⟩
  rw [Ledger.shrink, h.working]
  cases w with
  | none => rfl
  | some o => simp [Ne.symm (hw o rfl)]

theorem Tells.order_maker {w : Option OpenOrder} (h : Tells R l A w) (hd : Distinct A)
    {T : Side} {e : Resting} (he : e ∈ A T) (hw : ∀ o, w = some o → e.id ≠ o.id) :
    l.order e.id = some (entryOf R T e) := by
  rw [order, h.working]
  cases w with
  | none => exact h.records.find_eq hd he
  | some o =>
      simp only [if_neg (Ne.symm (hw o rfl))]
      exact h.records.find_eq hd he

theorem Tells.order_taker {w : OpenOrder} (h : Tells R l A (some w)) : l.order w.id = some w := by
  rw [order, h.working]
  simp

theorem Tells.maker_canceled {w : Option OpenOrder} (h : Tells R l A w) (hd : Distinct A)
    {T : Side} {e : Resting} (he : e ∈ A T) (hw : ∀ o, w = some o → e.id ≠ o.id) (S : Side)
    (p : Price) (r : Reason) :
    ∃ l', l.apply (canceledEvent R.symbol e.id S p e.qty r) = some l' ∧
      Tells R l' (Function.update A T ((A T).filterMap (leave e.id 0))) w := by
  refine ⟨_, ?_, (h.maker hd he hw 0).charge e.id fun a =>
    { a with canceled := a.canceled + e.qty.toNat }⟩
  simp only [Ledger.apply, canceledEvent, h.order_maker hd he hw]
  simp [entryOf]

theorem Tells.maker_decremented {w : Option OpenOrder} (h : Tells R l A w) (hd : Distinct A)
    {T : Side} {e : Resting} (he : e ∈ A T) (hw : ∀ o, w = some o → e.id ≠ o.id) (S : Side)
    (p : Price) {q : Qty} (hq : q ≤ e.qty) :
    ∃ l', l.apply (stpDecrementEvent R.symbol e.id S p q) = some l' ∧
      Tells R l' (Function.update A T ((A T).filterMap (leave e.id q))) w := by
  refine ⟨_, ?_, (h.maker hd he hw q).charge e.id
    fun a => { a with decremented := a.decremented + (e.qty - q).toNat }⟩
  simp only [Ledger.apply, stpDecrementEvent, modifiedEvent, h.order_maker hd he hw]
  simp [entryOf, hq]

theorem Tells.taker_canceled {w : OpenOrder} (h : Tells R l A (some w))
    (hid : ∀ U, ∀ e ∈ A U, e.id ≠ w.id) (S : Side) (p : Price) (r : Reason) :
    ∃ l', l.apply (canceledEvent R.symbol w.id S p w.qty r) = some l' ∧ Tells R l' A none := by
  refine ⟨_, ?_, (h.taker hid 0).charge w.id fun a =>
    { a with canceled := a.canceled + w.qty.toNat }⟩
  simp only [Ledger.apply, canceledEvent, h.order_taker]
  simp

theorem Tells.taker_decremented {w : OpenOrder} (h : Tells R l A (some w))
    (hid : ∀ U, ∀ e ∈ A U, e.id ≠ w.id) (S : Side) (p : Price) {q : Qty} (hq : q ≤ w.qty) :
    ∃ l', l.apply (stpDecrementEvent R.symbol w.id S p q) = some l' ∧
    Tells R l' A (held { w with qty := q }) := by
  refine ⟨_, ?_, (h.taker hid q).charge w.id fun a =>
    { a with decremented := a.decremented + (w.qty - q).toNat }⟩
  simp only [Ledger.apply, stpDecrementEvent, modifiedEvent, h.order_taker]
  simp [hq]

theorem Tells.traded {w : OpenOrder} (h : Tells R l A (some w)) (hd : Distinct A)
    (hid : ∀ U, ∀ e ∈ A U, e.id ≠ w.id) {T : Side} {e : Resting} (he : e ∈ A T) (S : Side)
    (p : Price) {fill : Qty} (hw : fill ≤ w.qty) (hm : fill ≤ e.qty) :
    ∃ l', l.apply (tradeEvent R.symbol w.id e.id S p fill (e.qty - fill)) = some l' ∧
      Tells R l' (Function.update A T ((A T).filterMap (leave e.id (e.qty - fill))))
        (held { w with qty := w.qty - fill }) := by
  have hfind := h.records.find_eq hd he
  have htaken := (h.taker hid (w.qty - fill)).charge w.id fun a =>
    { a with filled := a.filled + fill.toNat }
  have hother : ∀ o, held { w with qty := w.qty - fill } = some o → e.id ≠ o.id := by
    intro o ho
    rw [held] at ho
    split at ho
    · cases ho
    · cases ho
      exact hid T e he
  refine ⟨_, ?_, (htaken.maker hd he hother (e.qty - fill)).charge e.id
    fun a => { a with filled := a.filled + fill.toNat }⟩
  simp only [Ledger.apply, tradeEvent, h.working, hfind]
  simp [entryOf, hw, hm]

theorem applyAll_cons {l l' : Ledger} {e : Event} (h : l.apply e = some l') (evs : List Event) :
    l.applyAll (e :: evs) = l'.applyAll evs := by
  simp [applyAll, h]

theorem update_cons_distinct (hd : Distinct A) {T : Side} {e : Resting} {es : List Resting}
    (hA : A T = e :: es) :
    (∀ x ∈ es, x.id ≠ e.id) ∧ Distinct (Function.update A T es) := by
  have hnodup := hd.nodup T
  rw [hA, List.map_cons, List.nodup_cons] at hnodup
  refine ⟨fun x hx heq => hnodup.1 (List.mem_map.mpr ⟨x, hx, heq⟩), hd.update ?_⟩
  rw [hA, List.map_cons]
  exact List.sublist_cons_self ..

theorem not_mem_update {id : OrderId} (hid : ∀ U, ∀ e ∈ A U, e.id ≠ id) {T : Side}
    {m : List Resting} (hm : ∀ x ∈ m, ∃ e ∈ A T, e.id = x.id) :
    ∀ U, ∀ e ∈ Function.update A T m U, e.id ≠ id := by
  intro U e he
  by_cases hU : U = T
  · subst hU
    rw [Function.update_self] at he
    obtain ⟨x, hx, heq⟩ := hm e he
    rw [← heq]
    exact hid U x hx
  · rw [Function.update_of_ne hU] at he
    exact hid U e he

theorem Tells.sweep {S : Side} {es : List Resting} (hA : A (opposite S) = es) (hd : Distinct A)
    {taker : OrderId} (hid : ∀ U, ∀ e ∈ A U, e.id ≠ taker) {px : Price} {q : Qty}
    (h : Tells R l A (held ⟨taker, S, px, q⟩)) (owner : OwnerId) (limit : Int) (stp : Stp) :
    let o := PriorityBook.sweep R S taker owner limit stp es q
    ∃ l', l.applyAll o.events = some l' ∧
      Tells R l' (Function.update A (opposite S) o.makers) (held ⟨taker, S, px, o.qty⟩) := by
  induction es generalizing l A q with
  | nil =>
      refine ⟨l, rfl, ?_⟩
      simp only [PriorityBook.sweep]
      rw [← hA, Function.update_eq_self]
      exact h
  | cons e es ih =>
      intro o
      have hstay : Function.update A (opposite S) (e :: es) = A := by
        rw [← hA, Function.update_eq_self]
      have he : e ∈ A (opposite S) := by simp [hA]
      obtain ⟨hnew, hdist⟩ := update_cons_distinct hd hA
      have hgone : ∀ U, ∀ x ∈ Function.update A (opposite S) es U, x.id ≠ taker :=
        not_mem_update hid fun x hx => ⟨x, by simp [hA, hx], rfl⟩
      have hrest : Function.update (Function.update A (opposite S) es)
          (opposite S) = Function.update A (opposite S) := by
        funext m
        rw [Function.update_idem]
      have hhead : ∀ n, (A (opposite S)).filterMap (leave e.id n) = if n = 0 then es
          else { e with qty := n } :: es := by
        intro n
        rw [hA]
        exact leave_head hnew n
      rcases PriorityBook.sweep_cases R S taker owner limit stp e es q with ⟨ho, _⟩ | ⟨hq, _, hcase⟩
      · have ho : o = _ := ho
        refine ⟨l, by rw [ho]; rfl, ?_⟩
        rw [ho]
        simp only [hstay]
        exact h
      have hheld : held ⟨taker, S, px, q⟩ = some ⟨taker, S, px, q⟩ := by simp [held, hq]
      have hmaker : ∀ w, held ⟨taker, S, px, q⟩ = some w → e.id ≠ w.id := by
        intro w hw
        rw [hheld] at hw
        cases hw
        exact hid _ e he
      rcases hcase with ⟨ho, _⟩ | ⟨ho, _, _, hlt⟩ | ⟨ho, _⟩ | ⟨ho, _, _, hlt⟩ | ⟨ho, _⟩ |
        ⟨ho, _, hlt⟩ | ⟨ho, _, hle⟩
      all_goals have ho : o = _ := ho
      · refine ⟨l, by rw [ho]; rfl, ?_⟩
        rw [ho]
        simp only [hstay]
        exact h
      · obtain ⟨l₁, h₁, ht⟩ := h.maker_decremented hd he hmaker (opposite S) (R.priceOf e.level)
          (q := e.qty - q) (by grind)
        rw [hhead, if_neg (by grind)] at ht
        rw [ho]
        exact ⟨l₁, by rw [applyAll_cons h₁]; rfl, ht⟩
      · obtain ⟨l₁, h₁, ht⟩ :=
          h.maker_canceled hd he hmaker (opposite S) (R.priceOf e.level) .selfTrade
        rw [hhead, if_pos rfl] at ht
        rw [ho]
        exact ⟨l₁, by rw [applyAll_cons h₁]; rfl, ht⟩
      · obtain ⟨l₁, h₁, ht⟩ :=
          h.maker_canceled hd he hmaker (opposite S) (R.priceOf e.level) .selfTrade
        rw [hhead, if_pos rfl, hheld] at ht
        obtain ⟨l₂, h₂, ht₂⟩ := ht.taker_decremented hgone S (R.priceOf limit) (q := q - e.qty)
          (by simp only; grind)
        obtain ⟨l₃, h₃, ht₃⟩ := ih (Function.update_self ..) hdist hgone ht₂
        rw [hrest] at ht₃
        rw [ho]
        refine ⟨l₃, ?_, ht₃⟩
        simp only [Outcome.behind, List.cons_append, List.nil_append]
        rw [applyAll_cons h₁, applyAll_cons h₂, h₃]
      · obtain ⟨l₁, h₁, ht⟩ :=
          h.maker_canceled hd he hmaker (opposite S) (R.priceOf e.level) .selfTrade
        rw [hhead, if_pos rfl] at ht
        obtain ⟨l₃, h₃, ht₃⟩ := ih (Function.update_self ..) hdist hgone ht
        rw [hrest] at ht₃
        rw [ho]
        refine ⟨l₃, ?_, ht₃⟩
        simp only [Outcome.behind, List.cons_append, List.nil_append]
        rw [applyAll_cons h₁, h₃]
      · rw [hheld] at h
        obtain ⟨l₁, h₁, ht⟩ :=
          h.traded hd hid he S (R.priceOf e.level) (UInt64.le_refl q) (by grind)
        rw [hhead, if_neg (by grind)] at ht
        rw [ho]
        refine ⟨l₁, by rw [applyAll_cons h₁]; rfl, ?_⟩
        simpa using ht
      · rw [hheld] at h
        obtain ⟨l₁, h₁, ht⟩ := h.traded hd hid he S (R.priceOf e.level) hle (UInt64.le_refl _)
        rw [UInt64.sub_self] at h₁ ht
        rw [hhead, if_pos rfl] at ht
        obtain ⟨l₃, h₃, ht₃⟩ := ih (Function.update_self ..) hdist hgone ht
        rw [hrest] at ht₃
        rw [ho]
        refine ⟨l₃, ?_, ht₃⟩
        simp only [Outcome.behind, List.cons_append, List.nil_append]
        rw [applyAll_cons h₁, h₃]

theorem filter_join {S : Side} {e : Resting} {m : List Resting}
    (hm : m.Pairwise fun x y => ahead S x.level y.level)
    (hinj : ∀ x ∈ m, R.priceOf x.level = R.priceOf e.level → x.level = e.level) (p : Price) :
    (((join S e m).map (entryOf R S)).filter fun o => o.price = p) =
      ((m.map (entryOf R S)).filter fun o => o.price = p) ++ [entryOf R S e].filter fun o =>
        o.price = p := by
  induction m with
  | nil => rfl
  | cons x xs ih =>
      obtain ⟨hx, hxs⟩ := List.pairwise_cons.mp hm
      rw [join]
      split
      · have := ih hxs fun y hy => hinj y (by simp [hy])
        rw [List.map_cons, List.filter_cons, List.map_cons, List.filter_cons, this]
        split <;> rfl
      · rename_i hnot
        -- the orders behind rest at other prices
        have hfar : ∀ y ∈ x :: xs, R.priceOf y.level ≠ R.priceOf e.level := by
          intro y hy heq
          have hlev := hinj y hy heq
          rcases List.mem_cons.mp hy with rfl | hy
          · refine hnot ?_
            rw [hlev]
            cases S <;> simp [ahead]
          · have := hx y hy
            rw [hlev] at this
            exact hnot this
        rw [List.map_cons, ← List.singleton_append, List.filter_append]
        by_cases hp : R.priceOf e.level = p
        · have hnil : (((x :: xs).map (entryOf R S)).filter fun o => o.price = p) = [] := by
            rw [List.filter_eq_nil_iff]
            intro o ho
            obtain ⟨y, hy, rfl⟩ := List.mem_map.mp ho
            rw [← hp]
            exact fun hc => hfar y hy (of_decide_eq_true hc)
          rw [hnil, List.append_nil, List.nil_append]
        · have hnil : ([entryOf R S e].filter fun o => o.price = p) = [] := by simp [entryOf, hp]
          rw [hnil, List.append_nil, List.nil_append]

theorem Tells.close_none (h : Tells R l A none) : Tells R l.close A none := by
  refine ⟨?_, rfl⟩
  have hrest : l.close.resting = l.resting := by simp [Ledger.close, h.working]
  rw [Records, hrest]
  exact h.records

theorem Tells.close_some {S : Side} {e : Resting} (h : Tells R l A (some (entryOf R S e)))
    (hsorted : (A S).Pairwise fun x y => ahead S x.level y.level)
    (hinj : ∀ x ∈ A S, R.priceOf x.level = R.priceOf e.level → x.level = e.level) :
    Tells R l.close (Function.update A S (join S e (A S))) none := by
  refine ⟨fun U p => ?_, rfl⟩
  have hrest : l.close.resting = l.resting ++ [entryOf R S e] := by simp [Ledger.close, h.working]
  rw [hrest, List.filter_append, h.records U p]
  by_cases hU : U = S
  · subst hU
    rw [Function.update_self, filter_join hsorted hinj]
    congr 1
    by_cases hp : R.priceOf e.level = p <;> simp [entryOf, hp]
  · have hnil : ([entryOf R S e].filter fun o => o.side = U ∧ o.price = p) = [] := by
      simp [entryOf, Ne.symm hU]
    rw [Function.update_of_ne hU, hnil, List.append_nil]

theorem Tells.enter (hsmall : R.cfg.numLevels ≤ 2 ^ 30) {S : Side} (hd : Distinct A) {id : OrderId}
    (hid : ∀ U, ∀ e ∈ A U, e.id ≠ id) (hsorted : (A S).Pairwise fun x y => ahead S x.level y.level)
    (hlevels : ∀ e ∈ A S, e.level < R.cfg.numLevels) {px : Price} {qty : Qty}
    (h : Tells R l A (held ⟨id, S, px, qty⟩)) (owner : OwnerId) {limit : Int} (stp : Stp)
      (epx : Price) {mayRest : Bool}
    (hrest : mayRest = true → limit.toNat < R.cfg.numLevels ∧ px = R.priceOf limit.toNat) :
    let r := PriorityBook.enter R A S id owner limit qty stp epx mayRest
    ∃ l', l.applyAll r.2 = some l' ∧ Tells R l'.close r.1 none := by
  intro r
  obtain ⟨l₁, h₁, ht⟩ := h.sweep rfl hd hid owner limit stp
  have hmakers := PriorityBook.sweep_sub R S id owner limit stp (A (opposite S)) qty
  have hr : r = PriorityBook.enter R A S id owner limit qty stp epx mayRest := rfl
  rw [PriorityBook.enter] at hr
  generalize PriorityBook.sweep R S id owner limit stp (A (opposite S)) qty = o at *
  have hid' : ∀ U, ∀ e ∈ Function.update A (opposite S) o.makers U, e.id ≠ id := by
    refine not_mem_update hid fun x hx => ?_
    obtain ⟨e, he, heq, _⟩ := hmakers x hx
    exact ⟨e, he, by rw [heq]⟩
  have hcancel : ∀ (p : Price) (reason : Reason), o.qty ≠ 0 →
      ∃ l', l.applyAll (o.events ++ [canceledEvent R.symbol id S p o.qty reason]) = some l' ∧
        Tells R l'.close (Function.update A (opposite S) o.makers) none := by
    intro p reason hq
    rw [show held ⟨id, S, px, o.qty⟩ = some ⟨id, S, px, o.qty⟩ by simp [held, hq]] at ht
    obtain ⟨l₂, h₂, ht₂⟩ := ht.taker_canceled hid' S p reason
    refine ⟨l₂, ?_, ht₂.close_none⟩
    rw [applyAll_append, h₁, Option.bind_some, applyAll_cons h₂]
    rfl
  by_cases hq : o.qty = 0
  · simp only [if_pos hq] at hr
    rw [hr]
    refine ⟨l₁, h₁, Tells.close_none ?_⟩
    simpa [held, hq] using ht
  by_cases hs : o.stop = true
  · simp only [if_neg hq, if_pos hs] at hr
    rw [hr]
    exact hcancel epx .selfTrade hq
  by_cases hm : mayRest = true
  · simp only [if_neg hq, if_neg hs, hm, not_true_eq_false, if_false, PriorityBook.rest] at hr
    obtain ⟨hlt, hpx⟩ := hrest hm
    by_cases hfull : R.cfg.maxOrders ≤ PriorityBook.count (Function.update A (opposite S) o.makers)
    · simp only [if_pos hfull] at hr
      rw [hr]
      exact hcancel _ .bookFull hq
    · simp only [if_neg hfull, List.append_nil] at hr
      rw [hr]
      refine ⟨l₁, h₁, ?_⟩
      have hside : Function.update A (opposite S) o.makers S = A S :=
        Function.update_of_ne (ne_opposite S) _ _
      refine Tells.close_some (e := ⟨limit.toNat, id, o.qty, owner⟩) ?_
        (by rw [hside]; exact hsorted) fun x hx heq => ?_
      · rw [entryOf, ← hpx]
        simpa [held, hq] using ht
      · rw [hside] at hx
        exact Rules.priceOf_inj hsmall (hlevels x hx) hlt heq
  · simp only [if_neg hq, if_neg hs, hm, Bool.false_eq_true, not_false_eq_true, if_true] at hr
    rw [hr]
    exact hcancel epx .iocExpired hq

/-- The events of a command, read from one settled book, leave the next. -/
def Posts (R : Rules) (l : Ledger) (r : PriorityBook × List Event) : Prop :=
  ∃ l', l.applyAll r.2 = some l' ∧ Tells R l'.close r.1 none

theorem Tells.rejected (h : Tells R l A none) (c : Command) (reason : Reason) :
    Posts R l (A, [rejectedEvent c reason]) :=
  ⟨l, rfl, h.close_none⟩

theorem Posts.cons {e : Event} {l₁ : Ledger} (h : l.apply e = some l₁)
    {r : PriorityBook × List Event} (hr : Posts R l₁ r) : Posts R l (r.1, e :: r.2) := by
  obtain ⟨l', hl', ht⟩ := hr
  exact ⟨l', by rw [applyAll_cons h]; exact hl', ht⟩

theorem Tells.add (hsmall : R.cfg.numLevels ≤ 2 ^ 30) (ok : PriorityBook.Ok R A)
    (h : Tells R l A none) (fok : PriorityBook.FokCheck) (c : Command) :
    Posts R l (PriorityBook.add R fok A c) := by
  rw [PriorityBook.add]
  by_cases hid0 : c.orderId = 0
  · simp only [if_pos hid0]
    exact h.rejected c _
  by_cases hq0 : c.qty = 0
  · simp only [if_neg hid0, if_pos hq0]
    exact h.rejected c _
  simp only [if_neg hid0, if_neg hq0]
  cases hlimit : R.limitOf c.side c with
  | none => exact h.rejected c _
  | some limit =>
  cases hlook : lookup A c.orderId with
  | some p =>
      simp only [Option.isSome_some, if_true]
      exact h.rejected c _
  | none =>
  simp only [Option.isSome_none, Bool.false_eq_true, if_false]
  by_cases hpost : c.flags &&& kFlagPostOnly ≠ 0 ∧ PriorityBook.crosses A c.side limit = true
  · simp only [if_pos hpost]
    exact h.rejected c _
  simp only [if_neg hpost]
  have hnew := PriorityBook.lookup_eq_none hlook
  obtain ⟨l₁, h₁, ht⟩ :
    ∃ l₁, l.apply (acceptedEvent R.symbol c.orderId c.side c.eventPrice c.qty) = some l₁ ∧
      Tells R l₁ A (held ⟨c.orderId, c.side, c.eventPrice, c.qty⟩) := by
    refine ⟨Ledger.charge { l with working := held ⟨c.orderId, c.side, c.eventPrice, c.qty⟩ }
      c.orderId fun a => { a with accepted := a.accepted + c.qty.toNat }, ?_, ⟨h.records, rfl⟩⟩
    simp [Ledger.apply, acceptedEvent, h.working, h.records.find_none hnew]
  by_cases hfok : c.tif = .fok ∧ ¬ fok c.side limit c.owner (effectiveStp c.flags R.cfg.stp)
    (A (opposite c.side)) c.qty
  · simp only [if_pos hfok]
    rw [show held ⟨c.orderId, c.side, c.eventPrice, c.qty⟩ =
        some ⟨c.orderId, c.side, c.eventPrice, c.qty⟩ by
      simp [held, hq0]] at ht
    obtain ⟨l₂, h₂, ht₂⟩ := ht.taker_canceled hnew c.side c.eventPrice .fokUnfilled
    exact ⟨l₂, by rw [applyAll_cons h₁, applyAll_cons h₂]; rfl, ht₂.close_none⟩
  · simp only [if_neg hfok]
    refine Posts.cons h₁ (ht.enter hsmall ok.ids hnew (ok.sorted _) (ok.level_lt _) _ _ _
      fun hrest => ?_)
    obtain ⟨hty, _⟩ := of_decide_eq_true hrest
    simp only [Rules.limitOf, hty] at hlimit
    obtain ⟨ix, hix, rfl⟩ := Option.map_eq_some_iff.mp hlimit
    refine ⟨Rules.relOf_lt hix, ?_⟩
    rw [Int.toNat_natCast, Rules.priceOf_relOf hix, Command.eventPrice, hty]

theorem Tells.cancel (ok : PriorityBook.Ok R A) (h : Tells R l A none) (c : Command) :
    Posts R l (PriorityBook.cancel R A c) := by
  rw [PriorityBook.cancel]
  cases hlook : lookup A c.orderId with
  | none => exact h.rejected c _
  | some p =>
      obtain ⟨S, e⟩ := p
      obtain ⟨he, hid⟩ := PriorityBook.lookup_mem hlook
      obtain ⟨l₁, h₁, ht⟩ :=
        h.maker_canceled ok.ids he (by simp) S (R.priceOf e.level) .userCanceled
      rw [leave_zero, hid] at ht
      rw [hid] at h₁
      exact ⟨l₁, by rw [applyAll_cons h₁]; rfl, ht.close_none⟩

theorem Tells.modify (hsmall : R.cfg.numLevels ≤ 2 ^ 30) (ok : PriorityBook.Ok R A)
    (h : Tells R l A none) (c : Command) :
    Posts R l (PriorityBook.modify R A c) := by
  rw [PriorityBook.modify]
  by_cases hq0 : c.qty = 0
  · simp only [if_pos hq0]
    exact h.rejected c _
  simp only [if_neg hq0]
  cases hlook : lookup A c.orderId with
  | none => exact h.rejected c _
  | some p =>
  obtain ⟨S, e⟩ := p
  obtain ⟨he, hid⟩ := PriorityBook.lookup_mem hlook
  cases hrel : R.relOf c.price with
  | none => exact h.rejected c _
  | some ix =>
  simp only
  have hprice : R.priceOf ix = c.price := Rules.priceOf_relOf hrel
  have hfind := h.records.find_eq ok.ids he
  rw [hid] at hfind
  have hsame : c.price = (entryOf R S e).price ↔ ix = e.level := by
    rw [← hprice]
    exact ⟨fun heq => Rules.priceOf_inj hsmall (Rules.relOf_lt hrel) (ok.level_lt S e he) heq,
      fun heq => by rw [heq]; rfl⟩
  have hmaker :
      ∀ q, Tells R (l.shrink c.orderId q)
        (Function.update A S ((A S).filterMap (leave c.orderId q))) none := by
    intro q
    have := h.maker ok.ids he (by simp) q
    rwa [hid] at this
  by_cases hkeep : ix = e.level ∧ c.qty ≤ e.qty
  · simp only [if_pos hkeep]
    have ht := hmaker c.qty
    rw [leave_pos _ hq0] at ht
    refine ⟨_, ?_, (ht.charge c.orderId fun a => { a with
      accepted := a.accepted + (c.qty.toNat - e.qty.toNat)
      canceled := a.canceled + (e.qty.toNat - c.qty.toNat) }).close_none⟩
    rw [applyAll_cons ?_]
    · rfl
    · simp only [Ledger.apply, modifiedEvent, h.working, hfind, hsame]
      simp [hkeep, entryOf, hid]
  · simp only [if_neg hkeep]
    have ht := hmaker 0
    rw [leave_zero] at ht
    let l₁ := Ledger.charge { l.shrink c.orderId 0 with
        working := held ⟨c.orderId, S, c.price, c.qty⟩ } c.orderId fun a =>
      { a with
        accepted := a.accepted + (c.qty.toNat - e.qty.toNat)
        canceled := a.canceled + (e.qty.toNat - c.qty.toNat) }
    have h₁ : l.apply (modifiedEvent R.symbol c.orderId S c.price c.qty) = some l₁ := by
      have hmove : ¬ (ix = e.level ∧ c.qty ≤ (entryOf R S e).qty) := hkeep
      simp only [Ledger.apply, modifiedEvent, h.working, hfind, hsame, if_neg hmove]
      simp [entryOf, hid, l₁]
    have ht₁ : Tells R l₁ (Function.update A S (eraseId c.orderId (A S)))
        (held ⟨c.orderId, S, c.price, c.qty⟩) :=
      ⟨ht.records, rfl⟩
    have hsub : (eraseId c.orderId (A S)).Sublist (A S) := List.filter_sublist
    refine Posts.cons h₁ (ht₁.enter hsmall (ok.ids.update (hsub.map _)) ?_ ?_ ?_ _ _ _ fun _ => ?_)
    · intro U x hx
      by_cases hU : U = S
      · subst hU
        rw [Function.update_self] at hx
        simpa using (List.mem_filter.mp hx).2
      · rw [Function.update_of_ne hU] at hx
        exact fun heq => hU (ok.ids.unique hx he (heq.trans hid.symm)).1
    · rw [Function.update_self]
      exact (ok.sorted S).sublist hsub
    · rw [Function.update_self]
      exact fun x hx => ok.level_lt S x (hsub.subset hx)
    · exact ⟨by simpa using Rules.relOf_lt hrel, by simpa using hprice.symm⟩

theorem Tells.process (hsmall : R.cfg.numLevels ≤ 2 ^ 30) (ok : PriorityBook.Ok R A)
    (h : Tells R l A none) (fok : PriorityBook.FokCheck) (c : Command) :
    Posts R l (PriorityBook.process R fok A c) := by
  rw [PriorityBook.process]
  cases c.type with
  | newOrder => exact h.add hsmall ok fok c
  | cancel => exact h.cancel ok c
  | modify => exact h.modify hsmall ok c

end Records

end Ledger

namespace PriorityBook

private theorem filter_id_eq {l : List Resting} (h : (l.map (·.id)).Nodup)
    {e : Resting} (he : e ∈ l) :
    (l.filter fun x => x.id = e.id) = [e] := by
  induction l with
  | nil => cases he
  | cons x xs ih =>
      rw [List.map_cons, List.nodup_cons] at h
      rcases List.mem_cons.mp he with rfl | he
      · rw [List.filter_cons_of_pos (by simp), List.filter_eq_nil_iff.mpr]
        intro y hy
        simpa using fun heq => h.1 (List.mem_map.mpr ⟨y, hy, heq⟩)
      · rw [List.filter_cons_of_neg, ih h.2 he]
        simpa using fun heq : x.id = e.id => h.1 (heq ▸ List.mem_map.mpr ⟨e, he, rfl⟩)

end PriorityBook

/-- The lots that rest under an id, in a listing of both sides. -/
def restingQty (orders : Side → List (Price × OrderId × Qty)) (id : OrderId) : Nat :=
  (((orders .buy ++ orders .sell).filter fun o => o.2.1 = id).map fun o => o.2.2.toNat).sum

theorem Ledger.Tells.openQty_eq {R : Rules} {l : Ledger} {A : PriorityBook}
    (h : Ledger.Tells R l A none) (hd : Distinct A) (id : OrderId) :
    l.openQty id = restingQty (fun S => (A S).map fun e => (R.priceOf e.level, e.id, e.qty))
      id := by
  rw [Ledger.openQty_of_idle h.working, restingQty, ← List.map_append,
    List.filter_map, List.map_map]
  cases hlook : lookup A id with
  | none =>
      have hnew := PriorityBook.lookup_eq_none hlook
      rw [h.records.find_none hnew, List.filter_eq_nil_iff.mpr]
      · rfl
      · intro e he
        rcases List.mem_append.mp he with he | he
        · simpa using hnew _ e he
        · simpa using hnew _ e he
  | some p =>
      obtain ⟨S, e⟩ := p
      obtain ⟨he, rfl⟩ := PriorityBook.lookup_mem hlook
      have hmem : e ∈ A .buy ++ A .sell := by
        cases S
        · exact List.mem_append_left _ he
        · exact List.mem_append_right _ he
      have := PriorityBook.filter_id_eq hd hmem
      rw [h.records.find_eq hd he]
      simp only [Function.comp_def] at this ⊢
      rw [this]
      simp [Ledger.entryOf]

namespace OrderBook

variable {σ : Type} [StoreLayout σ] {R : Rules}

theorem Refines.replay {b : OrderBook σ} {A : PriorityBook} {l : Ledger}
    (hsmall : R.cfg.numLevels ≤ 2 ^ 30) (h : Refines R b A) (ht : Ledger.Tells R l A none)
    (hl : l.Balanced) (cs : List Command) :
    ∃ b' outs l' A', b.run cs = some (b', outs) ∧ l.replay (outs.map Sink.events) = some l' ∧
    Refines R b' A' ∧
      Ledger.Tells R l' A' none ∧ l'.Balanced := by
  induction cs generalizing b A l with
  | nil => exact ⟨b, [], l, A, rfl, rfl, h, ht, hl⟩
  | cons c cs ih =>
      obtain ⟨b₁, out, hstep, href, hsends⟩ := h.process c {}
      obtain ⟨l₁, happly, ht₁⟩ := ht.process hsmall h.ok PriorityBook.fillableAgg c
      have hevents : out.events = (PriorityBook.process R PriorityBook.fillableAgg A c).2 :=
        hsends.events
      have hcommand : l.command out.events = some l₁.close := by
        rw [Ledger.command, hevents, happly]; rfl
      obtain ⟨b', outs, l', A', hrun, hreplay, hrest⟩ := ih href ht₁ (hl.command hcommand)
      refine ⟨b', out :: outs, l', A', ?_, ?_, hrest⟩
      · simp [OrderBook.run, hstep, hrun]
      · rw [List.map_cons, Ledger.replay, List.foldlM_cons, hcommand]
        exact hreplay

/-- The events of every run, folded without any matching, give the resting orders of the
book queue by queue, and each accepted lot is filled, decremented, cancelled or resting. -/
theorem events_determine_book (hash : IndexHash) (symbol : SymbolId) {cfg : BookConfig}
    (ok : cfg.Accepted) (cs : List Command) :
    ∃ b outs l orders, (make hash symbol cfg : OrderBook σ).run cs = some (b, outs) ∧
      Ledger.replay {} (outs.map Sink.events) = some l ∧ l.working = none ∧
      (∀ S, b.forEachOrder S = some (orders S)) ∧
      (∀ S p, l.queue S p = (orders S).filter fun o => o.1 = p) ∧
      ∀ id, (l.account id).accepted =
        (l.account id).filled + (l.account id).decremented + (l.account id).canceled +
        restingQty orders id := by
  have hempty : Ledger.Tells ⟨symbol, cfg⟩ {} PriorityBook.empty none := ⟨fun _ _ => rfl, rfl⟩
  have hzero : ({} : Ledger).Balanced := ⟨fun _ hw => (nomatch hw), fun _ => rfl⟩
  obtain ⟨b, outs, l, A, hrun, hreplay, href, ht, hbal⟩ :=
    (refines_make (σ := σ) hash symbol ok).replay ok.levels_le hempty hzero cs
  refine ⟨b, outs, l, _, hrun, hreplay, ht.working, href.forEachOrder, fun S p => ?_, fun id => ?_⟩
  · rw [Ledger.queue, ht.records S p, List.filter_map, List.filter_map, List.map_map]
    rfl
  · rw [hbal.balance id, ht.openQty_eq href.ok.ids id]

theorem events_determine_book_small :
    smallBook.Accepted ∧
      ∃ b outs l orders, (make scatterHash 1 smallBook : OrderBook AosStore).run smallRun =
      some (b, outs) ∧
        Ledger.replay {} (outs.map Sink.events) = some l ∧ l.working = none ∧
        (∀ S, b.forEachOrder S = some (orders S)) ∧
        (∀ S p, l.queue S p = (orders S).filter fun o => o.1 = p) ∧
        ∀ id, (l.account id).accepted =
          (l.account id).filled + (l.account id).decremented + (l.account id).canceled +
          restingQty orders id :=
  ⟨by decide, events_determine_book scatterHash 1 (by decide) smallRun⟩

end OrderBook
end ExchangeSim.Book
