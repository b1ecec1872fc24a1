/- digest: The indexes of the truth book agree with its queues after any operations. -/

import ExchangeSim.L3.TruthBook

set_option autoImplicit false
set_option relaxedAutoImplicit false

namespace ExchangeSim.L3

open ExchangeSim.Lib

/-- The quantities of a queue, added up as the program adds them. -/
def Queue.total (q : Queue) : Qty := (q.map Order.qty).sum

/-- The sum of the quantities of a queue. -/
def Queue.sum (q : Queue) : Nat := (q.map fun o => o.qty.toNat).sum

theorem Queue.toNat_total (q : Queue) : q.total.toNat = q.sum % 2 ^ 64 := by
  induction q with
  | nil => rfl
  | cons o q ih =>
      have hcons : Queue.total (o :: q) = o.qty + Queue.total q := rfl
      have hsum : Queue.sum (o :: q) = o.qty.toNat + Queue.sum q := rfl
      rw [hcons, hsum, UInt64.toNat_add, ih]
      omega

theorem Queue.total_append (p q : Queue) : Queue.total (p ++ q) = p.total + q.total := by
  rw [Queue.total, List.map_append, List.sum_append]
  rfl

theorem Queue.total_cons (o : Order) (q : Queue) : Queue.total (o :: q) = o.qty + q.total := rfl

namespace TruthBook

section Storing

variable (b : TruthBook) (S : Side) (px : Price) (q : Queue) (t : Qty) (U : Side) (py : Price)

theorem queue_put : (b.put S px q t).queue U py = if U = S ∧ py = px then some q
    else b.queue U py := by
  simp only [queue, put]
  by_cases hU : U = S
  · subst hU
    simp [SortedMap.find?_insert]
  · simp [hU]

theorem queue_drop : (b.drop S px).queue U py = if U = S ∧ py = px then none else b.queue U py := by
  simp only [queue, drop]
  by_cases hU : U = S
  · subst hU
    simp [SortedMap.find?_erase]
  · simp [hU]

theorem totals_put : (b.put S px q t).totals U py = if U = S ∧ py = px then some t
    else b.totals U py := by
  simp only [put]
  by_cases hU : U = S
  · subst hU
    by_cases hp : py = px
    · simp [hp]
    · simp [hp]
  · simp [hU]

theorem totals_drop : (b.drop S px).totals U py = if U = S ∧ py = px then none
    else b.totals U py := by
  simp only [drop]
  by_cases hU : U = S
  · subst hU
    by_cases hp : py = px
    · simp [hp]
    · simp [hp]
  · simp [hU]

end Storing

structure Stores (b : TruthBook) (S : Side) (px : Price) (q : Queue) (b' : TruthBook) : Prop where
  queue : ∀ U py, b'.queue U py = if U = S ∧ py = px then (if q = [] then none else some q)
    else b.queue U py
  totals : ∀ U py, b'.totals U py = if U = S ∧ py = px then (if q = [] then none else some q.total)
    else b.totals U py

variable {b b' : TruthBook} {S : Side} {px : Price} {q : Queue}

theorem Stores.level (h : Stores b S px q b') (U : Side) (py : Price) :
    b'.level U py = if U = S ∧ py = px then q else b.level U py := by
  rw [TruthBook.level, h.queue, TruthBook.level]
  split
  · split
    · rename_i hq
      rw [hq]
      rfl
    · rfl
  · rfl

theorem stores_put (hq : q ≠ []) : Stores b S px q (b.put S px q q.total) where
  queue := by
    intro U py
    rw [queue_put, if_neg hq]
  totals := by
    intro U py
    rw [totals_put, if_neg hq]

theorem stores_drop (hq : q = []) : Stores b S px q (b.drop S px) where
  queue := by
    intro U py
    rw [queue_drop, if_pos hq]
  totals := by
    intro U py
    rw [totals_drop, if_pos hq]

structure Rep (b : TruthBook) : Prop where
  below : ∀ S px, ∀ o ∈ b.level S px, o.node < b.fresh
  nodes : ∀ S px, ((b.level S px).map Order.node).Nodup
  indexed : ∀ S px, ∀ o ∈ b.level S px, b.where_ o.id = some ⟨S, px, o.node⟩
  held : ∀ id loc, b.where_ id = some loc → ∃ o ∈ b.level loc.side loc.px,
    o.node = loc.it ∧ o.id = id
  kept : ∀ S px, b.queue S px ≠ some []
  totals : ∀ S px, b.totals S px = (b.queue S px).map Queue.total

theorem rep_empty : Rep {} where
  below := by
    intro S px o ho
    cases ho
  nodes := fun S px => List.nodup_nil
  indexed := by
    intro S px o ho
    cases ho
  held := by
    intro id loc h
    cases h
  kept := by
    intro S px h
    cases h
  totals := fun S px => rfl

theorem Rep.getD_totals (h : Rep b) (S : Side) (px : Price) :
    (b.totals S px).getD 0 = (b.level S px).total := by
  rw [h.totals, TruthBook.level]
  cases b.queue S px with
  | none => rfl
  | some q => rfl

theorem Stores.kept (h : Rep b) (hs : Stores b S px q b') (U : Side) (py : Price) :
    b'.queue U py ≠ some [] := by
  rw [hs.queue]
  split
  · split
    · rintro ⟨⟩
    · rename_i hq
      exact fun he => hq (Option.some.inj he)
  · exact h.kept U py

theorem Stores.totals_eq (h : Rep b) (hs : Stores b S px q b') (U : Side) (py : Price) :
    b'.totals U py = (b'.queue U py).map Queue.total := by
  rw [hs.totals, hs.queue]
  split
  · split
    · rfl
    · rfl
  · exact h.totals U py

theorem Rep.unique (h : Rep b) {x y : Order} (hx : x ∈ b.level S px) (hy : y ∈ b.level S px)
    (hid : x.id = y.id) : x = y := by
  have hnode : x.node = y.node := by
    have hx' := h.indexed S px x hx
    rw [hid, h.indexed S px y hy] at hx'
    exact (Loc.mk.inj (Option.some.inj hx')).2.2.symm
  exact List.inj_on_of_nodup_map (h.nodes S px) hx hy hnode

structure Found (b : TruthBook) (id : OrderId) (loc : Loc) (o : Order) (l r : Queue) : Prop where
  index : b.where_ id = some loc
  split : b.level loc.side loc.px = l ++ o :: r
  node : o.node = loc.it
  name : o.id = id
  others : ∀ x ∈ l ++ r, x.node ≠ loc.it ∧ x.id ≠ id

theorem Rep.found (h : Rep b) {id : OrderId} {loc : Loc} {o : Order}
    (hloc : b.locate id = some (loc, o)) :
    ∃ l r, Found b id loc o l r := by
  obtain ⟨loc', hwhere, hmap⟩ := Option.bind_eq_some_iff.mp hloc
  obtain ⟨o', hderef, heq⟩ := Option.map_eq_some_iff.mp hmap
  obtain ⟨rfl, rfl⟩ := Prod.mk.inj heq
  have hmem := List.mem_of_find?_eq_some hderef
  have hnode : o'.node = loc'.it := by simpa using List.find?_some hderef
  obtain ⟨l, r, hsplit⟩ := List.append_of_mem hmem
  have hnodes := h.nodes loc'.side loc'.px
  obtain ⟨x, hx, hxn, hxid⟩ := h.held id loc' hwhere
  have hid : o'.id = id := by
    rw [← hxid, List.inj_on_of_nodup_map hnodes hmem hx (hnode.trans hxn.symm)]
  refine ⟨l, r, hwhere, hsplit, hnode, hid, fun y hy => ?_⟩
  have hy' : y ∈ b.level loc'.side loc'.px := by
    rw [hsplit]
    simp only [List.mem_append, List.mem_cons] at hy ⊢
    tauto
  have hne : y.node ≠ loc'.it := by
    rw [hsplit, List.map_append, List.map_cons, List.nodup_append, List.nodup_cons] at hnodes
    rw [← hnode]
    rcases List.mem_append.mp hy with hy | hy
    · exact hnodes.2.2 _ (List.mem_map_of_mem hy) _ List.mem_cons_self
    · intro he
      exact hnodes.2.1.1 (he ▸ List.mem_map_of_mem hy)
  refine ⟨hne, fun he => hne ?_⟩
  rw [h.unique hy' hmem (he.trans hid.symm), hnode]

theorem Rep.locate_isSome (h : Rep b) {id : OrderId} {loc : Loc} (hw : b.where_ id = some loc) :
    ∃ o, b.locate id = some (loc, o) := by
  obtain ⟨o, ho, hnode, _⟩ := h.held id loc hw
  have hfind : (b.deref loc).isSome = true := by
    rw [deref, List.find?_isSome]
    exact ⟨o, ho, by simpa using hnode⟩
  obtain ⟨x, hx⟩ := Option.isSome_iff_exists.mp hfind
  exact ⟨x, by rw [locate, hw, Option.bind_some, hx, Option.map_some]⟩

/-! ### The operations -/

section Located

variable {id : OrderId} {loc : Loc} {o : Order} {l r : Queue}

theorem Found.mem (f : Found b id loc o l r) {x : Order} : x ∈ b.level loc.side loc.px ↔
    x = o ∨ x ∈ l ++ r := by
  rw [f.split]
  simp only [List.mem_append, List.mem_cons]
  tauto

theorem Found.mem_of_ne (f : Found b id loc o l r) {x : Order} (hx : x ∈ b.level loc.side loc.px)
    (hid : x.id ≠ id) :
    x ∈ l ++ r :=
  (f.mem.mp hx).resolve_left fun he => hid (he ▸ f.name)

theorem Found.map_level (f : Found b id loc o l r) (qty : Qty) :
    ((b.level loc.side loc.px).map fun x => if x.node = loc.it then { x with qty := qty } else x) =
      l ++ { o with qty := qty } :: r := by
  have hself : ∀ xs : Queue, (∀ x ∈ xs, x.node ≠ loc.it) →
      (xs.map fun x => if x.node = loc.it then { x with qty := qty } else x) = xs := by
    intro xs hxs
    rw [List.map_congr_left fun x hx => if_neg (hxs x hx), List.map_id']
  have hothers := fun x hx => (f.others x hx).1
  rw [List.forall_mem_append] at hothers
  rw [f.split, List.map_append, List.map_cons, hself l hothers.1, hself r hothers.2, if_pos f.node]

theorem Found.filter_level (f : Found b id loc o l r) :
    ((b.level loc.side loc.px).filter fun x => x.node ≠ loc.it) = l ++ r := by
  have hself : ∀ xs : Queue, (∀ x ∈ xs, x.node ≠ loc.it) →
      (xs.filter fun x => x.node ≠ loc.it) = xs := by
    intro xs hxs
    rw [List.filter_eq_self]
    exact fun x hx => decide_eq_true (hxs x hx)
  have hothers := fun x hx => (f.others x hx).1
  rw [List.forall_mem_append] at hothers
  rw [f.split, List.filter_append, List.filter_cons_of_neg (by simpa using f.node),
    hself l hothers.1, hself r hothers.2]

theorem Found.total (f : Found b id loc o l r) :
    (b.level loc.side loc.px).total = o.qty + Queue.total (l ++ r) := by
  rw [f.split, Queue.total_append, Queue.total_cons, Queue.total_append]
  grind

theorem Found.stores_setQty (f : Found b id loc o l r) (qty total : Qty)
    (ht : total = qty + Queue.total (l ++ r)) :
    Stores b loc.side loc.px (l ++ { o with qty := qty } :: r) (b.setQty loc qty total) := by
  have htotal : total = Queue.total (l ++ { o with qty := qty } :: r) := by
    rw [ht, Queue.total_append, Queue.total_append, Queue.total_cons]
    grind
  rw [setQty, f.map_level, htotal]
  exact stores_put (by simp)

theorem Found.stores_eraseAt (h : Rep b) (f : Found b id loc o l r) :
    Stores b loc.side loc.px (l ++ r) (b.eraseAt loc o) := by
  have htotal : (b.totals loc.side loc.px).getD 0 - o.qty = Queue.total (l ++ r) := by
    rw [h.getD_totals, f.total]
    grind
  rw [eraseAt]
  simp only [f.filter_level, htotal]
  split
  · rename_i hq
    exact stores_drop hq
  · rename_i hq
    exact stores_put hq

theorem Rep.setQty (h : Rep b) (f : Found b id loc o l r) (qty total : Qty)
    (ht : total = qty + Queue.total (l ++ r)) :
    Rep (b.setQty loc qty total) := by
  have hs := f.stores_setQty qty total ht
  -- the orders keep their names and places
  have hold : ∀ U py, ∀ x ∈ (b.setQty loc qty total).level U py, ∃ y ∈ b.level U py,
      x.node = y.node ∧ x.id = y.id := by
    intro U py x hx
    rw [hs.level] at hx
    split at hx
    · rename_i hat
      rw [hat.1, hat.2]
      rcases List.mem_append.mp hx with hl | hr
      · exact ⟨x, f.mem.mpr (.inr (List.mem_append_left _ hl)), rfl, rfl⟩
      · rcases List.mem_cons.mp hr with rfl | hr
        · exact ⟨o, f.mem.mpr (.inl rfl), rfl, rfl⟩
        · exact ⟨x, f.mem.mpr (.inr (List.mem_append_right _ hr)), rfl, rfl⟩
    · exact ⟨x, hx, rfl, rfl⟩
  refine ⟨?_, ?_, ?_, ?_, hs.kept h, hs.totals_eq h⟩
  · intro U py x hx
    obtain ⟨y, hy, hnode, _⟩ := hold U py x hx
    rw [hnode]
    exact h.below U py y hy
  · intro U py
    rw [hs.level]
    split
    · have hn := h.nodes loc.side loc.px
      rw [f.split] at hn
      simpa using hn
    · exact h.nodes U py
  · intro U py x hx
    obtain ⟨y, hy, hnode, hid⟩ := hold U py x hx
    rw [hnode, hid]
    exact h.indexed U py y hy
  · intro id' loc' hw
    obtain ⟨y, hy, hnode, hid⟩ := h.held id' loc' hw
    rw [hs.level]
    split
    · rename_i hat
      rw [hat.1, hat.2] at hy
      by_cases hyo : y = o
      · subst hyo
        exact ⟨_, List.mem_append_right _ List.mem_cons_self, hnode, hid⟩
      · refine ⟨y, ?_, hnode, hid⟩
        rcases List.mem_append.mp ((f.mem.mp hy).resolve_left hyo) with hl | hr
        · exact List.mem_append_left _ hl
        · exact List.mem_append_right _ (List.mem_cons_of_mem _ hr)
    · exact ⟨y, hy, hnode, hid⟩

theorem Rep.taken (h : Rep b) (f : Found b id loc o l r) :
    Rep { b.eraseAt loc o with where_ := Function.update b.where_ id none } := by
  have hs := f.stores_eraseAt h
  have hs' : Stores b loc.side loc.px (l ++ r)
      { b.eraseAt loc o with where_ := Function.update b.where_ id none } :=
    ⟨hs.queue, hs.totals⟩
  have hfresh : (b.eraseAt loc o).fresh = b.fresh := by
    rw [eraseAt]
    split
    · rfl
    · rfl
  have hold : ∀ U py, ∀ x ∈ (b.eraseAt loc o).level U py, x ∈ b.level U py ∧ x.id ≠ id := by
    intro U py x hx
    rw [hs.level] at hx
    split at hx
    · rename_i hat
      rw [hat.1, hat.2]
      exact ⟨f.mem.mpr (.inr hx), (f.others x hx).2⟩
    · rename_i hat
      refine ⟨hx, fun hid => hat ?_⟩
      have hloc := h.indexed U py x hx
      rw [hid, f.index] at hloc
      obtain rfl := Option.some.inj hloc
      exact ⟨rfl, rfl⟩
  refine ⟨?_, ?_, ?_, ?_, hs'.kept h, hs'.totals_eq h⟩
  · intro U py x hx
    change x.node < (b.eraseAt loc o).fresh
    rw [hfresh]
    exact h.below U py x (hold U py x hx).1
  · intro U py
    change (((b.eraseAt loc o).level U py).map Order.node).Nodup
    rw [hs.level]
    split
    · have hn := h.nodes loc.side loc.px
      rw [f.split] at hn
      exact hn.sublist (((List.sublist_cons_self o r).append_left l).map _)
    · exact h.nodes U py
  · intro U py x hx
    obtain ⟨hx', hid⟩ := hold U py x hx
    change Function.update b.where_ id none x.id = _
    rw [Function.update_of_ne hid]
    exact h.indexed U py x hx'
  · intro id' loc' hw
    change Function.update b.where_ id none id' = _ at hw
    by_cases hid : id' = id
    · rw [hid, Function.update_self] at hw
      cases hw
    rw [Function.update_of_ne hid] at hw
    obtain ⟨y, hy, hnode, hyid⟩ := h.held id' loc' hw
    refine ⟨y, ?_, hnode, hyid⟩
    change y ∈ (b.eraseAt loc o).level loc'.side loc'.px
    rw [hs.level]
    split
    · rename_i hat
      rw [hat.1, hat.2] at hy
      exact f.mem_of_ne hy (hyid ▸ hid)
    · exact hy

end Located

theorem Rep.stores_add (h : Rep b) (id : OrderId) (S : Side) (px : Price)
    (qty : Qty) (ts : UInt64) :
    Stores b S px (b.level S px ++ [⟨b.fresh, id, qty, ts⟩]) (b.add id S px qty ts) := by
  have htotal : (b.totals S px).getD 0 + qty = Queue.total
      (b.level S px ++ [⟨b.fresh, id, qty, ts⟩]) := by
    rw [h.getD_totals, Queue.total_append]
    simp [Queue.total]
  have hs : Stores b S px _ (b.put S px _ _) :=
    stores_put (q := b.level S px ++ [⟨b.fresh, id, qty, ts⟩]) (by simp)
  rw [← htotal] at hs
  exact ⟨hs.queue, hs.totals⟩

theorem Rep.add (h : Rep b) {id : OrderId} (hnew : b.where_ id = none) (S : Side) (px : Price)
    (qty : Qty) (ts : UInt64) :
    Rep (b.add id S px qty ts) := by
  have hs := h.stores_add id S px qty ts
  have hmem : ∀ U py, ∀ x ∈ (b.add id S px qty ts).level U py, x ∈ b.level U py ∨
      (U = S ∧ py = px ∧ x = ⟨b.fresh, id, qty, ts⟩) := by
    intro U py x hx
    rw [hs.level] at hx
    split at hx
    · rename_i hat
      rcases List.mem_append.mp hx with hx | hx
      · exact .inl (hat.1 ▸ hat.2 ▸ hx)
      · exact .inr ⟨hat.1, hat.2, List.mem_singleton.mp hx⟩
    · exact .inl hx
  have hother : ∀ U py, ∀ x ∈ b.level U py, x.id ≠ id := by
    intro U py x hx hid
    have := h.indexed U py x hx
    rw [hid, hnew] at this
    cases this
  refine ⟨?_, ?_, ?_, ?_, hs.kept h, hs.totals_eq h⟩
  · intro U py x hx
    change x.node < b.fresh + 1
    rcases hmem U py x hx with hx | ⟨_, _, rfl⟩
    · exact Nat.lt_succ_of_lt (h.below U py x hx)
    · exact Nat.lt_succ_self _
  · intro U py
    rw [hs.level]
    split
    · rw [List.map_append, List.map_cons, List.map_nil, List.nodup_append]
      refine ⟨h.nodes S px, List.nodup_singleton _, fun n hn k hk he => ?_⟩
      obtain ⟨x, hx, rfl⟩ := List.mem_map.mp hn
      have := h.below S px x hx
      rw [List.mem_singleton.mp hk] at he
      change x.node = b.fresh at he
      omega
    · exact h.nodes U py
  · intro U py x hx
    change Function.update b.where_ id (some ⟨S, px, b.fresh⟩) x.id = _
    rcases hmem U py x hx with hx | ⟨rfl, rfl, rfl⟩
    · rw [Function.update_of_ne (hother U py x hx)]
      exact h.indexed U py x hx
    · rw [Function.update_self]
  · intro id' loc' hw
    change Function.update b.where_ id (some ⟨S, px, b.fresh⟩) id' = _ at hw
    by_cases hid : id' = id
    · subst hid
      rw [Function.update_self] at hw
      obtain rfl := Option.some.inj hw
      refine ⟨⟨b.fresh, id', qty, ts⟩, ?_, rfl, rfl⟩
      rw [hs.level, if_pos ⟨rfl, rfl⟩]
      exact List.mem_append_right _ List.mem_cons_self
    · rw [Function.update_of_ne hid] at hw
      obtain ⟨y, hy, hnode, hyid⟩ := h.held id' loc' hw
      refine ⟨y, ?_, hnode, hyid⟩
      rw [hs.level]
      split
      · rename_i hat
        rw [hat.1, hat.2] at hy
        exact List.mem_append_left _ hy
      · exact hy

theorem Rep.fill (h : Rep b) (maker : OrderId) (qty : Qty) : Rep (b.fill maker qty).1 := by
  rw [TruthBook.fill]
  cases hloc : b.locate maker with
  | none => exact h
  | some e =>
      obtain ⟨loc, o⟩ := e
      obtain ⟨l, r, f⟩ := h.found hloc
      simp only
      split
      · exact h
      · refine h.setQty f _ _ ?_
        rw [h.getD_totals, f.total]
        grind

theorem Rep.remove (h : Rep b) (id : OrderId) : Rep (b.remove id) := by
  rw [TruthBook.remove]
  cases hloc : b.locate id with
  | none => exact h
  | some e =>
      obtain ⟨loc, o⟩ := e
      obtain ⟨l, r, f⟩ := h.found hloc
      exact h.taken f

theorem Rep.change (h : Rep b) (id : OrderId) (newPx : Price) (newQty : Qty) (ts : UInt64) :
    Rep (b.change id newPx newQty ts) := by
  rw [TruthBook.change]
  cases hloc : b.locate id with
  | none => exact h
  | some e =>
      obtain ⟨loc, o⟩ := e
      obtain ⟨l, r, f⟩ := h.found hloc
      simp only
      split
      · refine h.setQty f _ _ ?_
        rw [h.getD_totals, f.total]
        grind
      · exact (h.taken f).add (Function.update_self ..) loc.side newPx newQty ts

/-! ### Runs -/

inductive Op where
  | clear
  | add (id : OrderId) (side : Side) (px : Price) (qty : Qty) (ts : UInt64)
  | fill (maker : OrderId) (qty : Qty)
  | remove (id : OrderId)
  | change (id : OrderId) (newPx : Price) (newQty : Qty) (ts : UInt64)

def Op.apply (b : TruthBook) : Op → TruthBook
  | .clear => b.clear
  | .add id side px qty ts => b.add id side px qty ts
  | .fill maker qty => (b.fill maker qty).1
  | .remove id => b.remove id
  | .change id newPx newQty ts => b.change id newPx newQty ts

/-- An order is added only under an id that is not held. -/
def Op.Allowed (b : TruthBook) : Op → Prop
  | .add id _ _ _ _ => b.contains id = false
  | _ => True

inductive Reachable : TruthBook → Prop where
  | start : Reachable {}
  | step {b : TruthBook} (op : Op) : Reachable b → op.Allowed b → Reachable (op.apply b)

theorem Rep.apply (h : Rep b) {op : Op} (hop : op.Allowed b) : Rep (op.apply b) := by
  cases op with
  | clear => exact rep_empty
  | add id side px qty ts =>
      exact h.add (Option.not_isSome_iff_eq_none.mp (Bool.not_eq_true _ ▸ hop)) side px qty ts
  | fill maker qty => exact h.fill maker qty
  | remove id => exact h.remove id
  | change id newPx newQty ts => exact h.change id newPx newQty ts

theorem Reachable.rep (h : Reachable b) : Rep b := by
  induction h with
  | start => exact rep_empty
  | step op _ hop ih => exact ih.apply hop

/-! ### What the users of the book see -/

theorem Rep.find_eq_some (h : Rep b) {id : OrderId} {o : Order} {S : Side} {px : Price}
    (hf : b.find id = some (o, S, px)) :
    ∃ it l r, b.locate id = some (⟨S, px, it⟩, o) ∧ Found b id ⟨S, px, it⟩ o l r := by
  obtain ⟨⟨loc, o'⟩, hloc, heq⟩ := Option.map_eq_some_iff.mp hf
  obtain ⟨l, r, f⟩ := h.found hloc
  simp only [Prod.mk.injEq] at heq
  obtain ⟨rfl, rfl, rfl⟩ := heq
  exact ⟨loc.it, l, r, hloc, f⟩

theorem Rep.id_elsewhere (h : Rep b) {id : OrderId} {loc : Loc} (hw : b.where_ id = some loc)
    {U : Side} {py : Price} {x : Order} (hx : x ∈ b.level U py) (hid : x.id = id) :
    U = loc.side ∧ py = loc.px := by
  have hx' := h.indexed U py x hx
  rw [hid, hw] at hx'
  obtain rfl := Option.some.inj hx'
  exact ⟨rfl, rfl⟩

theorem Rep.count_eq_one (h : Rep b) {id : OrderId} {loc : Loc} (hw : b.where_ id = some loc) :
    ((b.level loc.side loc.px).filter fun x => x.id = id).length = 1 := by
  obtain ⟨o, hloc⟩ := h.locate_isSome hw
  obtain ⟨l, r, f⟩ := h.found hloc
  have hnone : ∀ xs : Queue, (∀ x ∈ xs, x.id ≠ id) → (xs.filter fun x => x.id = id) = [] := by
    intro xs hxs
    rw [List.filter_eq_nil_iff]
    exact fun x hx => by simpa using hxs x hx
  have hothers := fun x hx => (f.others x hx).2
  rw [List.forall_mem_append] at hothers
  rw [f.split, List.filter_append, List.filter_cons_of_pos (by simpa using f.name),
    hnone l hothers.1, hnone r hothers.2]
  rfl

theorem Rep.levelQty_eq (h : Rep b) (S : Side) (px : Price) (fits : (b.level S px).sum < 2 ^ 64) :
    (b.levelQty S px).toNat = (b.level S px).sum := by
  rw [levelQty, h.getD_totals, Queue.toNat_total, Nat.mod_eq_of_lt fits]

theorem mem_levels {S : Side} {e : Price × Queue} : e ∈ b.levels S ↔ b.queue S e.1 = some e.2 := by
  rw [queue, SortedMap.find?_eq_some]
  cases S with
  | buy => rw [levels, List.mem_reverse]
  | sell => rfl

theorem mapM_eq_some {α β : Type} {f : α → Option β} {g : α → β} {l : List α}
    (h : ∀ x ∈ l, f x = some (g x)) :
    l.mapM f = some (l.map g) := by
  induction l with
  | nil => rfl
  | cons x l ih =>
      rw [List.forall_mem_cons] at h
      rw [List.mapM_cons, h.1, ih h.2]
      rfl

theorem Rep.forEachLevel_eq (h : Rep b) (S : Side) (n : Nat) :
    b.forEachLevel S n = some (((b.levels S).take n).map fun e => (e.1, b.levelQty S e.1)) := by
  apply mapM_eq_some
  intro e he
  have hq := mem_levels.mp (List.mem_of_mem_take he)
  rw [levelQty, h.totals, hq]
  rfl

theorem Rep.fill_refuses (h : Rep b) (maker : OrderId) (qty : Qty) :
    ((b.fill maker qty).2 = false ↔ b.contains maker = false ∨ ∃ o S px,
      b.find maker = some (o, S, px) ∧ o.qty < qty) ∧
      ((b.fill maker qty).2 = false → (b.fill maker qty).1 = b) := by
  have hknown : b.contains maker = false ↔ b.locate maker = none := by
    rw [contains, Option.isSome_eq_false_iff, Option.isNone_iff_eq_none]
    constructor
    · intro hw
      rw [locate, hw]
      rfl
    · intro hloc
      by_contra hw
      obtain ⟨loc, hw⟩ := Option.ne_none_iff_exists'.mp hw
      obtain ⟨o, ho⟩ := h.locate_isSome hw
      rw [hloc] at ho
      cases ho
  rw [TruthBook.fill, TruthBook.find, hknown]
  cases hloc : b.locate maker with
  | none => simp
  | some e =>
      obtain ⟨loc, o⟩ := e
      by_cases hlt : o.qty < qty
      · simp [hlt]
      · simp [hlt]

theorem Rep.change_keeps (h : Rep b) {id : OrderId} {o : Order} {S : Side} {px : Price}
    (hf : b.find id = some (o, S, px)) {newQty : Qty} (hle : newQty ≤ o.qty) (ts : UInt64)
    (U : Side) (py : Price) :
    (b.change id px newQty ts).level U py =
      (b.level U py).map fun x => if x.id = id then { x with qty := newQty } else x := by
  obtain ⟨it, l, r, hloc, f⟩ := h.find_eq_some hf
  have hself : ∀ xs : Queue, (∀ x ∈ xs, x.id ≠ id) →
      (xs.map fun x => if x.id = id then { x with qty := newQty } else x) = xs := by
    intro xs hxs
    rw [List.map_congr_left fun x hx => if_neg (hxs x hx), List.map_id']
  rw [TruthBook.change, hloc]
  simp only [hle, and_self, if_true]
  rw [(f.stores_setQty newQty _ (by rw [h.getD_totals, f.total]; grind)).level]
  split
  · rename_i hat
    obtain ⟨rfl, rfl⟩ := hat
    have hothers := fun x hx => (f.others x hx).2
    rw [List.forall_mem_append] at hothers
    rw [f.split, List.map_append, List.map_cons, hself l hothers.1,
      hself r hothers.2, if_pos f.name]
  · rename_i hat
    exact (hself _ fun x hx hid => hat (h.id_elsewhere f.index hx hid)).symm

theorem Rep.change_moves (h : Rep b) {id : OrderId} {o : Order} {S : Side} {px : Price}
    (hf : b.find id = some (o, S, px)) {newPx : Price} {newQty : Qty}
    (hmove : ¬ (newPx = px ∧ newQty ≤ o.qty)) (ts : UInt64) (U : Side) (py : Price) :
    (b.change id newPx newQty ts).level U py = ((b.level U py).filter fun x => x.id ≠ id) ++
      if U = S ∧ py = newPx then [⟨b.fresh, id, newQty, ts⟩] else [] := by
  obtain ⟨it, l, r, hloc, f⟩ := h.find_eq_some hf
  have hself : ∀ xs : Queue, (∀ x ∈ xs, x.id ≠ id) → (xs.filter fun x => x.id ≠ id) = xs := by
    intro xs hxs
    rw [List.filter_eq_self]
    exact fun x hx => decide_eq_true (hxs x hx)
  have herased :
      ∀ U py, (b.eraseAt ⟨S, px, it⟩ o).level U py = (b.level U py).filter fun x => x.id ≠ id := by
    intro U py
    rw [(f.stores_eraseAt h).level]
    split
    · rename_i hat
      obtain ⟨rfl, rfl⟩ := hat
      have hothers := fun x hx => (f.others x hx).2
      rw [List.forall_mem_append] at hothers
      rw [f.split, List.filter_append, List.filter_cons_of_neg (by simpa using f.name),
        hself l hothers.1, hself r hothers.2]
    · rename_i hat
      exact (hself _ fun x hx hid => hat (h.id_elsewhere f.index hx hid)).symm
  have hfresh : (b.eraseAt ⟨S, px, it⟩ o).fresh = b.fresh := by
    rw [eraseAt]
    split
    · rfl
    · rfl
  rw [TruthBook.change, hloc]
  simp only [hmove, if_false]
  rw [((h.taken f).stores_add id S newPx newQty ts).level]
  change (if U = S ∧ py = newPx then (b.eraseAt ⟨S, px, it⟩ o).level S newPx ++
    [⟨(b.eraseAt ⟨S, px, it⟩ o).fresh, id, newQty, ts⟩] else (b.eraseAt ⟨S, px, it⟩ o).level U py) =
      _
  rw [hfresh, herased, herased]
  split
  · rename_i hat
    rw [hat.1, hat.2]
  · rw [List.append_nil]

structure Agrees (b : TruthBook) : Prop where
  placed : ∀ id loc, b.where_ id = some loc →
    ((b.level loc.side loc.px).filter fun x => x.id = id).length = 1 ∧
    ∀ U py, ∀ x ∈ b.level U py, x.id = id → U = loc.side ∧ py = loc.px
  known : ∀ S px, ∀ x ∈ b.level S px, b.contains x.id = true
  noEmpty : ∀ S px, b.queue S px ≠ some []
  levelTotal : ∀ S px, (b.level S px).sum < 2 ^ 64 → (b.levelQty S px).toNat = (b.level S px).sum
  shown : ∀ S n, b.forEachLevel S n = some
    (((b.levels S).take n).map fun e => (e.1, b.levelQty S e.1)) ∧
    ∀ e ∈ b.levels S, e.2 = b.level S e.1
  refuses : ∀ maker qty, ((b.fill maker qty).2 = false ↔
      b.contains maker = false ∨ ∃ o S px, b.find maker = some (o, S, px) ∧ o.qty < qty) ∧
    ((b.fill maker qty).2 = false → (b.fill maker qty).1 = b)
  keeps : ∀ id o S px newQty ts, b.find id = some (o, S, px) → newQty ≤ o.qty → ∀ U py,
    (b.change id px newQty ts).level U py =
      (b.level U py).map fun x => if x.id = id then { x with qty := newQty } else x
  moves : ∀ id o S px newPx newQty ts, b.find id = some (o, S, px) →
    ¬ (newPx = px ∧ newQty ≤ o.qty) → ∀ U py,
    (b.change id newPx newQty ts).level U py = ((b.level U py).filter fun x => x.id ≠ id) ++
      if U = S ∧ py = newPx then [⟨b.fresh, id, newQty, ts⟩] else []

theorem truth_book_agrees (b : TruthBook) (reachable : Reachable b) : Agrees b := by
  have h := reachable.rep
  refine ⟨fun id loc hw => ⟨h.count_eq_one hw, fun U py x => h.id_elsewhere hw⟩, fun S px x hx =>
    ?_, h.kept, h.levelQty_eq, fun S n => ⟨h.forEachLevel_eq S n, fun e he => ?_⟩, h.fill_refuses,
    fun id o S px newQty ts hf hle => h.change_keeps hf hle ts,
    fun id o S px newPx newQty ts hf hmove => h.change_moves hf hmove ts⟩
  · rw [contains, h.indexed S px x hx]
    rfl
  · rw [level, mem_levels.mp he]
    rfl

theorem truth_book_agrees_grown :
    Agrees (Op.apply (Op.apply (Op.apply {} (.add 1 .buy 10 5 0)) (.add 2 .buy 10 7 1))
      (.change 1 10 9 2)) ∧
      ((Op.apply (Op.apply (Op.apply {} (.add 1 .buy 10 5 0)) (.add 2 .buy 10 7 1))
        (.change 1 10 9 2)).level .buy 10).map
        Order.id = [2, 1] := by
  refine ⟨truth_book_agrees _ (.step _ (.step _ (.step _ .start ?_) ?_) trivial), by decide +kernel⟩
  · rfl
  · rfl

end TruthBook
end ExchangeSim.L3
