/- digest: The four consumers of one stream rebuild one book, up to the times at which its orders
   joined. -/

import ExchangeSim.L3.Consumers
import Mathlib.Data.List.Sort

set_option autoImplicit false
set_option relaxedAutoImplicit false

namespace ExchangeSim.L3

open ExchangeSim.Lib

def Order.strip (o : Order) : Order := { o with since := 0 }

namespace TruthBook

/-- The book without the times at which its orders joined, which are the only thing the consumers
write differently. -/
def forget (b : TruthBook) : TruthBook :=
  { b with queues := fun side => (b.queues side).mapValues (List.map Order.strip) }

theorem level_forget (b : TruthBook) (side : Side) (px : Price) :
    b.forget.level side px = (b.level side px).map Order.strip := by
  simp only [level, queue, forget, SortedMap.find?_mapValues]
  cases (b.queues side).find? px <;> rfl

theorem put_forget (b : TruthBook) (side : Side) (px : Price) (q : Queue) (total : Qty) :
    (b.put side px q total).forget = b.forget.put side px (q.map Order.strip) total := by
  simp only [put, forget, mk.injEq, and_true]
  funext S
  by_cases h : S = side
  · subst h
    simp [SortedMap.mapValues_insert]
  · simp [h]

theorem drop_forget (b : TruthBook) (side : Side) (px : Price) :
    (b.drop side px).forget = b.forget.drop side px := by
  simp only [drop, forget, mk.injEq, and_true]
  funext S
  by_cases h : S = side
  · subst h
    simp [SortedMap.mapValues_erase]
  · simp [h]

theorem clear_forget (b : TruthBook) : b.clear.forget = b.forget.clear := rfl

theorem add_forget (b : TruthBook) (id : OrderId) (side : Side) (px : Price)
    (qty : Qty) (ts : UInt64) :
    (b.add id side px qty ts).forget = b.forget.add id side px qty 0 := by
  have h := put_forget b side px (b.level side px ++ [⟨b.fresh, id, qty, ts⟩])
    ((b.totals side px).getD 0 + qty)
  rw [List.map_append, ← level_forget] at h
  have hq := congrArg queues h
  simp only [add, forget, mk.injEq, and_true] at hq ⊢
  exact ⟨hq, trivial, rfl⟩

theorem deref_forget (b : TruthBook) (loc : Loc) :
    b.forget.deref loc = (b.deref loc).map Order.strip := by
  simp only [deref, level_forget, List.find?_map]
  rfl

theorem locate_forget (b : TruthBook) (id : OrderId) :
    b.forget.locate id = (b.locate id).map fun e => (e.1, e.2.strip) := by
  simp only [locate, deref_forget]
  change (b.where_ id).bind _ = _
  cases b.where_ id with
  | none => rfl
  | some loc =>
      simp only [Option.bind_some, Option.map_map]
      rfl

theorem setQty_forget (b : TruthBook) (loc : Loc) (qty total : Qty) :
    (b.setQty loc qty total).forget = b.forget.setQty loc qty total := by
  rw [setQty, put_forget, setQty, level_forget, List.map_map, List.map_map]
  congr 1
  apply List.map_congr_left
  intro o _
  simp only [Function.comp_apply, Order.strip]
  by_cases h : o.node = loc.it
  · simp only [h, if_true]
  · simp only [h, if_false]

theorem eraseAt_forget (b : TruthBook) (loc : Loc) (o : Order) :
    (b.eraseAt loc o).forget = b.forget.eraseAt loc o.strip := by
  have hq : (b.forget.level loc.side loc.px).filter (fun x => x.node ≠ loc.it)
      = ((b.level loc.side loc.px).filter fun x => x.node ≠ loc.it).map Order.strip := by
    rw [level_forget, List.filter_map]
    rfl
  simp only [eraseAt]
  rw [hq]
  by_cases h : ((b.level loc.side loc.px).filter fun x => x.node ≠ loc.it) = []
  · rw [if_pos h, if_pos (List.map_eq_nil_iff.mpr h)]
    exact drop_forget ..
  · rw [if_neg h, if_neg (mt List.map_eq_nil_iff.mp h)]
    exact put_forget ..

theorem fill_forget (b : TruthBook) (maker : OrderId) (qty : Qty) :
    (b.fill maker qty).1.forget = (b.forget.fill maker qty).1 := by
  simp only [fill, locate_forget]
  cases b.locate maker with
  | none => rfl
  | some e =>
      simp only [Option.map_some, Order.strip]
      split
      · rfl
      · exact setQty_forget ..

theorem unindexed_forget (b : TruthBook) (id : OrderId) (loc : Loc) (o : Order) :
    forget { b.eraseAt loc o with where_ := Function.update b.where_ id none }
      = { b.forget.eraseAt loc o.strip with
          where_ := Function.update b.forget.where_ id none } := by
  rw [← eraseAt_forget]
  rfl

theorem remove_forget (b : TruthBook) (id : OrderId) :
    (b.remove id).forget = b.forget.remove id := by
  simp only [remove, locate_forget]
  cases b.locate id with
  | none => rfl
  | some e => exact unindexed_forget ..

theorem change_forget (b : TruthBook) (id : OrderId) (px : Price) (qty : Qty) (ts : UInt64) :
    (b.change id px qty ts).forget = b.forget.change id px qty 0 := by
  simp only [change, locate_forget]
  cases b.locate id with
  | none => rfl
  | some e =>
      simp only [Option.map_some]
      rw [← unindexed_forget, ← add_forget _ _ _ _ _ ts]
      by_cases h : px = e.1.px ∧ qty ≤ e.2.qty
      · rw [if_pos h, if_pos (show px = e.1.px ∧ qty ≤ e.2.strip.qty from h)]
        exact setQty_forget ..
      · rw [if_neg h, if_neg (show ¬ (px = e.1.px ∧ qty ≤ e.2.strip.qty) from h)]

theorem find_forget (b : TruthBook) (id : OrderId) :
    b.forget.find id = (b.find id).map fun e => (e.1.strip, e.2) := by
  simp only [find, locate_forget, Option.map_map]
  rfl

end TruthBook

/-- The application of a record to a book that keeps no times. -/
def reference : TruthBook → Rec → TruthBook := applyPriced fun _ => 0

theorem applyPriced_forget (since : Rec → UInt64) (b : TruthBook) (r : Rec) :
    (applyPriced since b r).forget = reference b.forget r := by
  unfold reference applyPriced
  cases r.kind with
  | «open» => exact TruthBook.add_forget ..
  | «match» => exact TruthBook.fill_forget ..
  | done => exact TruthBook.remove_forget ..
  | change =>
      dsimp only
      split
      · rw [TruthBook.find_forget]
        cases b.find r.id with
        | none => rfl
        | some e =>
            simp only [Option.map_some]
            exact TruthBook.change_forget ..
      · rfl
  | _ => rfl

/-- A change without a price concerns no order that is held at a price of its own. -/
def Priced (b : TruthBook) (r : Rec) : Prop :=
  r.kind = .change → r.flags &&& kFundsChange = 0 → r.px = 0 → ∀ o side px,
    b.find r.id = some (o, side, px) → px = 0

theorem priced_forget {b : TruthBook} {r : Rec} : Priced b.forget r ↔ Priced b r := by
  unfold Priced
  refine forall_congr' fun _ => forall_congr' fun _ => forall_congr' fun _ => ?_
  rw [TruthBook.find_forget]
  cases b.find r.id with
  | none => simp
  | some e =>
      obtain ⟨o, side, px⟩ := e
      simp

theorem Features.apply_forget (b : TruthBook) (r : Rec) (h : Priced b r) :
    (Features.apply b r).forget = reference b.forget r := by
  rw [← applyPriced_forget Rec.seq]
  unfold Features.apply applyPriced
  cases hk : r.kind with
  | change =>
      dsimp only
      split
      · rename_i hflag
        cases hf : b.find r.id with
        | none =>
            -- an order that is not held is not changed
            have hl : b.locate r.id = none := by simpa [TruthBook.find] using hf
            rw [TruthBook.change, hl]
        | some e =>
            obtain ⟨o, side, px⟩ := e
            by_cases hpx : r.px = 0
            · simp only [hpx, ne_eq, not_true_eq_false, if_false]
              rw [h hk hflag hpx o side px hf]
            · simp only [ne_eq, hpx, not_false_eq_true, if_true]
      · rfl
  | _ => rfl

/-- Each record of a list is priced where its turn comes. -/
def PricedAll : TruthBook → List Rec → Prop
  | _, [] => True
  | b, r :: rs => Priced b r ∧ PricedAll (reference b r) rs

theorem pricedAll_forget {b : TruthBook} {rs : List Rec} :
    PricedAll b.forget rs ↔ PricedAll b rs := by
  induction rs generalizing b with
  | nil => rfl
  | cons r rs ih =>
      have hstep : reference b.forget r = (reference b r).forget := (applyPriced_forget _ b r).symm
      rw [PricedAll, PricedAll, priced_forget, hstep, ih]

/-- The sequence numbers of the records are those that follow `s`. -/
def Follow (s : UInt64) (rs : List Rec) : Prop :=
  rs.map (fun e => e.seq.toNat) = List.range' (s.toNat + 1) rs.length

theorem follow_cons {s : UInt64} {r : Rec} {rs : List Rec} :
    Follow s (r :: rs) ↔ r.seq.toNat = s.toNat + 1 ∧ Follow r.seq rs := by
  unfold Follow
  rw [List.map_cons, List.length_cons, List.range'_succ, List.cons.injEq]
  constructor
  · rintro ⟨hr, hrs⟩
    exact ⟨hr, by rw [hr]; exact hrs⟩
  · rintro ⟨hr, hrs⟩
    exact ⟨hr, by rw [hr] at hrs; exact hrs⟩

theorem Follow.strict {s : UInt64} {rs : List Rec} (h : Follow s rs) :
    rs.Pairwise fun a b => a.seq.toNat < b.seq.toNat := by
  have hp : (rs.map fun e => e.seq.toNat).Pairwise (· < ·) := by
    rw [h]
    exact List.pairwise_lt_range'
  exact List.pairwise_map.mp hp

theorem SeqSort.filter_eq (sort : SeqSort) {s : UInt64} {pre rs : List Rec} (p : Rec → Bool)
    (perm : rs.Perm (pre.filter p)) (h : Follow s rs) : (sort.sort pre).filter p = rs := by
  have hperm : ((sort.sort pre).filter p).Perm rs := ((sort.perm pre).filter p).trans perm.symm
  have hsorted : ((sort.sort pre).filter p).Pairwise fun a b => a.seq ≤ b.seq :=
    (sort.sorted pre).filter p
  refine List.Perm.eq_of_pairwise ?_ hsorted
    (h.strict.imp fun hlt => UInt64.le_iff_toNat_le.mpr hlt.le) hperm
  intro a b ha hb hab hba
  have hnodup : (rs.map fun e => e.seq.toNat).Nodup := by
    rw [h]
    exact List.nodup_range'
  have heq : a.seq = b.seq := UInt64.le_antisymm hab hba
  exact List.inj_on_of_nodup_map hnodup (hperm.subset ha) hb (congrArg UInt64.toNat heq)

namespace Consumer

def forget (c : Consumer) : Consumer := { c with book := c.book.forget }

/-- The records that a snapshot ending with `r` does not reflect. -/
def newer (c : Consumer) (r : Rec) : List Rec := c.pre.filter fun e => r.seq < e.seq

/-- The state and the next record on which the consumers agree about what to do: at a snapshot that
is used, the buffered records newer than it are numbered without a gap or a repeat from the next
number on, and no record that is applied moves an order for want of a price. -/
def Steady (c : Consumer) (r : Rec) : Prop :=
  match r.kind with
  | .snapOrder => True
  | .snapEnd => ¬ c.synced → ∃ rs, rs.Perm (c.newer r) ∧ Follow r.seq rs ∧ PricedAll c.book rs
  | _ => c.synced → c.snapSeq < r.seq → r.seq = c.lastSeq + 1 → Priced c.book r

theorem steady_forget {c : Consumer} {r : Rec} : c.forget.Steady r ↔ c.Steady r := by
  simp only [Steady, forget, newer, priced_forget, pricedAll_forget]

section Simulation

variable {apply : TruthBook → Rec → TruthBook}
  (faithful : ∀ b r, Priced b r → (apply b r).forget = reference b.forget r)

include faithful

theorem take_forget {c : Consumer} {r : Rec} (h : Priced c.book r) :
    (c.take apply r).forget = c.forget.take reference r := by
  simp only [take, forget, faithful c.book r h]

theorem onMessage_forget {c : Consumer} {r : Rec}
    (h : c.synced → c.snapSeq < r.seq → r.seq = c.lastSeq + 1 → Priced c.book r) :
    (c.onMessage apply r).forget = c.forget.onMessage reference r := by
  change _ = if ¬ c.synced then { c.forget with pre := c.pre ++ [r] } else _
  unfold onMessage
  by_cases hs : c.synced
  · rw [if_neg (not_not.mpr hs), if_neg (not_not.mpr hs)]
    change _ = if r.seq ≤ c.snapSeq then c.forget else if r.seq ≠ c.lastSeq + 1 then
      { c.forget with synced := false, pre := c.pre ++ [r] } else c.forget.take reference r
    split
    · rfl
    · rename_i hsnap
      split
      · rfl
      · rename_i hnext
        exact take_forget faithful (h hs (UInt64.not_le.mp hsnap) (not_not.mp hnext))
  · rw [if_pos hs, if_pos hs]
    rfl

theorem foldl_take_forget {c : Consumer} {rs : List Rec} (h : PricedAll c.book rs) :
    (rs.foldl (take apply) c).forget = rs.foldl (take reference) c.forget := by
  induction rs generalizing c with
  | nil => rfl
  | cons r rs ih =>
      rw [List.foldl_cons, List.foldl_cons, ← take_forget faithful h.1]
      apply ih
      change PricedAll (apply c.book r) rs
      rw [← pricedAll_forget, faithful c.book r h.1, ← applyPriced_forget, pricedAll_forget]
      exact h.2

end Simulation

theorem foldl_onMessage {apply : TruthBook → Rec → TruthBook} {c : Consumer}
    {rs : List Rec} (hs : c.synced) (hle : c.snapSeq ≤ c.lastSeq) (h : Follow c.lastSeq rs) :
    rs.foldl (onMessage apply) c = rs.foldl (take apply) c := by
  induction rs generalizing c with
  | nil => rfl
  | cons r rs ih =>
      obtain ⟨hr, hrs⟩ := follow_cons.mp h
      have hlt : c.snapSeq.toNat < r.seq.toNat := by
        have := UInt64.le_iff_toNat_le.mp hle
        omega
      have hnext : r.seq = c.lastSeq + 1 := by
        apply UInt64.toNat_inj.mp
        have := r.seq.toNat_lt
        rw [UInt64.toNat_add, hr]
        simp only [UInt64.reduceToNat]
        omega
      have htake : c.onMessage apply r = c.take apply r := by
        rw [onMessage, if_neg (not_not.mpr hs),
          if_neg (UInt64.not_le.mpr (UInt64.lt_iff_toNat_lt.mpr hlt)), if_neg (not_not.mpr hnext)]
      rw [List.foldl_cons, List.foldl_cons, htake]
      exact ih hs (UInt64.le_iff_toNat_le.mpr (Nat.le_of_lt hlt)) hrs

/-- A snapshot has just been completed. -/
def seeded (c : Consumer) (r : Rec) : Consumer :=
  { c with
    loading := false, synced := true, snapSeq := r.seq, lastSeq := r.seq, pre := [], applied := [] }

theorem flush_eq (sort : SeqSort) {apply : TruthBook → Rec → TruthBook}
    {replay : Consumer → Rec → Consumer} (hreplay : replay = take apply ∨ replay = onMessage apply)
    {c : Consumer} {r : Rec} {rs : List Rec} (perm : rs.Perm (c.newer r)) (h : Follow r.seq rs) :
    ((sort.sort c.pre).filter fun e => r.seq < e.seq).foldl replay (c.seeded r) = rs.foldl
      (take apply) (c.seeded r) := by
  rw [sort.filter_eq _ perm h]
  rcases hreplay with rfl | rfl
  · rfl
  · exact foldl_onMessage rfl UInt64.le_rfl h

section

variable {sort : SeqSort} {apply : TruthBook → Rec → TruthBook} {since : Rec → UInt64}
  {replay : Consumer → Rec → Consumer} {c : Consumer} {r : Rec}

theorem on_snapOrder (hk : r.kind = .snapOrder) :
    Consumer.on sort apply since replay c r =
      if c.synced then c
      else { c with
        book := (if c.loading then c.book else c.book.clear).add r.id r.sideOf r.px r.q (since r)
        loading := true } := by
  simp only [Consumer.on, hk]

theorem on_snapEnd (hk : r.kind = .snapEnd) :
    Consumer.on sort apply since replay c r =
      if c.synced then c
      else ((sort.sort c.pre).filter fun e => r.seq < e.seq).foldl replay (c.seeded r) := by
  simp only [Consumer.on, hk, seeded]

theorem on_message (horder : r.kind ≠ .snapOrder) (hend : r.kind ≠ .snapEnd) :
    Consumer.on sort apply since replay c r = c.onMessage apply r := by
  cases hk : r.kind with
  | snapOrder => exact absurd hk horder
  | snapEnd => exact absurd hk hend
  | _ => simp only [Consumer.on, hk]

end

/-- The consumer that keeps no times and looks for no gap among buffered records. -/
def follow (sort : SeqSort) : Consumer → Rec → Consumer :=
  Consumer.on sort reference (fun _ => 0) (take reference)

theorem on_forget (sort sort' : SeqSort) {apply : TruthBook → Rec → TruthBook}
    (since : Rec → UInt64) {replay : Consumer → Rec → Consumer}
    (hreplay : replay = take apply ∨ replay = onMessage apply)
    (faithful : ∀ b r, Priced b r → (apply b r).forget = reference b.forget r)
    {c : Consumer} {r : Rec} (h : c.Steady r) :
    (Consumer.on sort apply since replay c r).forget = c.forget.follow sort' r := by
  unfold Steady at h
  unfold follow
  split at h
  · rename_i hk
    rw [on_snapOrder hk, on_snapOrder hk]
    change _ = if c.synced then c.forget else _
    by_cases hs : c.synced
    · rw [if_pos hs, if_pos hs]
    · rw [if_neg hs, if_neg hs]
      have hbook : (if c.forget.loading then c.forget.book else c.forget.book.clear)
          = (if c.loading then c.book else c.book.clear).forget := by
        change (if c.loading then c.book.forget else c.book.forget.clear) = _
        split
        · rfl
        · exact (TruthBook.clear_forget _).symm
      rw [hbook, ← TruthBook.add_forget _ _ _ _ _ (since r)]
      rfl
  · rename_i hk
    rw [on_snapEnd hk, on_snapEnd hk]
    change _ = if c.synced then c.forget else _
    by_cases hs : c.synced
    · rw [if_pos hs, if_pos hs]
    · rw [if_neg hs, if_neg hs]
      obtain ⟨rs, perm, hfollow, hpriced⟩ := h hs
      have hbook : PricedAll (c.seeded r).book rs := hpriced
      have hleft := flush_eq sort hreplay perm hfollow
      have hright := flush_eq sort' (c := c.forget) (.inl (Eq.refl (take reference))) perm hfollow
      exact (congrArg forget hleft).trans ((foldl_take_forget faithful hbook).trans hright.symm)
  · rename_i hk hk'
    rw [on_message hk hk', on_message hk hk']
    exact onMessage_forget faithful h

structure Numbered (c : Consumer) : Prop where
  follow : Follow c.snapSeq c.applied
  last : c.lastSeq.toNat = c.snapSeq.toNat + c.applied.length

theorem Numbered.take {apply : TruthBook → Rec → TruthBook} {c : Consumer}
    (h : c.Numbered) {r : Rec} (hr : r.seq.toNat = c.lastSeq.toNat + 1) :
    (c.take apply r).Numbered := by
  constructor
  · change Follow c.snapSeq (c.applied ++ [r])
    have hrange : c.snapSeq.toNat + 1 + c.applied.length = r.seq.toNat := by
      rw [hr, h.last]
      omega
    unfold Follow
    rw [List.map_append, List.length_append, List.length_singleton, List.range'_1_concat,
      h.follow, hrange]
    rfl
  · change r.seq.toNat = c.snapSeq.toNat + (c.applied ++ [r]).length
    rw [hr, h.last, List.length_append, List.length_singleton]
    omega

theorem Numbered.foldl_take {apply : TruthBook → Rec → TruthBook} {c : Consumer}
    (h : c.Numbered) {rs : List Rec} (hrs : Follow c.lastSeq rs) :
    (rs.foldl (Consumer.take apply) c).Numbered := by
  induction rs generalizing c with
  | nil => exact h
  | cons r rs ih =>
      obtain ⟨hr, hrs⟩ := follow_cons.mp hrs
      exact ih (h.take hr) hrs

theorem Numbered.next {c : Consumer} (h : c.Numbered) {r : Rec} (hsnap : c.snapSeq < r.seq)
    (hnext : r.seq = c.lastSeq + 1) : r.seq.toNat = c.lastSeq.toNat + 1 := by
  have hlt := UInt64.lt_iff_toNat_lt.mp hsnap
  have hbound := c.lastSeq.toNat_lt
  have hlast := h.last
  have hmod : r.seq.toNat = (c.lastSeq.toNat + 1) % 2 ^ 64 := by
    rw [hnext, UInt64.toNat_add]
    rfl
  omega

structure Heard (records : List Rec) (c : Consumer) : Prop where
  pre : ∀ e ∈ c.pre, e ∈ records
  applied : ∀ e ∈ c.applied, e ∈ records

theorem foldl_take_heard {apply : TruthBook → Rec → TruthBook} {records : List Rec} {c : Consumer}
    (h : c.Heard records) {rs : List Rec} (hrs : ∀ e ∈ rs, e ∈ records) :
    (rs.foldl (take apply) c).Heard records := by
  induction rs generalizing c with
  | nil => exact h
  | cons r rs ih =>
      refine ih ⟨h.pre, ?_⟩ fun e he => hrs e (List.mem_cons_of_mem r he)
      intro e he
      rcases List.mem_append.mp he with he | he
      · exact h.applied e he
      · rw [List.mem_singleton.mp he]
        exact hrs r List.mem_cons_self

/-- One step of the consumer without gap checks keeps the numbering, and hears of the record at
most. -/
theorem on_take_keeps (sort : SeqSort) (apply : TruthBook → Rec → TruthBook) (since : Rec → UInt64)
    {c : Consumer} {r : Rec} {records : List Rec} (steady : c.Steady r) (h : c.Numbered)
    (heard : c.Heard records) :
    (Consumer.on sort apply since (take apply) c r).Numbered ∧
      (Consumer.on sort apply since (take apply) c r).Heard (records ++ [r]) := by
  have heard' : c.Heard (records ++ [r]) :=
    ⟨fun e he => List.mem_append_left _ (heard.pre e he),
      fun e he => List.mem_append_left _ (heard.applied e he)⟩
  have hbuffer : ∀ e ∈ c.pre ++ [r], e ∈ records ++ [r] := by
    intro e he
    rcases List.mem_append.mp he with he | he
    · exact heard'.pre e he
    · exact List.mem_append_right _ he
  unfold Steady at steady
  split at steady
  · rename_i hk
    rw [on_snapOrder hk]
    split
    · exact ⟨h, heard'⟩
    · exact ⟨⟨h.follow, h.last⟩, ⟨heard'.pre, heard'.applied⟩⟩
  · rename_i hk
    rw [on_snapEnd hk]
    by_cases hs : c.synced
    · rw [if_pos hs]
      exact ⟨h, heard'⟩
    · rw [if_neg hs]
      obtain ⟨rs, perm, hfollow, -⟩ := steady hs
      have hflush := flush_eq sort (.inl (Eq.refl (take apply))) perm hfollow
      have hseeded : (c.seeded r).Numbered := ⟨rfl, rfl⟩
      have hnumbered := @Numbered.foldl_take apply _ hseeded rs hfollow
      have hheard : (rs.foldl (take apply) (c.seeded r)).Heard (records ++ [r]) := by
        apply foldl_take_heard ⟨by simp [seeded], by simp [seeded]⟩
        intro e he
        exact heard'.pre e (List.mem_of_mem_filter (perm.subset he))
      rw [← hflush] at hnumbered hheard
      exact ⟨hnumbered, hheard⟩
  · rename_i hk hk'
    rw [on_message hk hk']
    unfold onMessage
    split
    · exact ⟨⟨h.follow, h.last⟩, ⟨hbuffer, heard'.applied⟩⟩
    · split
      · exact ⟨h, heard'⟩
      · rename_i hsnap
        split
        · exact ⟨⟨h.follow, h.last⟩, ⟨hbuffer, heard'.applied⟩⟩
        · rename_i hnext
          refine ⟨h.take (h.next (UInt64.not_le.mp hsnap) (not_not.mp hnext)), ?_⟩
          have hr : ∀ e ∈ [r], e ∈ records ++ [r] := fun e he => List.mem_append_right _ he
          exact foldl_take_heard heard' hr

end Consumer

/-- The orders of one side with their prices and sizes, best price first and in queue order. -/
def TruthBook.orders (b : TruthBook) (side : Side) : List (Price × OrderId × Qty) :=
  (b.forEach side).map fun e => (e.1, e.2.id, e.2.qty)

theorem TruthBook.orders_forget (b : TruthBook) (side : Side) :
    b.forget.orders side = b.orders side := by
  have hlevels : b.forget.levels side = (b.levels side).map fun e =>
    (e.1, e.2.map Order.strip) := by
    cases side with
    | buy => exact List.map_reverse.symm
    | sell => rfl
  simp only [orders, forEach, hlevels, List.map_flatMap, List.flatMap_map, List.map_map]
  rfl

structure Consumer.Complete (records : List Rec) (c : Consumer) : Prop where
  le : c.snapSeq ≤ c.lastSeq
  numbers : c.applied.map (fun e => e.seq.toNat)
    = List.range' (c.snapSeq.toNat + 1) (c.lastSeq.toNat - c.snapSeq.toNat)
  heard : ∀ e ∈ c.applied, e ∈ records

theorem Consumer.complete {records : List Rec} {c : Consumer} (h : c.Numbered)
    (heard : c.Heard records) :
    c.Complete records := by
  refine ⟨?_, ?_, heard.applied⟩
  · rw [UInt64.le_iff_toNat_le, h.last]
    omega
  · rw [h.last, Nat.add_sub_cancel_left]
    exact h.follow

/-- A stable sort by sequence number. -/
def SeqSort.insertion : SeqSort where
  sort := List.insertionSort fun a b => a.seq ≤ b.seq
  perm := List.perm_insertionSort _
  sorted := by
    intro l
    have : Std.Total fun a b : Rec => a.seq ≤ b.seq := ⟨fun a b => UInt64.le_total a.seq b.seq⟩
    have : IsTrans Rec fun a b => a.seq ≤ b.seq := ⟨fun _ _ _ => UInt64.le_trans⟩
    exact List.pairwise_insertionSort _ l

def Sorts.insertion : Sorts := ⟨.insertion, .insertion, .insertion, .insertion⟩

namespace Consumers

def Synced (c : Consumers) : Prop := c.inference.synced ∧ c.replay.synced ∧ c.study.synced ∧
    c.features.synced

structure SameTruth (records : List Rec) (c : Consumers) : Prop where
  replay : ∀ side, c.replay.book.orders side = c.inference.book.orders side
  study : ∀ side, c.study.book.orders side = c.inference.book.orders side
  features : ∀ side, c.features.book.orders side = c.inference.book.orders side
  inferenceComplete : c.inference.Complete records
  replayComplete : c.replay.Complete records
  studyComplete : c.study.Complete records
  featuresComplete : c.features.Complete records

/-- Whenever all four are in sync they hold one truth. -/
def Agree (records : List Rec) (c : Consumers) : Prop := c.Synced → c.SameTruth records

structure Alike (c : Consumers) : Prop where
  replay : c.replay.forget = c.inference.forget
  study : c.study.forget = c.inference.forget
  features : c.features.forget = c.inference.forget

theorem Alike.on {sorts : Sorts} {c c' : Consumers} {r : Rec} (h : c.Alike)
    (steady : c.inference.Steady r) (hon : on sorts c r = some c') : c'.Alike := by
  obtain ⟨replay, hreplay, hc⟩ := Option.bind_eq_some_iff.mp hon
  obtain rfl := Option.some.inj hc
  have hpriced (since : Rec → UInt64) : ∀ b r, Priced b r →
      (applyPriced since b r).forget = reference b.forget r :=
    fun b r _ => applyPriced_forget since b r
  have transfer {d : Consumer} (hd : d.forget = c.inference.forget) : d.Steady r := by
    rwa [← Consumer.steady_forget, hd, Consumer.steady_forget]
  have hinference :
      (Inference.on sorts.inference c.inference r).forget =
      c.inference.forget.follow sorts.inference r :=
    Consumer.on_forget _ _ _ (.inl rfl) (hpriced Rec.seq) steady
  constructor
  · have hreplayed : replay = Consumer.on sorts.replay Replay.apply Rec.ts
        (Consumer.onMessage Replay.apply) c.replay r := by
      unfold Replay.on at hreplay
      split at hreplay
      · exact absurd hreplay (by simp)
      · exact (Option.some.inj hreplay).symm
    rw [hinference, ← h.replay, hreplayed]
    exact Consumer.on_forget _ _ _ (.inr rfl) (hpriced Rec.ts) (transfer h.replay)
  · rw [hinference, ← h.study]
    exact Consumer.on_forget _ _ _ (.inr rfl) (hpriced Rec.seq) (transfer h.study)
  · rw [hinference, ← h.features]
    exact Consumer.on_forget _ _ _ (.inr rfl) Features.apply_forget (transfer h.features)

/-- Every record is met in a steady state. -/
def SteadyRun (sorts : Sorts) : Consumers → List Rec → Prop
  | _, [] => True
  | c, r :: records => c.inference.Steady r ∧ ∀ d, on sorts c r = some d → SteadyRun sorts d records

theorem SteadyRun.front {sorts : Sorts} {c : Consumers} {records more : List Rec}
    (h : SteadyRun sorts c (records ++ more)) : SteadyRun sorts c records := by
  induction records generalizing c with
  | nil => trivial
  | cons r records ih => exact ⟨h.1, fun d hd => ih (h.2 d hd)⟩

theorem run_alike {sorts : Sorts} {past records : List Rec} {c d : Consumers} (h : c.Alike)
    (hnumbered : c.inference.Numbered) (hheard : c.inference.Heard past)
    (steady : SteadyRun sorts c records) (hrun : records.foldlM (on sorts) c = some d) :
    d.Alike ∧ d.inference.Numbered ∧ d.inference.Heard (past ++ records) := by
  induction records generalizing c past with
  | nil =>
      obtain rfl := Option.some.inj hrun
      rw [List.append_nil]
      exact ⟨h, hnumbered, hheard⟩
  | cons r records ih =>
      rw [List.foldlM_cons] at hrun
      obtain ⟨b, hr, hrest⟩ := Option.bind_eq_some_iff.mp hrun
      have halike := h.on steady.1 hr
      have hlater := steady.2 b hr
      obtain ⟨replay, -, hb⟩ := Option.bind_eq_some_iff.mp hr
      obtain rfl := Option.some.inj hb
      have hkeeps := Consumer.on_take_keeps sorts.inference Inference.apply
        (fun _ => 0) steady.1 hnumbered hheard
      rw [List.append_cons]
      exact ih halike hkeeps.1 hkeeps.2 hlater hrest

theorem agree_of_forget {records : List Rec} {c d : Consumer} (h : d.forget = c.forget)
    (hc : c.Complete records) :
    (∀ side, d.book.orders side = c.book.orders side) ∧ d.Complete records := by
  have hfields := h
  simp only [Consumer.forget, Consumer.mk.injEq] at hfields
  obtain ⟨-, -, -, hsnap, hlast, -, happlied⟩ := hfields
  constructor
  · intro side
    rw [← TruthBook.orders_forget d.book, ← TruthBook.orders_forget c.book]
    exact congrArg (fun x => x.book.orders side) h
  · refine ⟨?_, ?_, ?_⟩
    · rw [hsnap, hlast]
      exact hc.le
    · rw [hsnap, hlast, happlied]
      exact hc.numbers
    · rw [happlied]
      exact hc.heard

/-- After each record of a steady run the consumers hold one truth. -/
theorem consumers_rebuild_one_truth (sorts : Sorts) (records : List Rec)
    (steady : SteadyRun sorts {} records) (past : List Rec) (before : past <+: records)
    (c : Consumers) (h : run sorts past = some c) : c.Agree past := by
  intro _
  obtain ⟨more, rfl⟩ := before
  have hnone : Consumer.Heard [] {} := ⟨by simp, by simp⟩
  have hzero : Consumer.Numbered {} := ⟨rfl, rfl⟩
  obtain ⟨halike, hnumbered, hheard⟩ := run_alike ⟨rfl, rfl, rfl⟩ hzero hnone steady.front h
  have hc : c.inference.Complete past := Consumer.complete hnumbered hheard
  have hreplay := agree_of_forget halike.replay hc
  have hstudy := agree_of_forget halike.study hc
  have hfeatures := agree_of_forget halike.features hc
  exact ⟨hreplay.1, hstudy.1, hfeatures.1, hc, hreplay.2, hstudy.2, hfeatures.2⟩

/-- A snapshot of one bid and one offer. -/
def snapshot (seq : UInt64) (bid offer : OrderId) (px : Price) : List Rec := [
  { seq := seq, id := bid, px := px, q := 5, kind := .snapOrder },
  { seq := seq, id := offer, px := px + 1, q := 5, kind := .snapOrder, side := 1 },
  { seq := seq, kind := .snapEnd }]

/-- Two records come before the snapshot that they follow, the later one first, and one after it. -/
def buffered : List Rec :=
  { seq := 12, id := 3, px := 98, q := 2, kind := .change } ::
    { seq := 11, id := 3, px := 100, q := 4, kind := .open } ::
    snapshot 10 1 2 100 ++ [{ seq := 13, id := 1, px := 99, q := 3, kind := .change }]

theorem buffered_steady : SteadyRun .insertion {} buffered := by
  have hpriced {b : TruthBook} {r : Rec} (hr : r.kind ≠ .change ∨ r.px ≠ 0) : Priced b r :=
    fun hk _ hpx =>
    absurd hpx (hr.resolve_left (not_not.mpr hk))
  refine ⟨fun hs => (nomatch hs),
      fun a ha => ⟨?_, fun b hb => ⟨trivial, fun c hc => ⟨trivial, fun d hd => ⟨?_, fun e he =>
    ⟨fun _ _ _ => hpriced (.inr (by decide)), fun _ _ => trivial⟩⟩⟩⟩⟩⟩
  · obtain rfl := Option.some.inj ha
    exact fun hs => nomatch hs
  · obtain rfl := Option.some.inj ha
    obtain rfl := Option.some.inj hb
    obtain rfl := Option.some.inj hc
    obtain rfl := Option.some.inj hd
    exact fun _ => ⟨[{ seq := 11, id := 3, px := 100, q := 4, kind := .open },
      { seq := 12, id := 3, px := 98, q := 2, kind := .change }], .swap _ _ [], rfl,
      hpriced (.inl (by decide)), hpriced (.inr (by decide)), trivial⟩

theorem consumers_rebuild_one_truth_repriced : ∃ c, run .insertion buffered = some c ∧ c.Synced ∧
    c.study.applied.map Rec.seq = [11, 12, 13] ∧ c.SameTruth buffered := by
  have hsome : ∃ c, run .insertion buffered = some c ∧ c.Synced ∧
      c.study.applied.map Rec.seq = [11, 12, 13] :=
    ⟨_, rfl, ⟨rfl, rfl, rfl, rfl⟩, rfl⟩
  obtain ⟨c, hc, hsynced, happlied⟩ := hsome
  exact ⟨c, hc, hsynced, happlied,
    consumers_rebuild_one_truth .insertion buffered buffered_steady buffered
    (List.prefix_refl _) c hc hsynced⟩

theorem not_agree_of_bids {records : List Rec} {c : Consumers} (hs : c.Synced)
    (h : c.features.book.orders .buy ≠ c.inference.book.orders .buy) : ¬ c.Agree records :=
  fun hagree => h ((hagree hs).features .buy)

/-- Without the condition: a change without a price moves an order to price zero in one consumer,
and a gap among the buffered records leaves another on the snapshot before. -/
theorem consumers_part :
    (∃ c, run .insertion (snapshot 10 1 2 100 ++
      [{ seq := 11, id := 1, q := 3, kind := .change }]) = some c ∧
      ¬ c.Agree (snapshot 10 1 2 100 ++ [{ seq := 11, id := 1, q := 3, kind := .change }])) ∧
    ∃ c, run .insertion ({ seq := 12, kind := .received } ::
      (snapshot 10 1 2 100 ++ snapshot 20 3 4 99)) = some c ∧
      ¬ c.Agree ({ seq := 12, kind := .received } ::
        (snapshot 10 1 2 100 ++ snapshot 20 3 4 99)) := by
  refine ⟨⟨_, rfl, not_agree_of_bids ⟨rfl, rfl, rfl, rfl⟩ ?_⟩,
    ⟨_, rfl, not_agree_of_bids ⟨rfl, rfl, rfl, rfl⟩ ?_⟩⟩
  · decide +kernel
  · decide +kernel

end Consumers

end ExchangeSim.L3
