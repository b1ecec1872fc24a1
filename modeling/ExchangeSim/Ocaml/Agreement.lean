/- digest: The OCaml model and the textbook book send the same events and hold the same orders. -/

import ExchangeSim.Book.ReferenceSound
import ExchangeSim.Ocaml.ExsimRef

set_option autoImplicit false
set_option relaxedAutoImplicit false

namespace ExchangeSim.ExsimRef

open Lib (SortedMap)
open Book (RefOrder RefQueue RefSide ReferenceBook Loc)
open Book.ReferenceBook (Index places places_cons before inRange QueueMatch SideMatch SideSound
    Sound matchQueue matchSide)

/-- The values of a native int of OCaml. -/
def Fits (x : Int) : Prop := -(2 ^ 62) ≤ x ∧ x < 2 ^ 62

instance (x : Int) : Decidable (Fits x) := by
  unfold Fits; infer_instance

structure ConfigFits (cfg : BookConfig) : Prop where
  minPrice : Fits cfg.minPrice.toInt
  numLevels : Fits cfg.numLevels
  maxOrders : Fits cfg.maxOrders
  maxPrice : Fits (cfg.minPrice.toInt + cfg.numLevels - 1)

/-- The numbers of a command are native ints, and it has a line in the text format, which gives
a cancel and a modify no side. -/
structure CommandFits (c : ExchangeSim.Command) : Prop where
  orderId : Fits c.orderId.toNat
  price : Fits c.price.toInt
  qty : Fits c.qty.toNat
  side : c.type ≠ .newOrder → c.side = .buy

def configOf (cfg : BookConfig) : Config :=
  ⟨cfg.minPrice.toInt, cfg.numLevels, cfg.maxOrders, cfg.stp⟩

/-- The override in bits 1-2 of the flags; zero is none. -/
def stpOverride (flags : UInt8) : Option Stp :=
  let v := (flags >>> 1) &&& 3
  if v = 0 then none
  else if v = 1 then some .cancelResting
  else if v = 2 then some .cancelIncoming
  else some .decrementCancel

/-- The command that `command_of_string` reads from the line of a command. -/
def commandOf (c : ExchangeSim.Command) : Command :=
  match c.type with
  | .newOrder =>
      .new c.orderId.toNat c.side c.price.toInt c.qty.toNat c.ordType c.tif (c.flags &&& 1 = 1)
        (stpOverride c.flags) c.owner.toNat
  | .cancel => .cancelOrder c.orderId.toNat
  | .modify => .modifyOrder c.orderId.toNat c.price.toInt c.qty.toNat

/-- The event of the model that an event of the engine is; a rejection names its request. -/
def eventOf (e : ExchangeSim.Event) : Option Event :=
  match e.type with
  | .accepted => some (.accepted e.orderId.toNat e.side e.price.toInt e.qty.toNat)
  | .rejected => e.request.map fun request => .rejected e.orderId.toNat e.side request e.reason
  | .trade => some (.trade e.orderId.toNat e.makerId.toNat e.side e.price.toInt
      e.qty.toNat e.leaves.toNat)
  | .canceled => some (.canceled e.orderId.toNat e.side e.price.toInt e.qty.toNat e.reason)
  | .modified => some (.modified e.orderId.toNat e.side e.price.toInt e.qty.toNat e.reason)

def orderOf (o : RefOrder) : Order := ⟨o.id.toNat, o.qty.toNat, o.owner.toNat⟩

def levelOf (x : Price × RefQueue) : Int × List Order := (x.1.toInt, x.2.map orderOf)

/-- The largest quantity of a native int. -/
def maxInt : Nat := 2 ^ 62 - 1

section Arithmetic

theorem wrap_of_fits {x : Int} (h : Fits x) : wrap x = x := by
  obtain ⟨h1, h2⟩ := h
  rw [wrap, Int.bmod]
  omega

theorem sub_of_le {a b : Qty} (h : b ≤ a) (ha : a.toNat ≤ maxInt) :
    sub a.toNat b.toNat = (a - b).toNat := by
  have hle := UInt64.le_iff_toNat_le.mp h
  rw [UInt64.toNat_sub_of_le _ _ h, sub, wrap_of_fits]
  · omega
  · rw [maxInt] at ha
    constructor <;> omega

theorem min_toNat (a b : Qty) : min (a.toNat : Int) b.toNat = (min a b).toNat := by
  rw [UInt64.min_def]
  split
  · rename_i h
    have := UInt64.le_iff_toNat_le.mp h
    omega
  · rename_i h
    rw [UInt64.le_iff_toNat_le] at h
    omega

theorem count_pred {n : Nat} (pos : 0 < n) (h : n < 2 ^ 62) : sub n 1 = (n - 1 : Nat) := by
  rw [sub, wrap_of_fits]
  · omega
  · constructor <;> omega

theorem ofNat_eq_iff {a b : UInt64} : (a.toNat : Int) = b.toNat ↔ a = b := by
  rw [← UInt64.toNat_inj]
  omega

theorem owner_eq_iff {a b : UInt32} : (a.toNat : Int) = b.toNat ↔ a = b := by
  rw [← UInt32.toNat_inj]
  omega

theorem meets_eq (S : Side) (limit p : Price) :
    meets S limit.toInt p.toInt = inRange S limit p := by
  cases S <;> simp only [meets, inRange, Int64.le_iff_toInt_le]

end Arithmetic

/-- A side of the model lists the levels of a side of the book. -/
def SameSide (m : Levels) (l : RefSide) : Prop := ∀ e, e ∈ m.entries ↔ ∃ x ∈ l, levelOf x = e

/-- The id map of the model has the entries of the book's. -/
def SameIndex (m : SortedMap Int (Side × Int)) (index : Index) : Prop :=
  ∀ e, e ∈ m.entries ↔ ∃ (id : OrderId) (loc : Loc), index.lookup id = some loc ∧
    ((id.toNat : Int), loc.side, loc.price.toInt) = e

section Maps

variable {m : SortedMap Int (Side × Int)} {index : Index}

theorem SameIndex.find? (h : SameIndex m index) (id : OrderId) :
    m.find? id.toNat = (index.lookup id).map fun loc => (loc.side, loc.price.toInt) := by
  apply Option.ext
  intro v
  rw [SortedMap.find?_eq_some, h, Option.map_eq_some_iff]
  constructor
  · rintro ⟨id', loc, hloc, he⟩
    have hid : id' = id := ofNat_eq_iff.mp (Prod.mk.inj he).1
    subst hid
    exact ⟨loc, hloc, (Prod.mk.inj he).2⟩
  · rintro ⟨loc, hloc, rfl⟩
    exact ⟨id, loc, hloc, rfl⟩

theorem SameIndex.erase (h : SameIndex m index) (id : OrderId) :
    SameIndex (m.erase id.toNat) (index.erase id) := by
  rintro ⟨k, v⟩
  rw [SortedMap.mem_erase, h]
  constructor
  · rintro ⟨hne, id', loc, hloc, he⟩
    refine ⟨id', loc, ?_, he⟩
    rw [AList.lookup_erase_ne]
    · exact hloc
    · rintro rfl
      exact hne (Prod.mk.inj he).1.symm
  · rintro ⟨id', loc, hloc, he⟩
    by_cases hid : id' = id
    · subst hid
      rw [AList.lookup_erase] at hloc
      cases hloc
    · rw [AList.lookup_erase_ne hid] at hloc
      refine ⟨?_, id', loc, hloc, he⟩
      rw [← (Prod.mk.inj he).1]
      exact fun hc => hid (ofNat_eq_iff.mp hc)

theorem SameIndex.insert (h : SameIndex m index) (id : OrderId) (loc : Loc) :
    SameIndex (m.insert id.toNat (loc.side, loc.price.toInt)) (index.insert id loc) := by
  rintro ⟨k, v⟩
  rw [SortedMap.mem_insert, h]
  constructor
  · rintro (⟨rfl, rfl⟩ | ⟨hne, id', loc', hloc, he⟩)
    · exact ⟨id, loc, AList.lookup_insert _, rfl⟩
    · refine ⟨id', loc', ?_, he⟩
      rw [AList.lookup_insert_ne]
      · exact hloc
      · rintro rfl
        exact hne (Prod.mk.inj he).1.symm
  · rintro ⟨id', loc', hloc, he⟩
    by_cases hid : id' = id
    · subst hid
      rw [AList.lookup_insert] at hloc
      cases hloc
      exact .inl ⟨(Prod.mk.inj he).1.symm, (Prod.mk.inj he).2.symm⟩
    · rw [AList.lookup_insert_ne hid] at hloc
      refine .inr ⟨?_, id', loc', hloc, he⟩
      rw [← (Prod.mk.inj he).1]
      exact fun hc => hid (ofNat_eq_iff.mp hc)

theorem levelOf_fst_eq {x : Price × RefQueue} {p : Price} {q : List Order}
    (h : levelOf x = (p.toInt, q)) :
    x.1 = p := Int64.toInt_inj.mp (Prod.mk.inj h).1

theorem SameSide.put {b b' : Levels} {l l' : RefSide} (h : SameSide b l) (px : Price) (r : RefQueue)
    (hb : ∀ p q, (p, q) ∈ b'.entries ↔
      (p = px.toInt ∧ q = r.map orderOf ∧ r ≠ []) ∨ (p ≠ px.toInt ∧ (p, q) ∈ b.entries))
    (hl : ∀ p q, (p, q) ∈ l' ↔ (p = px ∧ q = r ∧ r ≠ []) ∨ (p ≠ px ∧ (p, q) ∈ l)) :
    SameSide b' l' := by
  rintro ⟨p, q⟩
  rw [hb]
  constructor
  · rintro (⟨rfl, rfl, hne⟩ | ⟨hne, hm⟩)
    · exact ⟨(px, r), (hl px r).mpr (.inl ⟨rfl, rfl, hne⟩), rfl⟩
    · obtain ⟨x, hx, he⟩ := (h _).mp hm
      refine ⟨x, (hl x.1 x.2).mpr (.inr ⟨?_, hx⟩), he⟩
      rintro rfl
      exact hne (Prod.mk.inj he).1.symm
  · rintro ⟨⟨p', q'⟩, hx, he⟩
    rcases (hl p' q').mp hx with ⟨rfl, rfl, hne⟩ | ⟨hne, hm⟩
    · exact .inl ⟨(Prod.mk.inj he).1.symm, (Prod.mk.inj he).2.symm, hne⟩
    · refine .inr ⟨?_, (h _).mpr ⟨(p', q'), hm, he⟩⟩
      rw [← (Prod.mk.inj he).1]
      exact fun hc => hne (Int64.toInt_inj.mp hc)

theorem mem_putLevel (b : Levels) (px : Int) (r : RefQueue) (p : Int) (q : List Order) :
    (p, q) ∈ (putLevel b px (r.map orderOf)).entries ↔
      (p = px ∧ q = r.map orderOf ∧ r ≠ []) ∨ (p ≠ px ∧ (p, q) ∈ b.entries) := by
  rw [putLevel]
  by_cases hr : r = []
  · subst hr
    rw [List.map_nil, if_pos rfl, SortedMap.mem_erase]
    simp
  · rw [if_neg (by simpa using hr), SortedMap.mem_insert]
    simp [hr]

theorem SameSide.find? {b : Levels} {l : RefSide} (h : SameSide b l) {px : Price} {q : RefQueue}
    (hq : (px, q) ∈ l) :
    b.find? px.toInt = some (q.map orderOf) :=
  SortedMap.find?_eq_some.mpr ((h _).mpr ⟨(px, q), hq, rfl⟩)

theorem SameSide.find?_getD {Q : Nat} {S : Side} {b : Levels} {l : RefSide} (h : SameSide b l)
    (sound : SideSound Q S l) (px : Price) :
    (b.find? px.toInt).getD [] = (Book.ReferenceBook.queueAt px l).map orderOf := by
  by_cases hat : ∃ q, (px, q) ∈ l
  · obtain ⟨q, hq⟩ := hat
    rw [h.find? hq, Book.ReferenceBook.queueAt_of_mem sound hq]
    rfl
  · have hnone : b.find? px.toInt = none := by
      rw [Option.eq_none_iff_forall_ne_some]
      intro q hq
      obtain ⟨x, hx, he⟩ := (h _).mp (SortedMap.find?_eq_some.mp hq)
      obtain ⟨p, q'⟩ := x
      obtain rfl : p = px := levelOf_fst_eq he
      exact hat ⟨q', hx⟩
    rw [hnone, Book.ReferenceBook.queueAt_of_not_mem fun q hq => hat ⟨q, hq⟩]
    rfl

end Maps

section Sweep

variable (symbol : SymbolId) (taker : OrderId) (owner : OwnerId) (S : Side)
    (limit : Price) (stp : Stp)

structure Walks (t : T) (n : Nat) (q : RefQueue) (w : Walked) (m : QueueMatch) : Prop where
  qty : w.qty = m.qty.toNat
  remaining : w.remaining = m.queue.map orderOf
  stopped : w.stopped = m.stop
  events : m.events.map eventOf = w.events.map some
  index : SameIndex w.t.index m.index
  config : w.t.config = t.config
  books : bookOf w.t = bookOf t
  count : w.t.count = (n - q.length + m.queue.length : Nat)

private theorem Walks.drop {t : T} {n : Nat} {o : RefOrder} {q : RefQueue} {w : Walked}
    {m : QueueMatch} {index : SortedMap Int (Side × Int)} {count : Int}
    (h : Walks { t with index := index, count := count } (n - 1) q w m)
    (evs : List ExchangeSim.Event) (evs' : List Event) (he : evs.map eventOf = evs'.map some) :
    Walks t n (o :: q) { w with events := evs' ++ w.events }
      { m with events := evs ++ m.events } where
  qty := h.qty
  remaining := h.remaining
  stopped := h.stopped
  events := by rw [List.map_append, List.map_append, he, h.events]
  index := h.index
  config := h.config
  books := by
    rw [h.books]
    funext T
    cases T <;> rfl
  count := by
    rw [h.count, List.length_cons]
    congr 2
    omega

theorem walk_eq (px : Price) (q : RefQueue) (hq : ∀ o ∈ q, o.qty ≠ 0 ∧ o.qty.toNat ≤ maxInt)
    {t : T} {qty : Qty} (hqty : qty ≠ 0) (hmax : qty.toNat ≤ maxInt) {index : Index}
    (hindex : SameIndex t.index index) {n : Nat} (hcount : t.count = n) (hn : q.length ≤ n)
    (hsmall : n < 2 ^ 62) :
    Walks t n q (walk taker.toNat owner.toNat S limit.toInt stp px.toInt t qty.toNat
      (q.map orderOf))
      (matchQueue symbol taker owner S limit px stp q qty index) := by
  induction q generalizing t qty index n with
  | nil => exact ⟨rfl, rfl, rfl, rfl, hindex, rfl, rfl, by simpa [walk, matchQueue] using hcount⟩
  | cons o q ih =>
      have hrest := fun x hx => hq x (List.mem_cons_of_mem o hx)
      obtain ⟨hpos, hbound⟩ := hq o List.mem_cons_self
      rw [List.length_cons] at hn
      have hpred : sub t.count 1 = (n - 1 : Nat) := by
        rw [hcount]
        exact count_pred (by omega) hsmall
      have unchanged : t.count = (n - (o :: q).length + (o :: q).length : Nat) := by
        rw [hcount, List.length_cons]
        congr 1
        omega
      have fewer : sub t.count 1 = (n - (o :: q).length + q.length : Nat) := by
        rw [hpred, List.length_cons]
        congr 1
        omega
      have next {qty' : Qty} (hqty' : qty' ≠ 0) (hmax' : qty'.toNat ≤ maxInt) :=
        ih hrest hqty' hmax' (t :=
          { t with index := t.index.erase o.id.toNat, count := sub t.count 1 })
          (hindex.erase o.id) hpred (by omega) (by omega)
      have hgt : (o.qty.toNat : Int) > qty.toNat ↔ qty < o.qty := by
        rw [UInt64.lt_iff_toNat_lt]
        omega
      rw [matchQueue, if_neg hqty, List.map_cons, walk]
      simp only [orderOf, owner_eq_iff, hgt, ofNat_eq_iff]
      by_cases hown : stp ≠ .none ∧ o.owner = owner
      · rw [if_pos hown, if_pos hown]
        by_cases hinc : stp = .cancelIncoming
        · rw [if_pos hinc, if_pos hinc]
          exact ⟨rfl, rfl, rfl, rfl, hindex, rfl, rfl, unchanged⟩
        rw [if_neg hinc, if_neg hinc]
        by_cases hlt : stp = .decrementCancel ∧ qty < o.qty
        · rw [if_pos hlt, if_pos hlt, sub_of_le (Std.le_of_lt hlt.2) hbound]
          exact ⟨rfl, rfl, rfl, rfl, hindex, rfl, rfl, unchanged⟩
        rw [if_neg hlt, if_neg hlt]
        by_cases hdec : stp = .decrementCancel
        · simp only [if_pos hdec]
          by_cases heq : o.qty = qty
          · simp only [if_pos heq]
            refine ⟨rfl, rfl, rfl, rfl, hindex.erase o.id, rfl, ?_, fewer⟩
            funext T
            cases T <;> rfl
          · have hle : o.qty ≤ qty := Std.not_lt.mp fun hc => hlt ⟨hdec, hc⟩
            have hne : qty - o.qty ≠ 0 := by grind
            have hsub := sub_of_le hle hmax
            have hless : (qty - o.qty).toNat ≤ maxInt := by
              rw [UInt64.toNat_sub_of_le _ _ hle]
              omega
            simp only [if_neg heq, hsub]
            exact (next hne hless).drop [_, _] [_, _] rfl
        · simp only [if_neg hdec]
          exact (next hqty hmax).drop [_] [_] rfl
      · rw [if_neg hown, if_neg hown]
        have hminl : min o.qty qty ≤ o.qty := by
          rw [UInt64.min_def]
          grind
        have hminr : min o.qty qty ≤ qty := by
          rw [UInt64.min_def]
          grind
        simp only [min_toNat, sub_of_le hminl hbound, sub_of_le hminr hmax]
        by_cases hleft : o.qty - min o.qty qty = 0
        · have hz : ¬ ((o.qty - min o.qty qty).toNat : Int) > 0 := by
            rw [hleft]
            decide
          simp only [if_pos hleft, if_neg hz]
          by_cases hdone : qty - min o.qty qty = 0
          · have hdone' : ((qty - min o.qty qty).toNat : Int) = 0 := by
              rw [hdone]
              rfl
            simp only [if_pos hdone']
            have hstop :
                matchQueue symbol taker owner S limit px stp q (qty - min o.qty qty)
                  (index.erase o.id) = ⟨q, 0, false, index.erase o.id, []⟩ := by
              rw [hdone]
              cases q with
              | nil => rfl
              | cons o' q' => rw [matchQueue, if_pos rfl]
            rw [hstop]
            refine ⟨rfl, rfl, rfl, rfl, hindex.erase o.id, rfl, ?_, fewer⟩
            funext T
            cases T <;> rfl
          · have hdone' : ¬ ((qty - min o.qty qty).toNat : Int) = 0 := by
              intro hc
              exact hdone (UInt64.toNat_inj.mp (by simpa using hc))
            have hless : (qty - min o.qty qty).toNat ≤ maxInt := by
              rw [UInt64.toNat_sub_of_le _ _ hminr]
              omega
            simp only [if_neg hdone']
            exact (next hdone hless).drop [_] [_] rfl
        · have hz : ((o.qty - min o.qty qty).toNat : Int) > 0 := by
            have : (o.qty - min o.qty qty).toNat ≠ 0 := fun hc => hleft (UInt64.toNat_inj.mp hc)
            omega
          simp only [if_neg hleft, if_pos hz]
          exact ⟨rfl, rfl, rfl, rfl, hindex, rfl, rfl, unchanged⟩

@[simp] theorem bookOf_withBook (t : T) (S : Side) (b : Levels) (T : Side) :
    bookOf (withBook t S b) T = if T = S then b else bookOf t T := by
  cases S <;> cases T <;> rfl

@[simp] theorem withBook_config (t : T) (S : Side) (b : Levels) :
    (withBook t S b).config = t.config := by
  cases S <;> rfl

@[simp] theorem withBook_index (t : T) (S : Side) (b : Levels) :
    (withBook t S b).index = t.index := by
  cases S <;> rfl

@[simp] theorem withBook_count (t : T) (S : Side) (b : Levels) :
    (withBook t S b).count = t.count := by
  cases S <;> rfl

structure Sweeps (t : T) (n : Nat) (l : RefSide) (r : Swept) (m : SideMatch) : Prop where
  qty : r.qty = m.qty.toNat
  stopped : r.stopped = m.stop
  events : m.events.map eventOf = r.events.map some
  side : SameSide (bookOf r.t (opposite S)) m.levels
  other : bookOf r.t S = bookOf t S
  index : SameIndex r.t.index m.index
  config : r.t.config = t.config
  count : r.t.count = (n - (places l).length + (places m.levels).length : Nat)

private theorem SameSide.walked {Q : Nat} {b : Levels} {px : Price} {q r : RefQueue}
    {rest : RefSide} (h : SameSide b ((px, q) :: rest))
    (sound : SideSound Q (opposite S) ((px, q) :: rest)) :
    SameSide (putLevel b px.toInt (r.map orderOf)) (if r = [] then rest else (px, r) :: rest) := by
  refine h.put px r (mem_putLevel b px.toInt r) fun p q' => ?_
  have later : (p, q') ∈ rest → p ≠ px := by
    rintro hm rfl
    exact Book.ReferenceBook.before_irrefl _ p ((List.pairwise_cons.mp sound.sorted).1 (p, q') hm)
  by_cases hr : r = []
  · rw [if_pos hr, List.mem_cons, Prod.mk.injEq]
    constructor
    · exact fun hm => .inr ⟨later hm, .inr hm⟩
    · rintro (⟨_, _, hne⟩ | ⟨hne, he | hm⟩)
      · exact absurd hr hne
      · exact absurd he.1 hne
      · exact hm
  · rw [if_neg hr, List.mem_cons, List.mem_cons, Prod.mk.injEq, Prod.mk.injEq]
    constructor
    · rintro (he | hm)
      · exact .inl ⟨he.1, he.2, hr⟩
      · exact .inr ⟨later hm, .inr hm⟩
    · rintro (⟨he, hq, _⟩ | ⟨hne, he | hm⟩)
      · exact .inl ⟨he, hq⟩
      · exact absurd he.1 hne
      · exact .inr hm

theorem levels_eq (l : RefSide) (sound : SideSound maxInt (opposite S) l) {t : T} {qty : Qty}
    (hqty : qty ≠ 0) (hmax : qty.toNat ≤ maxInt) {index : Index}
    (hside : SameSide (bookOf t (opposite S)) l) (hindex : SameIndex t.index index) {n : Nat}
    (hcount : t.count = n) (hn : (places l).length ≤ n) (hsmall : n < 2 ^ 62) :
    Sweeps S t n l
      (levels taker.toNat owner.toNat S limit.toInt stp t qty.toNat
        ((l.map levelOf).takeWhile fun e => meets S limit.toInt e.1))
      (matchSide symbol taker owner S limit stp l qty index) := by
  induction l generalizing t qty index n with
  | nil => exact ⟨rfl, rfl, rfl, hside, rfl, hindex, rfl, by simpa [levels, matchSide] using hcount⟩
  | cons x rest ih =>
      obtain ⟨px, q⟩ := x
      rw [List.map_cons, List.takeWhile_cons, matchSide]
      simp only [levelOf, meets_eq]
      by_cases hin : inRange S limit px = true
      case neg =>
        rw [if_neg hin, if_pos (Or.inr hin)]
        refine ⟨rfl, rfl, rfl, hside, rfl, hindex, rfl, ?_⟩
        rw [Nat.sub_add_cancel hn]
        exact hcount
      rw [places_cons, List.length_append, List.length_map] at hn
      rw [if_pos hin, if_neg (show ¬ (qty = 0 ∨ ¬ inRange S limit px = true) by simp [hqty, hin]),
        levels]
      have hw := walk_eq symbol taker owner S limit stp px q
        (sound.each _ List.mem_cons_self) hqty hmax hindex hcount
        (by omega) hsmall
      have hm := Book.ReferenceBook.matchQueue_left symbol taker owner S limit stp px q
        (sound.each _ List.mem_cons_self) qty index
      generalize matchQueue symbol taker owner S limit px stp q qty index = m at hw hm
      generalize walk taker.toNat owner.toNat S limit.toInt stp px.toInt t qty.toNat
        (q.map orderOf) = w at hw
      have hput : SameSide (bookOf (withBook w.t (opposite S)
          (putLevel (bookOf w.t (opposite S)) px.toInt w.remaining)) (opposite S))
          (if m.queue = [] then rest else (px, m.queue) :: rest) := by
        rw [bookOf_withBook, if_pos rfl, hw.books, hw.remaining]
        exact hside.walked S sound
      have hother : bookOf (withBook w.t (opposite S)
          (putLevel (bookOf w.t (opposite S)) px.toInt w.remaining)) S = bookOf t S := by
        rw [bookOf_withBook, if_neg (ne_opposite S), hw.books]
      have hzero : w.qty = 0 ↔ m.qty = 0 := by
        rw [hw.qty]
        constructor
        · exact fun hc => UInt64.toNat_inj.mp (by simpa using hc)
        · rintro hc
          rw [hc]
          rfl
      -- The levels that stay after the last one visited.
      have stays (hlevels : (places (if m.queue = [] then rest else (px, m.queue) :: rest)).length =
          m.queue.length + (places rest).length) :
          w.t.count = (n - (places ((px, q) :: rest)).length +
            (places (if m.queue = [] then rest else (px, m.queue) :: rest)).length : Nat) := by
        rw [hw.count, hlevels, places_cons, List.length_append, List.length_map]
        congr 1
        omega
      have hlevels : (places (if m.queue = [] then rest else (px, m.queue) :: rest)).length =
          m.queue.length + (places rest).length := by
        split
        · rename_i he
          rw [he]
          simp
        · simp
      by_cases hstop : m.stop = true
      · simp only [hw.stopped, hstop, true_or, if_true]
        exact ⟨hw.qty, rfl, hw.events, hput,
          hother, by simpa using hw.index, by simpa using hw.config,
          by simpa using stays hlevels⟩
      · have hpass := hm.passed (by simpa using hstop)
        have hfalse : w.stopped = false := by
          rw [hw.stopped]
          simpa using hstop
        simp only [hfalse, hstop, Bool.false_eq_true, false_or, if_false, hzero]
        by_cases hempty : m.queue = []
        · rw [if_pos hempty] at hput hlevels
          simp only [if_pos hempty]
          by_cases hz : m.qty = 0
          · simp only [if_pos hz]
            have hend : matchSide symbol taker owner S limit stp rest m.qty m.index =
                ⟨rest, m.qty, false, m.index, []⟩ := by
              cases rest with
              | nil => rfl
              | cons y ys => rw [matchSide, if_pos (.inl hz)]
            rw [hend]
            refine ⟨hw.qty, rfl, ?_, hput,
              hother, by simpa using hw.index, by simpa using hw.config, ?_⟩
            · simpa using hw.events
            · have := stays (by rw [if_pos hempty]; exact hlevels)
              rw [if_pos hempty] at this
              simpa using this
          · simp only [if_neg hz]
            have hless : m.qty.toNat ≤ maxInt :=
              Nat.le_trans (UInt64.le_iff_toNat_le.mp hm.qty_le) hmax
            have hnext : (withBook w.t (opposite S)
                (putLevel (bookOf w.t (opposite S)) px.toInt w.remaining)).count =
                    (n - q.length : Nat) := by
              rw [withBook_count, hw.count, hempty]
              rfl
            have hr := ih sound.tail hz hless hput (by simpa using hw.index) hnext
              (by omega) (by omega)
            rw [← hw.qty] at hr
            refine ⟨hr.qty, hr.stopped, ?_, hr.side, hr.other.trans hother, hr.index, ?_, ?_⟩
            · rw [List.map_append, List.map_append, hw.events, hr.events]
            · rw [hr.config]
              simpa using hw.config
            · rw [hr.count, places_cons, List.length_append, List.length_map]
              congr 2
              omega
        · have hz : m.qty = 0 := hpass.resolve_left hempty
          simp only [if_pos hz, if_neg hempty] at hput ⊢
          refine ⟨hw.qty, rfl, hw.events, hput,
            hother, by simpa using hw.index, by simpa using hw.config, ?_⟩
          have := stays hlevels
          rw [if_neg hempty] at this
          simpa using this

end Sweep

structure Same (t : T) (b : ReferenceBook) : Prop where
  sound : Sound maxInt b
  minPrice : t.config.minPrice = b.minPrice.toInt
  maxPrice : maxPrice t.config = b.maxPrice.toInt
  maxOrders : t.config.maxOrders = b.capacity
  small : b.capacity < 2 ^ 62
  stp : t.config.defaultStp = b.stp
  side : ∀ S, SameSide (bookOf t S) (b.sideOf S)
  index : SameIndex t.index b.index
  count : t.count = ((places b.bids).length + (places b.asks).length : Nat)

section Same

variable {t : T} {b : ReferenceBook}

theorem Same.listing (h : Same t b) (S : Side) : listing t S = (b.sideOf S).map levelOf := by
  have hsorted := (h.sound.side S).sorted
  have hmem : ∀ e, e ∈ ExsimRef.listing t S ↔ e ∈ (b.sideOf S).map levelOf := by
    intro e
    rw [List.mem_map, ← h.side S e]
    cases S
    · exact List.mem_reverse
    · exact Iff.rfl
  cases S with
  | buy =>
      refine Lib.eq_of_sorted_of_mem (r := fun a b : Int × List Order => b.1 < a.1)
        (fun a => Int.lt_irrefl _)
        (fun h1 h2 => Int.lt_trans h2 h1) (List.pairwise_reverse.mpr t.bids.sorted)
          (List.pairwise_map.mpr ?_) hmem
      refine hsorted.imp fun {x y} hxy => ?_
      simpa only [before, levelOf, decide_eq_true_eq, Int64.lt_iff_toInt_lt] using hxy
  | sell =>
      refine Lib.eq_of_sorted_of_mem (r := fun a b : Int × List Order => a.1 < b.1)
        (fun a => Int.lt_irrefl _)
        (fun h1 h2 => Int.lt_trans h1 h2) t.asks.sorted (List.pairwise_map.mpr ?_) hmem
      refine hsorted.imp fun {x y} hxy => ?_
      simpa only [before, levelOf, decide_eq_true_eq, Int64.lt_iff_toInt_lt] using hxy

theorem best_eq (t : T) (S : Side) : best t S = (listing t S).head?.map Prod.fst := by
  cases S
  · rw [best, ExsimRef.listing, List.head?_reverse]
  · rfl

theorem Same.best (h : Same t b) (S : Side) :
    best t S = (b.sideOf S).head?.map fun x => x.1.toInt := by
  rw [best_eq, h.listing, List.head?_map, Option.map_map]
  rfl

theorem Same.crosses (h : Same t b) (S : Side) (limit : Price) :
    crosses t S limit.toInt = b.crosses S limit := by
  rw [ExsimRef.crosses, ReferenceBook.crosses, h.best]
  cases b.sideOf (opposite S) with
  | nil => rfl
  | cons x l => exact meets_eq S limit x.1

theorem fillableLevel_eq (owner : OwnerId) (stp : Stp) {q : RefQueue}
    (hq : ∀ o ∈ q, o.qty.toNat ≤ maxInt) {need : Qty} (hneed : need.toNat ≤ maxInt) :
    fillableLevel owner.toNat stp need.toNat (q.map orderOf) =
        (ReferenceBook.fillableQueue owner stp q need).map id (fun n => (n.toNat : Int)) ∧
      ∀ n, ReferenceBook.fillableQueue owner stp q need = .inr n → n.toNat ≤ maxInt := by
  induction q generalizing need with
  | nil =>
      refine ⟨rfl, fun n hn => ?_⟩
      cases hn
      exact hneed
  | cons o q ih =>
      have hrest := fun x hx => hq x (List.mem_cons_of_mem o hx)
      have hge : (o.qty.toNat : Int) ≥ need.toNat ↔ need ≤ o.qty := by
        rw [UInt64.le_iff_toNat_le]
        omega
      have smaller (hle : ¬ need ≤ o.qty) : sub need.toNat o.qty.toNat = (need - o.qty).toNat ∧
          (need - o.qty).toNat ≤ maxInt := by
        have hlt := Std.le_of_lt (Std.not_le.mp hle)
        refine ⟨sub_of_le hlt hneed, ?_⟩
        rw [UInt64.toNat_sub_of_le _ _ hlt]
        omega
      rw [List.map_cons, fillableLevel, ReferenceBook.fillableQueue]
      simp only [orderOf, owner_eq_iff, hge]
      by_cases hown : stp ≠ .none ∧ o.owner = owner
      · rw [if_pos hown, if_pos hown]
        by_cases hinc : stp = .cancelIncoming
        · simp [hinc]
        rw [if_neg hinc, if_neg hinc]
        by_cases hdec : stp = .decrementCancel
        · rw [if_pos hdec, if_pos hdec]
          by_cases hle : need ≤ o.qty
          · simp [hle]
          · obtain ⟨hsub, hmax⟩ := smaller hle
            simp only [if_neg hle, hsub]
            exact ih hrest hmax
        · rw [if_neg hdec, if_neg hdec]
          exact ih hrest hneed
      · rw [if_neg hown, if_neg hown]
        by_cases hle : need ≤ o.qty
        · simp [hle]
        · obtain ⟨hsub, hmax⟩ := smaller hle
          simp only [if_neg hle, hsub]
          exact ih hrest hmax

theorem fillableGo_eq (S : Side) (limit : Price) (owner : OwnerId) (stp : Stp) {l : RefSide}
    (hl : ∀ x ∈ l, ∀ o ∈ x.2, o.qty.toNat ≤ maxInt) {need : Qty} (hneed : need.toNat ≤ maxInt) :
    fillableGo owner.toNat stp need.toNat
      ((l.map levelOf).takeWhile fun e => meets S limit.toInt e.1) =
      ReferenceBook.fillable S limit owner stp l need := by
  induction l generalizing need with
  | nil => rfl
  | cons x l ih =>
      obtain ⟨px, q⟩ := x
      have hrest := fun x hx => hl x (List.mem_cons_of_mem (px, q) hx)
      rw [List.map_cons, List.takeWhile_cons, ReferenceBook.fillable]
      simp only [levelOf, meets_eq]
      by_cases hin : inRange S limit px = true
      · obtain ⟨heq, hless⟩ := fillableLevel_eq owner stp (hl _ List.mem_cons_self) hneed
        simp only [hin, if_true, not_true_eq_false, if_false, fillableGo, heq]
        cases hlevel : ReferenceBook.fillableQueue owner stp q need with
        | inl v => rfl
        | inr n => exact ih hrest (hless n hlevel)
      · rw [if_neg hin, if_pos hin]
        rfl

theorem Same.fillable (h : Same t b) (S : Side) (limit : Price) {qty : Qty}
    (hqty : qty.toNat ≤ maxInt) (owner : OwnerId) (stp : Stp) :
    fillable t S limit.toInt qty.toNat owner.toNat stp =
      ReferenceBook.fillable S limit owner stp (b.sideOf (opposite S)) qty := by
  rw [ExsimRef.fillable, crossingLevels, h.listing]
  exact fillableGo_eq S limit owner stp (fun x hx o ho => ((h.sound.side _).each x hx o ho).2) hqty

theorem Same.matched (h : Same t b) (taker : OrderId) (owner : OwnerId) (S : Side)
    (limit : Price) {qty : Qty} (hqty : qty ≠ 0) (hmax : qty.toNat ≤ maxInt) (stp : Stp) :
    let r := sweep taker.toNat owner.toNat S limit.toInt stp t limit.toInt qty.toNat
    let m := b.matchOrder taker owner S limit qty stp
    r.qty = m.qty.toNat ∧ r.stopped = m.stop ∧ m.events.map eventOf = r.events.map some ∧
      Same r.t (b.afterMatch S m) := by
  have hheld := h.sound.held
  have hsmall := h.small
  have hsum := Book.ReferenceBook.places_length b (opposite S)
  have hs := levels_eq b.symbol taker owner S limit stp _ (h.sound.side (opposite S)) hqty hmax
    (h.side (opposite S))
    h.index h.count (by omega) (by omega)
  have hsound := h.sound.matched taker owner S limit qty stp
  rw [← h.listing] at hs
  change Sweeps S t _ _ (sweep taker.toNat owner.toNat S limit.toInt stp t limit.toInt qty.toNat)
    (b.matchOrder taker owner S limit qty stp) at hs
  intro r m
  refine ⟨hs.qty, hs.stopped, hs.events, hsound, ?_, ?_, ?_, ?_, ?_, ?_, hs.index, ?_⟩
  · rw [hs.config, h.minPrice]
    cases S <;> rfl
  · rw [hs.config, h.maxPrice]
    cases S <;> rfl
  · rw [hs.config, h.maxOrders]
    cases S <;> rfl
  · have : (b.afterMatch S m).capacity = b.capacity := by cases S <;> rfl
    rw [this]
    exact hsmall
  · rw [hs.config, h.stp]
    cases S <;> rfl
  · intro T
    have hT : (b.afterMatch S m).sideOf T = if T = opposite S then m.levels else b.sideOf T :=
      Book.ReferenceBook.sideOf_setSide ..
    rw [hT]
    by_cases hc : T = opposite S
    · subst hc
      rw [if_pos rfl]
      exact hs.side
    · rw [if_neg hc]
      have hTS : T = S := by
        have := eq_opposite_of_ne hc
        rwa [opposite_opposite] at this
      subst hTS
      rw [hs.other]
      exact h.side T
  · have hafter :
      (places (b.afterMatch S m).bids).length + (places (b.afterMatch S m).asks).length =
        (places m.levels).length + (places (b.sideOf S)).length := by
      rw [Book.ReferenceBook.places_length _ (opposite S), opposite_opposite]
      have h1 : (b.afterMatch S m).sideOf (opposite S) = m.levels := by cases S <;> rfl
      have h2 : (b.afterMatch S m).sideOf S = b.sideOf S := by cases S <;> rfl
      rw [h1, h2]
    rw [hs.count, hafter, hsum, opposite_opposite, Nat.add_sub_cancel_left]
    exact congrArg Nat.cast (Nat.add_comm _ _)

private theorem Same.edit (h : Same t b) {S : Side} {m : Levels} {l : RefSide}
    {ix : SortedMap Int (Side × Int)} {index : Index} {count : Int}
    (sound : Sound maxInt { b.setSide S l with index := index }) (side : SameSide m l)
    (hindex : SameIndex ix index)
    (hcount : count = ((places l).length + (places (b.sideOf (opposite S))).length : Nat)) :
    Same { withBook t S m with index := ix, count := count }
      { b.setSide S l with index := index } := by
  refine ⟨sound, ?_, ?_, ?_, ?_, ?_, ?_, hindex, ?_⟩
  · cases S <;> exact h.minPrice
  · cases S <;> exact h.maxPrice
  · cases S <;> exact h.maxOrders
  · cases S <;> exact h.small
  · cases S <;> exact h.stp
  · intro T
    have hl : ReferenceBook.sideOf { b.setSide S l with index := index } T = if T = S then
      l else b.sideOf T :=
      Book.ReferenceBook.sideOf_setSide ..
    have hm : bookOf { withBook t S m with index := ix, count := count } T = if T = S then
      m else bookOf t T :=
      bookOf_withBook ..
    rw [hl, hm]
    split
    · exact side
    · exact h.side T
  · have hopp : ¬ opposite S = S := fun hc => ne_opposite S hc.symm
    rw [Book.ReferenceBook.places_length _ S]
    have h1 : ReferenceBook.sideOf { b.setSide S l with index := index } S = l := by cases S <;> rfl
    have h2 : ReferenceBook.sideOf { b.setSide S l with index := index }
        (opposite S) = b.sideOf (opposite S) := by
      cases S <;> rfl
    rw [h1, h2]
    exact hcount

theorem Same.rest (h : Same t b) {id : OrderId} (owner : OwnerId) {S : Side}
    {px : Price} {qty : Qty} (hid : b.index.lookup id = none) (hqty : qty ≠ 0)
    (hmax : qty.toNat ≤ maxInt) (clear : ∀ y ∈ b.sideOf (opposite S), ¬ inRange S px y.1 = true) :
    let r := rest t id.toNat owner.toNat S px.toInt qty.toNat
    let r' := b.rest id owner S px qty
    r'.2.map eventOf = r.2.map some ∧ Same r.1 r'.1 := by
  have hsize := h.sound.size_eq
  have hsmall := h.small
  have hsum := Book.ReferenceBook.places_length b S
  have hfull : t.count ≥ t.config.maxOrders ↔ b.capacity ≤ b.size := by
    rw [h.count, h.maxOrders, hsize]
    omega
  rw [ExsimRef.rest, ReferenceBook.rest]
  simp only [hfull]
  by_cases hcap : b.capacity ≤ b.size
  · rw [if_pos hcap, if_pos hcap]
    exact ⟨rfl, h⟩
  rw [if_neg hcap, if_neg hcap]
  rw [hsize] at hcap
  refine ⟨rfl, ?_⟩
  have hsound := h.sound.queued (S := S) (o := ⟨id, qty, owner⟩) hid ⟨hqty, hmax⟩ clear (by omega)
  have hindex :
      (b.setSide S (Book.ReferenceBook.pushBack S px ⟨id, qty, owner⟩ (b.sideOf S))).index =
      b.index := by
    cases S <;> rfl
  simp only [hindex, withBook_index, withBook_count]
  refine h.edit hsound ?_ (h.index.insert id ⟨S, px, id⟩) ?_
  · rw [(h.side S).find?_getD (h.sound.side S)]
    refine
      (h.side S).put px (Book.ReferenceBook.queueAt px (b.sideOf S) ++ [⟨id, qty, owner⟩]) ?_ ?_
    · intro p q
      rw [SortedMap.mem_insert]
      simp [orderOf]
    · intro p q
      rw [Book.ReferenceBook.mem_pushBack (h.sound.side S)]
      simp
  · have hlen := (Book.ReferenceBook.places_pushBack S px ⟨id, qty, owner⟩ (b.sideOf S)).length_eq
    rw [hlen, List.length_cons, h.count, add, wrap_of_fits]
    · omega
    · constructor <;> omega

theorem Same.found (h : Same t b) {id : OrderId} {loc : Loc} (hloc : b.index.lookup id = some loc) :
    ∃ q o, (loc.price, q) ∈ b.sideOf loc.side ∧ o ∈ q ∧ o.id = id ∧ loc.it = id ∧
    b.deref loc = some o ∧
      t.index.find? id.toNat = some (loc.side, loc.price.toInt) ∧
      (bookOf t loc.side).find? loc.price.toInt = some (q.map orderOf) ∧
      find t id.toNat = some (some (loc.side, loc.price.toInt, orderOf o)) := by
  obtain ⟨q, o, hq, ho, hid, hit, hfind, hderef⟩ := h.sound.deref hloc
  have hix : t.index.find? id.toNat = some (loc.side, loc.price.toInt) := by
    rw [h.index.find?, hloc]
    rfl
  have hlevel := (h.side loc.side).find? hq
  refine ⟨q, o, hq, ho, hid, hit, hderef, hix, hlevel, ?_⟩
  have hmapped : (q.map orderOf).find? (·.id = (id.toNat : Int)) = some (orderOf o) := by
    rw [List.find?_map]
    have hsame : ((fun x : Order => decide (x.id = id.toNat)) ∘ orderOf) = fun x :
        RefOrder => decide (x.id = id) := by
      funext x
      simp only [Function.comp_apply, orderOf, ofNat_eq_iff]
    rw [hsame, hfind]
    rfl
  rw [ExsimRef.find, hix]
  simp only [hlevel, hmapped, Option.bind_eq_bind, Option.bind_some, Option.map_some,
    Option.pure_def]

theorem Same.missing (h : Same t b) {id : OrderId} (hloc : b.index.lookup id = none) :
    find t id.toNat = some none := by
  rw [ExsimRef.find, h.index.find?, hloc]
  rfl

theorem Same.removed (h : Same t b) {id : OrderId} {loc : Loc}
    (hloc : b.index.lookup id = some loc) :
    ∃ t', remove t id.toNat = some t' ∧ Same t' (b.remove id loc) := by
  obtain ⟨q, o, hq, ho, hid, hit, _, hix, hlevel, _⟩ := h.found hloc
  have hside := h.sound.side loc.side
  have hsum := Book.ReferenceBook.places_length b loc.side
  have hheld := h.sound.held
  have hsmall := h.small
  refine ⟨_, by rw [ExsimRef.remove, hix]; simp only [hlevel]; rfl, ?_⟩
  have hfilter :
      (q.map orderOf).filter (·.id ≠ (id.toNat : Int)) = (q.filter (·.id ≠ id)).map orderOf := by
    rw [List.filter_map]
    congr 1
    refine List.filter_congr fun x _ => ?_
    simp only [Function.comp_apply, orderOf, ne_eq, ofNat_eq_iff]
  have hremove : b.remove id loc =
      { b.setSide loc.side (Book.ReferenceBook.setQueue loc.price
          (fun q => q.filter (·.id ≠ id)) (b.sideOf loc.side)) with
        index := b.index.erase id } := by
    rw [ReferenceBook.remove, hit]
    cases loc.side <;> rfl
  have hsound := h.sound.removed hloc
  rw [hremove] at hsound ⊢
  rw [hfilter, withBook_index, withBook_count]
  refine h.edit hsound ?_ (h.index.erase id) ?_
  · refine (h.side loc.side).put loc.price (q.filter (·.id ≠ id)) (mem_putLevel _ _ _) ?_
    exact Book.ReferenceBook.mem_setQueue hside hq _
  · have hplaces := Book.ReferenceBook.places_setQueue_filter hside loc.price id
    have hat : (loc.price, id) ∈ places (b.sideOf loc.side) := ((h.sound.located id loc).mp hloc).2
    have hone : (places (b.sideOf loc.side)).length =
        ((places (b.sideOf loc.side)).filter (· ≠ (loc.price, id))).length + 1 := by
      have hnodup : (places (b.sideOf loc.side)).Nodup := (h.sound.distinct loc.side).of_map
      have hpos := List.length_pos_of_mem hat
      have herase := List.length_erase_of_mem hat
      rw [hnodup.erase_eq_filter] at herase
      have hsame : (places (b.sideOf loc.side)).filter (· != (loc.price, id)) =
          (places (b.sideOf loc.side)).filter (· ≠ (loc.price, id)) := by
        refine List.filter_congr fun k _ => ?_
        rw [Bool.eq_iff_iff]
        simp
      rw [hsame] at herase
      omega
    rw [hplaces, h.count, count_pred (by omega) (by omega)]
    congr 1
    omega

theorem Same.amended (h : Same t b) {id : OrderId} {loc : Loc}
    (hloc : b.index.lookup id = some loc) {qty : Qty} (hqty : qty ≠ 0) (hmax : qty.toNat ≤ maxInt) :
    ∃ t', setQty t id.toNat qty.toNat = some t' ∧
      Same t' (b.setSide loc.side (Book.ReferenceBook.setQueue loc.price
        (fun q => q.map fun x => if x.id = id then { x with qty := qty } else x)
          (b.sideOf loc.side))) := by
  obtain ⟨q, o, hq, ho, _, hit, _, hix, hlevel, _⟩ := h.found hloc
  have hside := h.sound.side loc.side
  refine ⟨_, by rw [setQty, hix]; simp only [hlevel]; rfl, ?_⟩
  have hmap : (q.map orderOf).map
    (fun o => if o.id = (id.toNat : Int) then { o with qty := (qty.toNat : Int) } else o) =
      (q.map fun x => if x.id = id then { x with qty := qty } else x).map orderOf := by
    rw [List.map_map, List.map_map]
    refine List.map_congr_left fun x _ => ?_
    simp only [Function.comp_apply, orderOf, ofNat_eq_iff]
    split <;> rfl
  have hne : (q.map fun x => if x.id = id then { x with qty := qty } else x) ≠ [] := by
    rw [ne_eq, List.map_eq_nil_iff]
    exact List.ne_nil_of_mem ho
  have hsound := h.sound.amended hloc ⟨hqty, hmax⟩
  have heta : ∀ l, b.setSide loc.side l = { b.setSide loc.side l with index := b.index } := by
    intro l
    cases loc.side <;> rfl
  have heta' :
      ∀ m, withBook t loc.side m =
      { withBook t loc.side m with index := t.index, count := t.count } := by
    intro m
    cases loc.side <;> rfl
  rw [heta] at hsound ⊢
  rw [hmap, heta']
  refine h.edit hsound ?_ h.index ?_
  · refine (h.side loc.side).put loc.price _ ?_ (Book.ReferenceBook.mem_setQueue hside hq _)
    intro p r
    rw [SortedMap.mem_insert]
    simp only [hne, ne_eq, not_false_eq_true, and_true]
  · have hids : ∀ q : RefQueue,
        (q.map fun x => if x.id = id then { x with qty := qty } else x).map
          (·.id) = q.map (·.id) := by
      intro q
      rw [List.map_map]
      refine List.map_congr_left fun x _ => ?_
      simp only [Function.comp_apply]
      split <;> rfl
    rw [Book.ReferenceBook.places_setQueue_map loc.price hids hside.full, h.count,
      Book.ReferenceBook.places_length b loc.side]

private theorem Same.entered (h : Same t b) {id : OrderId} (hid : b.index.lookup id = none)
    (owner : OwnerId) (S : Side) (limit : Price) {qty : Qty} (hqty : qty ≠ 0)
    (hmax : qty.toNat ≤ maxInt) (stp : Stp) :
    let r := sweep id.toNat owner.toNat S limit.toInt stp t limit.toInt qty.toNat
    let m := b.matchOrder id owner S limit qty stp
    r.qty = m.qty.toNat ∧ (r.qty = 0 ↔ m.qty = 0) ∧ r.stopped = m.stop ∧
      m.events.map eventOf = r.events.map some ∧
      Same r.t (b.afterMatch S m) ∧ (m.qty ≠ 0 → m.stop = false →
        let e := ExsimRef.rest r.t id.toNat owner.toNat S limit.toInt m.qty.toNat
        let e' := (b.afterMatch S m).rest id owner S limit m.qty
        e'.2.map eventOf = e.2.map some ∧ Same e.1 e'.1) := by
  obtain ⟨hrq, hstop, hevents, hsame⟩ := h.matched id owner S limit hqty hmax stp
  have hm := Book.ReferenceBook.matchSide_left b.symbol id owner S limit stp _
    (h.sound.side (opposite S)) qty b.index
  change Book.ReferenceBook.SideLeft S limit maxInt (opposite S) _ qty b.index
    (b.matchOrder id owner S limit qty stp) at hm
  intro r m
  refine ⟨hrq, ?_, hstop, hevents, hsame, fun hz hs => ?_⟩
  · rw [show r.qty = m.qty.toNat from hrq, ← UInt64.toNat_inj]
    exact Int.natCast_eq_zero
  · refine hsame.rest owner ?_ hz ?_ ?_
    · obtain ⟨gone, _, hindex⟩ := hm.left
      change m.index.lookup id = none
      rw [hindex, hid]
      exact ite_self none
    · exact Nat.le_trans (UInt64.le_iff_toNat_le.mp hm.qty_le) hmax
    · have hopp : (b.afterMatch S m).sideOf (opposite S) = m.levels := by cases S <;> rfl
      rw [hopp]
      exact hm.cleared hs hz

theorem postOnly_iff (flags : UInt8) : flags &&& 1 = 1 ↔ flags &&& kFlagPostOnly ≠ 0 := by
  have hbits : ∀ v : BitVec 8, v &&& 1 = 1 ↔ v &&& 1 ≠ 0 := by decide
  have := hbits flags.toBitVec
  rw [kFlagPostOnly, ne_eq, ← UInt8.toBitVec_inj, ← UInt8.toBitVec_inj]
  exact this

theorem stpOverride_eq (flags : UInt8) (default : Stp) :
    (stpOverride flags).getD default = effectiveStp flags default := by
  have hbits : ∀ v : BitVec 8, (v >>> 1) &&& 3 = (v &&& 6) >>> 1 := by decide
  have hcode : (flags >>> 1) &&& 3 = (flags &&& kStpMask) >>> kStpShift := by
    rw [← UInt8.toBitVec_inj]
    exact hbits flags.toBitVec
  rw [stpOverride, effectiveStp, hcode]
  generalize (flags &&& kStpMask) >>> kStpShift = v
  by_cases h0 : v = 0
  · simp [h0]
  by_cases h1 : v = 1
  · simp [h1]
  by_cases h2 : v = 2
  · simp [h2]
  · simp [h0, h1, h2]

theorem Same.inBand (h : Same t b) (px : Price) :
    inBand t.config px.toInt = true ↔ ¬ (px < b.minPrice ∨ b.maxPrice < px) := by
  rw [ExsimRef.inBand, h.maxPrice, h.minPrice, not_or, Int64.not_lt, Int64.not_lt, Bool.and_eq_true]
  simp only [decide_eq_true_eq, Int64.le_iff_toInt_le]

private theorem eventOf_command {e : ExchangeSim.Event} {e' : Event}
    {evs more : List ExchangeSim.Event} {evs' more' : List Event} (he : eventOf e = some e')
    (hevs : evs.map eventOf = evs'.map some) (hmore : more.map eventOf = more'.map some) :
    (e :: evs ++ more).map eventOf = (e' :: evs' ++ more').map some := by
  simp only [List.cons_append, List.map_cons, List.map_append, he, hevs, hmore]

theorem Same.add (h : Same t b) {c : ExchangeSim.Command} (hqty : c.qty.toNat ≤ maxInt)
    (hnew : c.type = .newOrder) :
    ∃ t' evs, apply t (commandOf c) = some (t', evs) ∧ (b.add c).2.map eventOf = evs.map some ∧
      Same t' (b.add c).1 := by
  have hzero : ((c.orderId.toNat : Int) = 0) ↔ c.orderId = 0 := by
    rw [← UInt64.toNat_inj]
    exact Int.natCast_eq_zero
  have hqzero : ((c.qty.toNat : Int) = 0) ↔ c.qty = 0 := by
    rw [← UInt64.toNat_inj]
    exact Int.natCast_eq_zero
  have hlimit : limitOf t.config c.side c.price.toInt c.ordType = (b.limitPrice c).toInt := by
    rw [ReferenceBook.limitPrice]
    cases c.ordType
    · rfl
    · cases c.side
      · exact h.maxPrice
      · exact h.minPrice
  have hprice :
      (if c.ordType = .market then (0 : Int) else c.price.toInt) = c.eventPrice.toInt := by
    rw [Command.eventPrice]
    cases c.ordType <;> rfl
  have hrej : ∀ r, [rejectedEvent c r].map eventOf =
      (reject c.orderId.toNat c.side .newOrder r).map some := by
    intro r
    simp [rejectedEvent, eventOf, reject, hnew]
  have hband : (¬ c.ordType = .market ∧ ¬ ExsimRef.inBand t.config c.price.toInt = true) ↔
      (c.ordType = .limit ∧ (c.price < b.minPrice ∨ b.maxPrice < c.price)) := by
    rw [h.inBand, not_not]
    cases c.ordType <;> simp
  have hdup : (t.index.find? c.orderId.toNat).isSome = (b.index.lookup c.orderId).isSome := by
    rw [h.index.find?, Option.isSome_map]
  have hpost :
    (decide (c.flags &&& 1 = 1) = true ∧ ExsimRef.crosses t c.side (b.limitPrice c).toInt = true) ↔
      (c.flags &&& kFlagPostOnly ≠ 0 ∧ b.crosses c.side (b.limitPrice c) = true) := by
    rw [h.crosses, decide_eq_true_eq, postOnly_iff]
  rw [commandOf, hnew]
  simp only [apply, ReferenceBook.add, hzero, hqzero, hband, hdup, hlimit, hpost, hprice,
    h.stp, stpOverride_eq]
  by_cases h0 : c.orderId = 0
  · simp only [if_pos h0]
    exact ⟨t, _, rfl, hrej _, h⟩
  simp only [if_neg h0]
  by_cases h1 : c.qty = 0
  · simp only [if_pos h1]
    exact ⟨t, _, rfl, hrej _, h⟩
  simp only [if_neg h1]
  by_cases h2 : c.ordType = .limit ∧ (c.price < b.minPrice ∨ b.maxPrice < c.price)
  · simp only [if_pos h2]
    exact ⟨t, _, rfl, hrej _, h⟩
  simp only [if_neg h2]
  by_cases h3 : (b.index.lookup c.orderId).isSome = true
  · simp only [if_pos h3]
    exact ⟨t, _, rfl, hrej _, h⟩
  simp only [if_neg h3]
  by_cases h4 : c.flags &&& kFlagPostOnly ≠ 0 ∧ b.crosses c.side (b.limitPrice c) = true
  · simp only [if_pos h4]
    exact ⟨t, _, rfl, hrej _, h⟩
  simp only [if_neg h4, h.fillable c.side (b.limitPrice c) hqty]
  generalize effectiveStp c.flags b.stp = stp
  by_cases h5 : c.tif = .fok ∧
      ¬ ReferenceBook.fillable c.side (b.limitPrice c) c.owner stp
        (b.sideOf (opposite c.side)) c.qty = true
  · simp only [if_pos h5]
    exact ⟨t, _, rfl, rfl, h⟩
  simp only [if_neg h5]
  have hid : b.index.lookup c.orderId = none := by simpa using h3
  obtain ⟨hrq, hrz, hstop, hevents, hsame, hrest⟩ :=
    h.entered hid c.owner c.side (b.limitPrice c) h1 hqty stp
  generalize sweep c.orderId.toNat c.owner.toNat c.side (b.limitPrice c).toInt stp t
    (b.limitPrice c).toInt c.qty.toNat =
    r at *
  generalize b.matchOrder c.orderId c.owner c.side (b.limitPrice c) c.qty stp = m at *
  by_cases hz : m.qty = 0
  · simp only [if_pos hz, if_pos (hrz.mpr hz)]
    refine ⟨_, _, rfl, ?_, hsame⟩
    rw [List.map_cons, List.map_cons, hevents]
    rfl
  have hrz' : ¬ r.qty = 0 := fun hc => hz (hrz.mp hc)
  simp only [if_neg hz, if_neg hrz', hstop]
  by_cases hs : m.stop = true
  · simp only [if_pos hs]
    refine ⟨_, _, rfl, eventOf_command rfl hevents ?_, hsame⟩
    rw [hrq]
    rfl
  simp only [if_neg hs]
  by_cases hioc : c.ordType = .market ∨ c.tif ≠ .day
  · simp only [if_pos hioc]
    refine ⟨_, _, rfl, eventOf_command rfl hevents ?_, hsame⟩
    rw [hrq]
    rfl
  simp only [if_neg hioc]
  have hpx : c.price = b.limitPrice c := by
    rw [not_or] at hioc
    rw [ReferenceBook.limitPrice]
    cases hot : c.ordType
    · rfl
    · exact absurd hot hioc.1
  obtain ⟨hmore, hlast⟩ := hrest hz (by simpa using hs)
  rw [← hpx] at hmore hlast ⊢
  rw [hrq]
  exact ⟨_, _, rfl, eventOf_command rfl hevents hmore, hlast⟩

theorem Same.cancel (h : Same t b) {c : ExchangeSim.Command} (hcancel : c.type = .cancel)
    (hside : c.side = .buy) :
    ∃ t' evs b' evs', apply t (commandOf c) = some (t', evs) ∧ b.cancel c = some (b', evs') ∧
      evs'.map eventOf = evs.map some ∧ Same t' b' := by
  rw [commandOf, hcancel]
  simp only [apply, ReferenceBook.cancel]
  cases hloc : b.index.lookup c.orderId with
  | none =>
      simp only [h.missing hloc]
      refine ⟨t, _, b, _, rfl, rfl, ?_, h⟩
      simp [rejectedEvent, eventOf, reject, hcancel, hside]
  | some loc =>
      obtain ⟨q, o, _, _, _, _, hderef, _, _, hfind⟩ := h.found hloc
      obtain ⟨t', hremove, hsame⟩ := h.removed hloc
      simp only [hfind, hderef, hremove, Option.bind_eq_bind, Option.bind_some, Option.pure_def]
      exact ⟨t', _, _, _, rfl, rfl, rfl, hsame⟩

theorem Same.modify (h : Same t b) {c : ExchangeSim.Command} (hmodify : c.type = .modify)
    (hside : c.side = .buy) (hmax : c.qty.toNat ≤ maxInt) :
    ∃ t' evs b' evs', apply t (commandOf c) = some (t', evs) ∧ b.modify c = some (b', evs') ∧
      evs'.map eventOf = evs.map some ∧ Same t' b' := by
  have hqzero : ((c.qty.toNat : Int) = 0) ↔ c.qty = 0 := by
    rw [← UInt64.toNat_inj]
    exact Int.natCast_eq_zero
  have hrej : ∀ r, [rejectedEvent c r].map eventOf =
      (reject c.orderId.toNat .buy .modify r).map some := by
    intro r
    simp [rejectedEvent, eventOf, reject, hmodify, hside]
  rw [commandOf, hmodify]
  simp only [apply, ReferenceBook.modify, hqzero]
  by_cases h0 : c.qty = 0
  · simp only [if_pos h0]
    exact ⟨t, _, b, _, rfl, rfl, hrej _, h⟩
  simp only [if_neg h0]
  cases hloc : b.index.lookup c.orderId with
  | none =>
      simp only [h.missing hloc]
      exact ⟨t, _, b, _, rfl, rfl, hrej _, h⟩
  | some loc =>
      obtain ⟨q, o, _, _, _, hit, hderef, _, _, hfind⟩ := h.found hloc
      simp only [hfind, hderef, hit, Option.bind_eq_bind, Option.bind_some, Option.pure_def,
        h.inBand, not_not]
      by_cases h1 : c.price < b.minPrice ∨ b.maxPrice < c.price
      · simp only [if_pos h1]
        exact ⟨t, _, b, _, rfl, rfl, hrej _, h⟩
      simp only [if_neg h1]
      have hkeep : (c.price.toInt = loc.price.toInt ∧ (c.qty.toNat : Int) ≤ (orderOf o).qty) ↔
          (c.price = loc.price ∧ c.qty ≤ o.qty) := by
        rw [Int64.toInt_inj, UInt64.le_iff_toNat_le, orderOf]
        simp
      simp only [hkeep]
      by_cases h2 : c.price = loc.price ∧ c.qty ≤ o.qty
      · obtain ⟨t', hset, hsame⟩ := h.amended hloc h0 hmax
        simp only [if_pos h2, hset, Option.bind_some]
        exact ⟨t', _, _, _, rfl, rfl, rfl, hsame⟩
      simp only [if_neg h2]
      obtain ⟨t₁, hremove, h₁⟩ := h.removed hloc
      have hgone : (b.remove c.orderId loc).index.lookup c.orderId = none := AList.lookup_erase _ _
      have hstp : (b.remove c.orderId loc).stp = t.config.defaultStp := by
        rw [h.stp, ReferenceBook.remove]
        cases loc.side <;> rfl
      simp only [hremove, Option.bind_some, hstp, show (orderOf o).owner = o.owner.toNat from rfl]
      generalize t.config.defaultStp = stp
      obtain ⟨hrq, hrz, hstop, hevents, hsame, hrest⟩ :=
        h₁.entered hgone o.owner loc.side c.price h0 hmax stp
      generalize sweep c.orderId.toNat o.owner.toNat loc.side c.price.toInt stp t₁ c.price.toInt
        c.qty.toNat = r at *
      generalize (b.remove c.orderId loc).matchOrder c.orderId o.owner loc.side c.price
        c.qty stp = m at *
      by_cases hz : m.qty = 0
      · simp only [if_pos hz, if_pos (hrz.mpr hz)]
        refine ⟨_, _, _, _, rfl, rfl, ?_, hsame⟩
        rw [List.map_cons, List.map_cons, hevents]
        rfl
      have hrz' : ¬ r.qty = 0 := fun hc => hz (hrz.mp hc)
      simp only [if_neg hz, if_neg hrz', hstop]
      by_cases hs : m.stop = true
      · simp only [if_pos hs]
        refine ⟨_, _, _, _, rfl, rfl, eventOf_command rfl hevents ?_, hsame⟩
        rw [hrq]
        rfl
      simp only [if_neg hs]
      obtain ⟨hmore, hlast⟩ := hrest hz (by simpa using hs)
      rw [hrq]
      exact ⟨_, _, _, _, rfl, rfl, eventOf_command rfl hevents hmore, hlast⟩

theorem Same.process (h : Same t b) {c : ExchangeSim.Command} (hc : CommandFits c) :
    ∃ t' evs b' evs', apply t (commandOf c) = some (t', evs) ∧ b.process c = some (b', evs') ∧
      evs'.map eventOf = evs.map some ∧ Same t' b' := by
  have hmax : c.qty.toNat ≤ maxInt := by
    have := hc.qty.2
    rw [maxInt]
    omega
  rw [ReferenceBook.process]
  cases htype : c.type with
  | newOrder =>
      obtain ⟨t', evs, happly, hevents, hsame⟩ := h.add hmax htype
      exact ⟨t', evs, _, _, happly, rfl, hevents, hsame⟩
  | cancel => exact h.cancel htype (hc.side (by simp [htype]))
  | modify => exact h.modify htype (hc.side (by simp [htype])) hmax

theorem Same.run (h : Same t b) {cs : List ExchangeSim.Command} (hcs : ∀ c ∈ cs, CommandFits c) :
    ∃ t' evs b' evs', run t (cs.map commandOf) = some (t', evs) ∧ b.run cs = some (b', evs') ∧
      evs'.map (List.map eventOf) = evs.map (List.map some) ∧ Same t' b' := by
  induction cs generalizing t b with
  | nil => exact ⟨t, [], b, [], rfl, rfl, rfl, h⟩
  | cons c cs ih =>
      obtain ⟨t₁, ev, b₁, ev', happly, hprocess, hev, h₁⟩ := h.process (hcs c List.mem_cons_self)
      obtain ⟨t₂, evs, b₂, evs', hrun, hrun', hevs, h₂⟩ :=
        ih h₁ fun x hx => hcs x (List.mem_cons_of_mem c hx)
      refine ⟨t₂, ev :: evs, b₂, ev' :: evs', ?_, ?_, ?_, h₂⟩
      · simp [ExsimRef.run, happly, hrun]
      · simp [ReferenceBook.run, hprocess, hrun']
      · rw [List.map_cons, List.map_cons, hev, hevs]

theorem same_create (symbol : SymbolId) {cfg : BookConfig} (hcfg : ConfigFits cfg) :
    Same (create (configOf cfg)) (ReferenceBook.make symbol cfg) := by
  obtain ⟨hmin, hlevels, horders, htop⟩ := hcfg
  refine ⟨Book.ReferenceBook.sound_make maxInt symbol cfg, rfl, ?_, rfl, ?_, rfl, ?_, ?_, rfl⟩
  · have hofNat : (Int64.ofNat cfg.numLevels).toInt = cfg.numLevels := by
      refine Int64.toInt_ofNat_of_lt ?_
      have := hlevels.2
      omega
    change sub (add cfg.minPrice.toInt cfg.numLevels) 1 =
      (cfg.minPrice + Int64.ofNat cfg.numLevels - 1).toInt
    rw [Int64.toInt_sub, Int64.toInt_add, hofNat, show Int64.toInt 1 = 1 from rfl, sub,
      add, wrap, wrap]
    obtain ⟨_, _⟩ := hmin
    obtain ⟨_, _⟩ := htop
    simp only [Int.bmod]
    omega
  · have := horders.2
    change cfg.maxOrders < 2 ^ 62
    omega
  · intro S e
    cases S <;> simp [create, bookOf, SortedMap.empty, ReferenceBook.make, ReferenceBook.sideOf]
  · intro e
    simp [create, SortedMap.empty, ReferenceBook.make]

theorem Same.not_crossed (h : Same t b) : crossed t = false := by
  have huncrossed := h.sound.uncrossed .buy
  rw [crossed, h.best, h.best]
  cases hb : b.sideOf .buy with
  | nil => rfl
  | cons x l =>
      cases ha : b.sideOf .sell with
      | nil => rfl
      | cons y l' =>
          have hxy : ¬ inRange .buy x.1 y.1 = true :=
            huncrossed x (by rw [hb]; exact List.mem_cons_self) y
              (by rw [opposite, ha]; exact List.mem_cons_self)
          simpa [inRange, Int64.lt_iff_toInt_lt] using hxy

theorem Same.levelsOk (h : Same t b) (S : Side) : levelsOk (bookOf t S) = true := by
  rw [ExsimRef.levelsOk, List.all_eq_true]
  intro e he
  obtain ⟨x, hx, rfl⟩ := (h.side S e).mp he
  have hfull := (h.sound.side S).full x hx
  have heach := (h.sound.side S).each x hx
  rw [Bool.and_eq_true, decide_eq_true_eq, List.all_eq_true]
  constructor
  · simpa [levelOf] using hfull
  · intro o ho
    obtain ⟨o', ho', rfl⟩ := List.mem_map.mp ho
    have hpos : o'.qty.toNat ≠ 0 := fun hz => (heach o' ho').1 (UInt64.toNat_inj.mp hz)
    rw [decide_eq_true_eq]
    exact Int.natCast_pos.mpr (Nat.pos_of_ne_zero hpos)

private theorem foldl_lengths (l : List (Int × List Order)) (n : Nat)
    (hsmall : n + (l.map fun e => e.2.length).sum < 2 ^ 62) :
    l.foldl (fun acc e => add acc e.2.length)
      (n : Int) = (n + (l.map fun e => e.2.length).sum : Nat) := by
  induction l generalizing n with
  | nil => rfl
  | cons e l ih =>
      rw [List.map_cons, List.sum_cons] at hsmall ⊢
      have hadd : add (n : Int) e.2.length = (n + e.2.length : Nat) := by
        rw [add, wrap_of_fits]
        · rfl
        · constructor <;> omega
      rw [List.foldl_cons, hadd, ih _ (by omega), Nat.add_assoc]

theorem places_length_eq_sum (l : RefSide) :
    (places l).length = (l.map fun x => x.2.length).sum := by
  induction l with
  | nil => rfl
  | cons x l ih =>
      rw [places_cons, List.length_append, List.length_map, ih, List.map_cons, List.sum_cons]

theorem Same.countOrders (h : Same t b) (S : Side) :
    countOrders (bookOf t S) = ((places (b.sideOf S)).length : Nat) := by
  have hperm : (bookOf t S).entries.Perm (ExsimRef.listing t S) := by
    cases S
    · exact (List.reverse_perm _).symm
    · exact List.Perm.refl _
  have hsum : ((bookOf t S).entries.map fun e => e.2.length).sum =
      (places (b.sideOf S)).length := by
    rw [(hperm.map _).sum_nat, h.listing, places_length_eq_sum, List.map_map]
    congr 1
    refine List.map_congr_left fun x _ => ?_
    exact List.length_map ..
  have hheld := h.sound.held
  have hsmall := h.small
  have hlen := Book.ReferenceBook.places_length b S
  have := foldl_lengths (bookOf t S).entries 0 (by omega)
  rw [ExsimRef.countOrders]
  rw [Nat.zero_add, hsum] at this
  exact this

theorem Same.index_length (h : Same t b) : t.index.entries.length = b.size := by
  have hnodup : (t.index.entries.map Prod.fst).Nodup := by
    refine List.pairwise_map.mpr (t.index.sorted.imp fun {x y} hlt => ?_)
    exact Int.ne_of_lt hlt
  have hnodup' : (b.index.keys.map fun id => (id.toNat : Int)).Nodup :=
    b.index.nodupKeys.map fun _ _ he => ofNat_eq_iff.mp he
  have hperm :
      (t.index.entries.map Prod.fst).Perm (b.index.keys.map fun id => (id.toNat : Int)) := by
    refine (List.perm_ext_iff_of_nodup hnodup hnodup').mpr fun k => ?_
    rw [List.mem_map, List.mem_map]
    constructor
    · rintro ⟨e, he, rfl⟩
      obtain ⟨id, loc, hloc, rfl⟩ := (h.index e).mp he
      refine ⟨id, ?_, rfl⟩
      exact AList.mem_keys.mp (AList.lookup_isSome.mp (by rw [hloc]; rfl))
    · rintro ⟨id, hid, rfl⟩
      obtain ⟨loc, hloc⟩ :=
        Option.isSome_iff_exists.mp (AList.lookup_isSome.mpr (AList.mem_keys.mpr hid))
      exact ⟨_, (h.index _).mpr ⟨id, loc, hloc, rfl⟩, rfl⟩
  have := hperm.length_eq
  rw [List.length_map, List.length_map] at this
  rw [this, ReferenceBook.size, AList.keys, List.keys, List.length_map]

theorem Same.invariants (h : Same t b) : invariants t = true := by
  have hbids := h.countOrders .buy
  have hasks := h.countOrders .sell
  have hheld := h.sound.held
  have hsmall := h.small
  have hadd : ExsimRef.add (ExsimRef.countOrders t.bids) (ExsimRef.countOrders t.asks) =
      ((places b.bids).length + (places b.asks).length : Nat) := by
    change ExsimRef.add (ExsimRef.countOrders (bookOf t .buy))
      (ExsimRef.countOrders (bookOf t .sell)) = _
    rw [hbids, hasks, ExsimRef.add, wrap_of_fits]
    · rfl
    · change Fits ((places b.bids).length + (places b.asks).length)
      constructor <;> omega
  have hindex := h.index_length
  rw [h.sound.size_eq] at hindex
  simp only [ExsimRef.invariants, h.not_crossed, hadd, h.count, hindex,
    show ExsimRef.levelsOk t.bids = true from h.levelsOk .buy,
    show ExsimRef.levelsOk t.asks = true from h.levelsOk .sell, Bool.not_false,
    decide_true, Bool.and_self]

end Same

/-- The OCaml model is the textbook book: after every command of a run both have sent the same
events, they hold the same orders in the same queues, and the invariants of the model hold. -/
theorem same_as_reference_book (symbol : SymbolId) {cfg : BookConfig} (hcfg : ConfigFits cfg)
    {cs : List ExchangeSim.Command} (hcs : ∀ c ∈ cs, CommandFits c) {pre : List ExchangeSim.Command}
    (hpre : pre <+: cs) :
    ∃ t evs b evs', run (create (configOf cfg)) (pre.map commandOf) = some (t, evs) ∧
      (ReferenceBook.make symbol cfg).run pre = some (b, evs') ∧
      evs'.map (List.map eventOf) = evs.map (List.map some) ∧
      (∀ S, listing t S = (b.sideOf S).map levelOf) ∧ invariants t = true := by
  have hfit : ∀ c ∈ pre, CommandFits c := fun c hc => hcs c (hpre.subset hc)
  obtain ⟨t, evs, b, evs', hrun, hrun', hevents, hsame⟩ := (same_create symbol hcfg).run hfit
  exact ⟨t, evs, b, evs', hrun, hrun', hevents, hsame.listing, hsame.invariants⟩

/-- A band of 64 prices. -/
def narrowBook : BookConfig :=
  { minPrice := 100, numLevels := 64, maxOrders := 2, stp := .decrementCancel }

/-- Two sells rest, a buy of the same owner meets the first of them, one is modified and one
canceled. -/
def sharedRun : List ExchangeSim.Command :=
  [{ type := .newOrder, orderId := 1, side := .sell, price := 110, qty := 5, owner := 7 },
   { type := .newOrder, orderId := 2, side := .sell, price := 110, qty := 4, owner := 8 },
   { type := .newOrder, orderId := 3, side := .buy, price := 112, qty := 9, owner := 7,
     flags := 2 },
   { type := .modify, orderId := 2, price := 109, qty := 6 },
   { type := .cancel, orderId := 3 }]

theorem same_as_reference_book_shared :
    (ConfigFits narrowBook ∧ (∀ c ∈ sharedRun, CommandFits c) ∧ sharedRun.take 4 <+: sharedRun) ∧
      ∃ t evs b evs', run (create (configOf narrowBook))
        ((sharedRun.take 4).map commandOf) = some (t, evs) ∧
        (ReferenceBook.make 1 narrowBook).run (sharedRun.take 4) = some (b, evs') ∧
        evs'.map (List.map eventOf) = evs.map (List.map some) ∧
        (∀ S, listing t S = (b.sideOf S).map levelOf) ∧ invariants t = true := by
  have hcfg : ConfigFits narrowBook := ⟨by decide, by decide, by decide, by decide⟩
  have hcs : ∀ c ∈ sharedRun, CommandFits c := by
    simp only [sharedRun, List.forall_mem_cons, List.not_mem_nil, false_implies,
      implies_true, and_true]
    refine ⟨?_, ?_, ?_, ?_, ?_⟩ <;> exact ⟨by decide, by decide, by decide, by decide⟩
  have hpre : sharedRun.take 4 <+: sharedRun := List.take_prefix 4 sharedRun
  exact ⟨⟨hcfg, hcs, hpre⟩, same_as_reference_book 1 hcfg hcs hpre⟩


end ExchangeSim.ExsimRef
