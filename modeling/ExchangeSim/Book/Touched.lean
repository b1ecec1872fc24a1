/- digest: Which levels a command can change: those its events name, and the one a modified order
   leaves. -/

import ExchangeSim.Book.Levels
import ExchangeSim.Book.Taker

set_option autoImplicit false
set_option relaxedAutoImplicit false

namespace ExchangeSim.Book

open ExchangeSim.Lib

namespace PriorityBook

variable {R : Rules} {A : PriorityBook}

/-! ### Totals by level -/

/-- The orders at one level. -/
def atLevel (l : List Resting) (ix : Nat) : List Resting := l.filter fun e => e.level = ix

/-- The total at a level modulo 2^64, if an order rests at it. -/
def totalAt (l : List Resting) (ix : Nat) : Option Qty :=
  if atLevel l ix = [] then none else some ((atLevel l ix).map Resting.qty).sum

theorem atLevel_cons_self {e : Resting} {ix : Nat} (h : e.level = ix) (l : List Resting) :
    atLevel (e :: l) ix = e :: atLevel l ix := List.filter_cons_of_pos (by simpa using h)

theorem atLevel_cons_of_ne {e : Resting} {ix : Nat} (h : e.level ≠ ix) (l : List Resting) :
    atLevel (e :: l) ix = atLevel l ix := List.filter_cons_of_neg (by simpa using h)

theorem atLevel_eq_nil {l : List Resting} {ix : Nat} : atLevel l ix = [] ↔
    ∀ e ∈ l, e.level ≠ ix := by
  simp [atLevel]

theorem totals_head {l : List Resting} {p : Nat × UInt64} {ps : List (Nat × UInt64)}
    (h : totals l = p :: ps) :
    ∃ e es, l = e :: es ∧ e.level = p.1 := by
  cases l with
  | nil => simp [totals] at h
  | cons e es =>
      refine ⟨e, es, rfl, ?_⟩
      rw [totals] at h
      split at h
      · cases h
        rfl
      · split at h
        · rename_i hl
          cases h
          exact hl.symm
        · cases h
          rfl

theorem not_again {S : Side} {e x : Resting} {es : List Resting}
    (h : (e :: x :: es).Pairwise fun a b => ahead S a.level b.level) (hne : x.level ≠ e.level) :
    ∀ y ∈ x :: es, y.level ≠ e.level := by
  rw [List.pairwise_cons, List.pairwise_cons] at h
  intro y hy heq
  have hx := h.1 x List.mem_cons_self
  rcases List.mem_cons.mp hy with rfl | hy
  · exact hne heq
  · have hxy := h.2.1 y hy
    cases S <;> simp only [ahead, decide_eq_true_eq] at hx hxy <;> omega

theorem find_totals {S : Side} {l : List Resting}
    (h : l.Pairwise fun a b => ahead S a.level b.level) (ix : Nat) :
    ((totals l).find? fun p => p.1 = ix).map Prod.snd = totalAt l ix := by
  induction l with
  | nil => rfl
  | cons e es ih =>
      have ih := ih (List.pairwise_cons.mp h).2
      rw [totals]
      cases hes : totals es with
      | nil =>
          have hnil : es = [] := by
            cases es with
            | nil => rfl
            | cons x xs =>
                rw [totals] at hes
                split at hes
                · cases hes
                · split at hes <;> cases hes
          subst hnil
          by_cases hix : e.level = ix
          · simp [totalAt, atLevel, hix]
          · simp [totalAt, atLevel, hix]
      | cons p ps =>
          obtain ⟨x, xs, rfl, hx⟩ := totals_head hes
          rw [hes] at ih
          simp only
          by_cases hl : p.1 = e.level
          · rw [if_pos hl]
            by_cases hix : e.level = ix
            · -- the level goes on: the first total grows
              have hsome : totalAt (x :: xs) ix = some p.2 := by
                rw [← ih, List.find?_cons_of_pos (by simpa using hl.trans hix)]
                rfl
              have hat : atLevel (x :: xs) ix = x :: atLevel xs ix :=
                atLevel_cons_self ((hx.trans hl).trans hix) xs
              rw [totalAt, hat, if_neg (List.cons_ne_nil _ _), ← hat, Option.some.injEq] at hsome
              rw [List.find?_cons_of_pos (by simpa using hl.trans hix), totalAt,
                atLevel_cons_self hix,
                if_neg (List.cons_ne_nil _ _), List.map_cons, List.sum_cons, hsome]
              rfl
            · have hp : ¬ p.1 = ix := fun hp => hix (hl.symm.trans hp)
              rw [List.find?_cons_of_neg (by simpa using hp)] at ih ⊢
              rw [ih, totalAt, totalAt, atLevel_cons_of_ne hix]
          · rw [if_neg hl]
            by_cases hix : e.level = ix
            · -- the level ends: nothing further back is at it
              have hgone : atLevel (x :: xs) ix = [] := by
                rw [atLevel_eq_nil, ← hix]
                exact not_again h (by rwa [hx])
              rw [List.find?_cons_of_pos (by simpa using hix), totalAt,
                atLevel_cons_self hix, hgone]
              simp
            · rw [List.find?_cons_of_neg (by simpa using hix), ih, totalAt, totalAt,
                atLevel_cons_of_ne hix]

theorem Rules.relOf_priceOf (hsmall : R.cfg.numLevels ≤ 2 ^ 30) {i : Nat}
    (hi : i < R.cfg.numLevels) :
    R.relOf (R.priceOf i) = some i := by
  have hrel := Rules.rel_priceOf hsmall hi
  rw [Rules.relOf]
  simp only [hrel]
  rw [if_neg (by omega)]
  rfl

/-- The total at a price, if an order rests at it. -/
def totalAtPrice (R : Rules) (l : List Resting) (px : Price) : Option Qty :=
  (R.relOf px).bind (totalAt l)

theorem sum_toNat (l : List Resting) : (l.map Resting.qty).sum.toNat = volume l % 2 ^ 64 := by
  induction l with
  | nil => rfl
  | cons e es ih =>
      rw [List.map_cons, List.sum_cons, UInt64.toNat_add, ih, volume_cons, Nat.add_mod_mod]

theorem volume_atLevel_le (l : List Resting) (ix : Nat) : volume (atLevel l ix) ≤ volume l :=
  (List.filter_sublist.map _).sum_le_sum fun _ _ => Nat.zero_le _

theorem totalAt_ne_zero {l : List Resting} (hpos : ∀ e ∈ l, e.qty ≠ 0)
    (hv : volume l < 2 ^ 64) (ix : Nat) :
    totalAt l ix ≠ some 0 := by
  rw [totalAt]
  cases hat : atLevel l ix with
  | nil => simp
  | cons e es =>
      rw [if_neg (List.cons_ne_nil e es), ne_eq, Option.some.injEq, ← UInt64.toNat_inj, sum_toNat]
      have hle := volume_atLevel_le l ix
      rw [hat] at hle
      have he : e.qty.toNat ≠ 0 := by
        intro h0
        have hmem : e ∈ l :=
          List.mem_of_mem_filter (show e ∈ atLevel l ix by rw [hat]; exact List.mem_cons_self)
        exact hpos e hmem (UInt64.toNat_inj.mp h0)
      rw [Nat.mod_eq_of_lt (by omega), volume_cons]
      change e.qty.toNat + volume es ≠ 0
      omega

/-! ### What a command touches -/

/-- The level that an event says has changed. -/
def touched (e : Event) : Option (Side × Price) :=
  match e.type with
  | .trade => some (opposite e.side, e.price)
  | .accepted | .canceled | .modified => some (e.side, e.price)
  | .rejected => none

theorem sweep_touches (S : Side) (taker : OrderId) (owner : OwnerId) (limit : Int) (stp : Stp)
    (l : List Resting) (q : Qty) (ix : Nat) :
    atLevel (sweep R S taker owner limit stp l q).makers ix = atLevel l ix ∨
      ∃ ev ∈ (sweep R S taker owner limit stp l q).events,
      touched ev = some (opposite S, R.priceOf ix) := by
  induction l generalizing q with
  | nil => exact .inl rfl
  | cons e es ih =>
      have hgo : ∀ q' ev evs, sweep R S taker owner limit stp (e :: es) q =
          (sweep R S taker owner limit stp es q').behind (ev :: evs) →
          touched ev = some (opposite S, R.priceOf e.level) →
          atLevel (sweep R S taker owner limit stp (e :: es) q).makers ix = atLevel (e :: es) ix ∨
            ∃ ev ∈ (sweep R S taker owner limit stp (e :: es) q).events,
            touched ev = some (opposite S, R.priceOf ix) := by
        intro q' ev evs heq hev
        rw [heq]
        by_cases hix : e.level = ix
        · rw [hix] at hev
          exact .inr ⟨ev, List.mem_cons_self, hev⟩
        · rw [atLevel_cons_of_ne hix]
          refine (ih q').imp_right ?_
          rintro ⟨ev', hev', ht⟩
          exact ⟨ev', List.mem_append_right _ hev', ht⟩
      have hstop : ∀ r ev, (sweep R S taker owner limit stp (e :: es) q).makers = r ++ es →
          ev ∈ (sweep R S taker owner limit stp (e :: es) q).events → (∀ x ∈ r, x.level = e.level) →
          touched ev = some (opposite S, R.priceOf e.level) →
          atLevel (sweep R S taker owner limit stp (e :: es) q).makers ix = atLevel (e :: es) ix ∨
            ∃ ev ∈ (sweep R S taker owner limit stp (e :: es) q).events,
            touched ev = some (opposite S, R.priceOf ix) := by
        intro r ev hmakers hmem hr hev
        by_cases hix : e.level = ix
        · rw [hix] at hev
          exact .inr ⟨ev, hmem, hev⟩
        · left
          have hnone : atLevel r ix = [] := by
            rw [atLevel_eq_nil]
            intro x hx
            rw [hr x hx]
            exact hix
          rw [hmakers, atLevel_cons_of_ne hix]
          change List.filter _ (r ++ es) = _
          rw [List.filter_append]
          change atLevel r ix ++ atLevel es ix = _
          rw [hnone, List.nil_append]
      rcases sweep_cases R S taker owner limit stp e es q with ⟨ho, _⟩ | ⟨_, _, hcase⟩
      · exact .inl (by rw [ho])
      rcases hcase with ⟨ho, _⟩ | ⟨ho, _⟩ | ⟨ho, _⟩ | ⟨ho, _⟩ | ⟨ho, _⟩ | ⟨ho, _⟩ | ⟨ho, _⟩
      · exact .inl (by rw [ho])
      · exact hstop [{ e with qty := e.qty - q }] _ (by rw [ho]; rfl)
          (by rw [ho]; exact List.mem_cons_self) (by simp) rfl
      · exact hstop [] _ (by rw [ho]; rfl) (by rw [ho]; exact List.mem_cons_self) (by simp) rfl
      · exact hgo _ _ _ ho rfl
      · exact hgo _ _ _ ho rfl
      · refine hstop [{ e with qty := e.qty - q }] _ (by rw [ho]; rfl)
          (by rw [ho]; exact List.mem_cons_self) (by simp) ?_
        rfl
      · exact hgo _ _ _ ho rfl

theorem atLevel_join {S : Side} {e : Resting} {ix : Nat} (h : e.level ≠ ix) (l : List Resting) :
    atLevel (join S e l) ix = atLevel l ix := by
  induction l with
  | nil => exact atLevel_cons_of_ne h []
  | cons x xs ih =>
      rw [join]
      split
      · by_cases hx : x.level = ix
        · rw [atLevel_cons_self hx, atLevel_cons_self hx, ih]
        · rw [atLevel_cons_of_ne hx, atLevel_cons_of_ne hx, ih]
      · exact atLevel_cons_of_ne h _

/-- What an order that enters changes: the levels its events name, and the one its remainder
joins. -/
theorem enter_touches (A : PriorityBook) (S : Side) (id : OrderId) (owner : OwnerId) (limit : Int)
    (qty : Qty) (stp : Stp) (px : Price) (mayRest : Bool) (U : Side) (ix : Nat) :
    let r := enter R A S id owner limit qty stp px mayRest
    atLevel (r.1 U) ix = atLevel (A U) ix ∨ (∃ ev ∈ r.2, touched ev = some (U, R.priceOf ix)) ∨
      (mayRest = true ∧ U = S ∧ ix = limit.toNat) := by
  intro r
  have hsweep := sweep_touches (R := R) S id owner limit stp (A (opposite S)) qty ix
  have hevents : ∀ ev ∈ (sweep R S id owner limit stp (A (opposite S)) qty).events, ev ∈ r.2 := by
    intro ev hev
    rcases enter_events (R := R) A S id owner limit qty stp px mayRest with ⟨heq, _⟩ |
      ⟨p, reason, _, _, heq⟩
    · exact heq ▸ hev
    · exact heq ▸ List.mem_append_left _ hev
  have hmakers : ∀ B : PriorityBook,
    B (opposite S) = (sweep R S id owner limit stp (A (opposite S)) qty).makers →
      U = opposite S → atLevel (B U) ix = atLevel (A U) ix ∨ ∃ ev ∈ r.2,
      touched ev = some (U, R.priceOf ix) := by
    intro B hB hU
    subst hU
    rw [hB]
    refine hsweep.imp_right ?_
    rintro ⟨ev, hev, ht⟩
    exact ⟨ev, hevents ev hev, ht⟩
  rcases enter_book (R := R) (A := A) S id owner limit qty stp px mayRest with hbook | ⟨hm, hbook⟩
  · by_cases hU : U = opposite S
    · exact (hmakers r.1 (by rw [hbook, Function.update_self]) hU).imp_right .inl
    · exact .inl (by rw [hbook, Function.update_of_ne hU])
  · by_cases hU : U = opposite S
    · refine (hmakers r.1 ?_ hU).imp_right .inl
      rw [hbook, Function.update_of_ne (ne_opposite S).symm, Function.update_self]
    · have hS : U = S := (eq_opposite_of_ne hU).trans (opposite_opposite S)
      subst hS
      rw [hbook, Function.update_self]
      by_cases hix : ix = limit.toNat
      · exact .inr (.inr ⟨hm, rfl, hix⟩)
      · exact .inl (atLevel_join (Ne.symm hix) _)

section Process

variable (ok : Ok R A) {id : OrderId} {S U : Side} {e : Resting} {ix : Nat}

include ok

theorem atLevel_erased (hlook : lookup A id = some (S, e)) (hne : ¬ (U = S ∧ e.level = ix)) :
    atLevel (Function.update A S (eraseId id (A S)) U) ix = atLevel (A U) ix := by
  by_cases hU : U = S
  · subst hU
    obtain ⟨he, hid⟩ := lookup_mem hlook
    rw [Function.update_self, atLevel, eraseId, List.filter_filter, atLevel]
    apply List.filter_congr
    intro x hx
    by_cases hxid : x.id = id
    · obtain ⟨-, rfl⟩ := ok.ids.unique hx he (hxid.trans hid.symm)
      have hlevel : ¬ x.level = ix := fun hl => hne ⟨rfl, hl⟩
      simp [hlevel]
    · simp [hxid]
  · rw [Function.update_of_ne hU]

theorem atLevel_setQty (hlook : lookup A id = some (S, e))
    (hne : ¬ (U = S ∧ e.level = ix)) (q : Qty) :
    atLevel (Function.update A S (setQty id q (A S)) U) ix = atLevel (A U) ix := by
  by_cases hU : U = S
  · subst hU
    obtain ⟨he, hid⟩ := lookup_mem hlook
    have hlevel : e.level ≠ ix := fun hl => hne ⟨rfl, hl⟩
    have hkeep : ∀ x ∈ atLevel (A U) ix, (if x.id = id then { x with qty := q } else x) = x := by
      intro x hx
      obtain ⟨hx, hxl⟩ := List.mem_filter.mp hx
      rw [if_neg]
      intro hxid
      obtain ⟨-, rfl⟩ := ok.ids.unique hx he (hxid.trans hid.symm)
      exact hlevel (by simpa using hxl)
    have hcomm : ∀ x : Resting, decide ((if x.id = id then { x with qty := q } else x).level = ix) =
        decide (x.level = ix) := by
      intro x
      split <;> rfl
    rw [Function.update_self, atLevel, setQty, List.filter_map]
    simp only [Function.comp_def, hcomm]
    change (atLevel (A U) ix).map _ = _
    rw [List.map_congr_left hkeep, List.map_id']
  · rw [Function.update_of_ne hU]

theorem process_touches (fok : FokCheck) (c : Command) (U : Side) (ix : Nat) :
    atLevel ((process R fok A c).1 U) ix = atLevel (A U) ix ∨
      (∃ ev ∈ (process R fok A c).2, touched ev = some (U, R.priceOf ix)) ∨
      (c.type = .modify ∧ ∃ e, lookup A c.orderId = some (U, e) ∧ e.level = ix) := by
  rcases process_cases R fok A c with ⟨_, h⟩ | ⟨S, e, _, hlook, h⟩ |
    ⟨S, e, hty, _, hlook, _, _, h⟩ |
    ⟨_, _, _, _, _, _, _, h⟩ | ⟨limit, _, _, _, hlimit, _, h⟩ | ⟨S, e, i, hty, _, hlook, hrel, _, h⟩
  · exact .inl (by rw [h])
  · rw [h]
    by_cases hown : U = S ∧ e.level = ix
    · obtain ⟨rfl, rfl⟩ := hown
      exact .inr (.inl ⟨_, List.mem_singleton_self _, rfl⟩)
    · exact .inl (atLevel_erased ok hlook hown)
  · by_cases hown : U = S ∧ e.level = ix
    · obtain ⟨rfl, rfl⟩ := hown
      exact .inr (.inr ⟨hty, e, hlook, rfl⟩)
    · rw [h]
      exact .inl (atLevel_setQty ok hlook hown _)
  · exact .inl (by rw [h])
  · rw [h]
    rcases enter_touches (R := R) A c.side c.orderId c.owner limit c.qty
      (effectiveStp c.flags R.cfg.stp) c.eventPrice
      (c.ordType = .limit ∧ c.tif = .day) U ix with hsame | ⟨ev, hev, ht⟩ | ⟨hm, rfl, rfl⟩
    · exact .inl hsame
    · exact .inr (.inl ⟨ev, List.mem_cons_of_mem _ hev, ht⟩)
    · -- the remainder rests at its limit, which the first event names
      obtain ⟨hlim, -⟩ := of_decide_eq_true hm
      simp only [Rules.limitOf, hlim] at hlimit
      obtain ⟨i, hi, rfl⟩ := Option.map_eq_some_iff.mp hlimit
      refine .inr (.inl ⟨_, List.mem_cons_self, ?_⟩)
      rw [Int.toNat_natCast, Rules.priceOf_relOf hi]
      simp only [touched, acceptedEvent, Command.eventPrice, hlim]
  · by_cases hown : U = S ∧ e.level = ix
    · obtain ⟨rfl, rfl⟩ := hown
      exact .inr (.inr ⟨hty, e, hlook, rfl⟩)
    rw [h]
    rcases enter_touches (R := R)
      (Function.update A S (eraseId c.orderId (A S))) S c.orderId e.owner i c.qty R.cfg.stp
      (R.priceOf i) true U ix with hsame | ⟨ev, hev, ht⟩ | ⟨-, rfl, rfl⟩
    · exact .inl (hsame.trans (atLevel_erased ok hlook hown))
    · exact .inr (.inl ⟨ev, List.mem_cons_of_mem _ hev, ht⟩)
    · refine .inr (.inl ⟨_, List.mem_cons_self, ?_⟩)
      rw [Rules.priceOf_relOf hrel]
      rfl

end Process

end PriorityBook

namespace OrderBook

open PriorityBook (Rules atLevel totalAt totalAtPrice)

variable {σ : Type} [StoreLayout σ] {b : OrderBook σ} {R : Rules} {A : PriorityBook}

theorem Refines.levelQty (h : Refines R b A) (T : Side) (px : Price) :
    b.levelQty T px = (totalAtPrice R (A T) px).getD 0 := by
  obtain ⟨L, free, hrep, hfol, rfl⟩ := h
  rw [totalAtPrice]
  cases hrel : R.relOf px with
  | none =>
      rw [OrderBook.levelQty, hfol.relOf, hrel]
      rfl
  | some i =>
      have hat : atLevel (b.abs L T) i = (b.lane (L T) i).map b.entry := by
        rw [atLevel, abs, List.filter_map]
        rfl
      have hkept : b.levelQty T px = if PriceBitmap.bitAt (b.bitsOf T).words i = true then
        (b.levels i).qty else 0 := by
        rw [OrderBook.levelQty, hfol.relOf, hrel]
        cases T
        · simp only [PriceBitmap.test_eq]
          rfl
        · simp only [PriceBitmap.test_eq]
          rfl
      rw [Option.bind_some, hkept]
      by_cases hocc : b.Occupied (L T) i
      · rw [if_pos ((hrep.bit_iff T i).mpr hocc)]
        have hne : atLevel (b.abs L T) i ≠ [] := by
          rw [hat, ne_eq, List.map_eq_nil_iff]
          exact lane_ne_nil.mpr hocc
        obtain ⟨s, hs, rfl⟩ := hocc
        rw [totalAt, if_neg hne, hat, (hrep.queue_at hs).2, List.map_map]
        rfl
      · have hbit' : ¬ PriceBitmap.bitAt (b.bitsOf T).words i = true :=
          mt (hrep.bit_iff T i).mp hocc
        have hnil : atLevel (b.abs L T) i = [] := by
          rw [hat, lane_eq_nil.mpr hocc]
          rfl
        rw [if_neg hbit', totalAt, if_pos hnil]
        rfl

theorem Refines.find_level (h : Refines R b A) (hsmall : R.cfg.numLevels ≤ 2 ^ 30)
    (T : Side) (px : Price) :
    ∃ levels, b.forEachLevel T = some levels ∧
      (levels.find? fun p => p.1 = px).map Prod.snd = totalAtPrice R (A T) px := by
  refine ⟨_, h.forEachLevel T, ?_⟩
  have hok := h.ok
  have hin : ∀ p ∈ PriorityBook.totals (A T), p.1 < R.cfg.numLevels := by
    intro p hp
    obtain ⟨e, he, heq⟩ :=
      List.mem_map.mp ((PriorityBook.totals_sublist (A T)).subset (List.mem_map_of_mem hp))
    rw [← heq]
    exact hok.level_lt T e he
  rw [List.find?_map, Option.map_map, totalAtPrice]
  cases hrel : R.relOf px with
  | none =>
      have hnone :
          (PriorityBook.totals (A T)).find?
            ((fun p => decide (p.1 = px)) ∘ fun p => (R.priceOf p.1, p.2)) = none := by
        rw [List.find?_eq_none]
        intro p hp heq
        have hprice : R.priceOf p.1 = px := by simpa using heq
        rw [← hprice, Rules.relOf_priceOf hsmall (hin p hp)] at hrel
        cases hrel
      rw [hnone]
      rfl
  | some ix =>
      rw [Option.bind_some, ← PriorityBook.find_totals (hok.sorted T)]
      have hsame :
        (PriorityBook.totals (A T)).find?
          ((fun p => decide (p.1 = px)) ∘ fun p => (R.priceOf p.1, p.2))
          = (PriorityBook.totals (A T)).find? fun p => p.1 = ix := by
        apply List.find?_congr
        intro p hp
        have hiff : R.priceOf p.1 = px ↔ p.1 = ix := by
          rw [← Rules.priceOf_relOf hrel]
          constructor
          · exact Rules.priceOf_inj hsmall (hin p hp) (Rules.relOf_lt hrel)
          · intro heq
            rw [heq]
        simp [hiff]
      rw [hsame]
      rfl

end OrderBook

end ExchangeSim.Book
