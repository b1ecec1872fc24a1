/- digest: Fill-or-kill against immediate-or-cancel: the advance check is exact unless level totals
   wrap around. -/

import ExchangeSim.Book.Levels
import ExchangeSim.Book.Taker

set_option autoImplicit false
set_option relaxedAutoImplicit false

namespace ExchangeSim.Book

open PriorityBook (Rules ahead inRange totals Tally tally Ok)

namespace PriorityBook

variable {R : Rules} {A : PriorityBook} {S : Side} {limit : Int}

/-! ### The check and the sweep -/

theorem fillableSeq_iff (R : Rules) (S : Side) (limit : Int) (taker : OrderId) (owner : OwnerId)
    (stp : Stp) (l : List Resting) {q : Qty} (hq : q ≠ 0) :
    fillableSeq S limit owner stp l q = true ↔ (sweep R S taker owner limit stp l q).qty = 0 := by
  induction l generalizing q with
  | nil => simp [fillableSeq, sweep, hq]
  | cons e es ih =>
      rw [fillableSeq]
      rcases sweep_cases R S taker owner limit stp e es q with ⟨ho, hend⟩ | ⟨_, hin, hcase⟩
      · rw [ho, hend.resolve_left hq]
        simp [hq]
      simp only [hin, not_true_eq_false, if_false]
      rcases hcase with ⟨ho, hm, hown⟩ | ⟨ho, hm, hown, hlt⟩ | ⟨ho, hm, hown, heq⟩ |
        ⟨ho, hm, hown, hlt⟩ | ⟨ho, hm, hown⟩ |
        ⟨ho, hother, hlt⟩ | ⟨ho, hother, hle⟩
      · rw [ho]
        simp [hm, hown, hq]
      · rw [ho]
        simp [hm, hown, hq, UInt64.le_of_lt hlt]
      · rw [ho]
        simp [hm, hown, hq, heq]
      · have hneg : ¬ q ≤ e.qty := UInt64.not_le.mpr hlt
        have hne : q - e.qty ≠ 0 := by grind
        rw [ho]
        simp only [hm, hown, ne_eq, not_false_eq_true, and_self, if_true, hneg,
          if_false, reduceCtorEq]
        rw [hm] at ih
        exact ih hne
      · rw [ho]
        simp only [hm, hown, ne_eq, not_false_eq_true, and_self, if_true, if_false, reduceCtorEq]
        rw [hm] at ih
        exact ih hq
      · have hnot : ¬ (stp ≠ .none ∧ e.owner = owner) :=
          fun hx => hother.elim hx.1 fun ho => ho hx.2
        rw [ho, if_neg hnot, if_pos (UInt64.le_of_lt hlt)]
        simp
      · have hnot : ¬ (stp ≠ .none ∧ e.owner = owner) :=
          fun hx => hother.elim hx.1 fun ho => ho hx.2
        rw [ho, if_neg hnot]
        by_cases hall : q ≤ e.qty
        · have hzero : q - e.qty = 0 := by grind
          rw [if_pos hall, hzero, sweep_zero]
          simp [Outcome.behind]
        · have hne : q - e.qty ≠ 0 := by grind
          rw [if_neg hall]
          exact ih hne

/-! ### The check and the totals -/

/-- The quantity within the limit. -/
def reach (S : Side) (limit : Int) (ts : List (Nat × UInt64)) : Nat :=
  ((ts.filter fun p => inRange S limit p.1).map fun p => p.2.toNat).sum

theorem reach_cons (p : Nat × UInt64) (ts : List (Nat × UInt64)) :
    reach S limit (p :: ts) = (if inRange S limit p.1 then p.2.toNat else 0) +
    reach S limit ts := by
  rw [reach, List.filter_cons]
  split
  · simp [reach]
  · simp [reach]

theorem reach_far {p : Nat × UInt64} {ts : List (Nat × UInt64)}
    (hsorted : (p :: ts).Pairwise fun x y => ahead (opposite S) x.1 y.1)
    (hfar : ¬ inRange S limit p.1 = true) :
    reach S limit ts = 0 := by
  have hnone : ts.filter (fun x => inRange S limit x.1) = [] := by
    refine List.filter_eq_nil_iff.mpr fun x hx hin => hfar ?_
    have hahead := (List.pairwise_cons.mp hsorted).1 x hx
    cases S <;> simp [ahead, inRange, opposite] at hahead hin ⊢ <;> omega
  rw [reach, hnone]
  rfl

theorem fillableTotals_iff (limit : Int) {ts : List (Nat × UInt64)}
    (hsorted : ts.Pairwise fun x y => ahead (opposite S) x.1 y.1) {q : Qty} (hq : q ≠ 0) :
    fillableTotals S limit ts q = true ↔ q.toNat ≤ reach S limit ts := by
  have hpos : ∀ q : Qty, q ≠ 0 → 0 < q.toNat := fun q hq => Nat.pos_of_ne_zero fun h =>
    hq (UInt64.toNat_inj.mp h)
  induction ts generalizing q with
  | nil =>
      have := hpos q hq
      simp only [fillableTotals, reach, List.filter_nil, List.map_nil, List.sum_nil,
        Bool.false_eq_true, false_iff]
      omega
  | cons p ts ih =>
      obtain ⟨ix, n⟩ := p
      rw [fillableTotals, reach_cons]
      by_cases hin : inRange S limit ix = true
      · simp only [hin, not_true_eq_false, if_false, if_true]
        by_cases hle : q ≤ n
        · rw [if_pos hle]
          rw [UInt64.le_iff_toNat_le] at hle
          simp only [true_iff]
          omega
        · have hne : q - n ≠ 0 := by grind
          have hsub := UInt64.toNat_sub_of_le _ _ (UInt64.le_of_lt (UInt64.not_le.mp hle))
          rw [if_neg hle]
          refine (ih (List.pairwise_cons.mp hsorted).2 hne).trans ?_
          rw [hsub]
          rw [UInt64.le_iff_toNat_le] at hle
          omega
      · have := hpos q hq
        rw [reach_far hsorted hin]
        simp only [hin, not_false_eq_true, if_true, if_false, Bool.false_eq_true, false_iff]
        omega

/-- Each order as a level of its own. -/
def singles (l : List Resting) : List (Nat × UInt64) := l.map fun e => (e.level, e.qty)

theorem fillableSeq_none (owner : OwnerId) (l : List Resting) (q : Qty) :
    fillableSeq S limit owner .none l q = fillableTotals S limit (singles l) q := by
  induction l generalizing q with
  | nil => rfl
  | cons e es ih =>
      have hoff : ¬ (Stp.none ≠ .none ∧ e.owner = owner) := fun hx => hx.1 rfl
      rw [fillableSeq, singles, List.map_cons, fillableTotals, ih]
      simp only [hoff, if_false]
      rfl

theorem reach_totals_le (S : Side) (limit : Int) (l : List Resting) :
    reach S limit (totals l) ≤ reach S limit (singles l) := by
  induction l with
  | nil => exact le_rfl
  | cons e es ih =>
      rw [singles, List.map_cons, reach_cons, ← singles, totals]
      split
      · rename_i hes
        rw [hes] at ih
        rw [reach_cons]
        exact Nat.add_le_add_left ih _
      · rename_i ix n rest hes
        rw [hes, reach_cons] at ih
        split
        · rename_i hix
          rw [reach_cons, hix]
          rw [hix] at ih
          have hsum : (e.qty + n).toNat ≤ e.qty.toNat + n.toNat := by
            rw [UInt64.toNat_add]
            exact Nat.mod_le _ _
          simp only at ih ⊢
          split
          · rename_i hin
            rw [if_pos hin] at ih
            omega
          · rename_i hin
            rw [if_neg hin] at ih
            omega
        · rw [reach_cons, reach_cons]
          exact Nat.add_le_add_left ih _

theorem singles_sorted {l : List Resting}
    (h : l.Pairwise fun x y => ahead (opposite S) x.level y.level) :
    (singles l).Pairwise fun x y => ahead (opposite S) x.1 y.1 := List.pairwise_map.mpr h

theorem totals_sorted {l : List Resting}
    (h : l.Pairwise fun x y => ahead (opposite S) x.level y.level) :
    (totals l).Pairwise fun x y => ahead (opposite S) x.1 y.1 := by
  have hlevels : (l.map Resting.level).Pairwise fun x y => ahead (opposite S) x y :=
    List.pairwise_map.mpr h
  exact List.pairwise_map.mp (hlevels.sublist (totals_sublist l))

theorem fillableAgg_sound (ok : Ok R A) (S : Side) (limit : Int) (owner : OwnerId) (stp : Stp)
    {q : Qty} (hq : q ≠ 0) (h : fillableAgg S limit owner stp (A (opposite S)) q = true) :
    fillableSeq S limit owner stp (A (opposite S)) q = true := by
  have hsorted := ok.sorted (opposite S)
  rw [fillableAgg] at h
  split at h
  · rename_i hstp
    rw [hstp, fillableSeq_none, fillableTotals_iff limit (singles_sorted hsorted) hq]
    exact ((fillableTotals_iff limit (totals_sorted hsorted) hq).mp h).trans
      (reach_totals_le S limit _)
  · exact h

theorem fillableAgg_eq_iff (ok : Ok R A) (S : Side) (limit : Int) (owner : OwnerId) (stp : Stp)
    {q : Qty} (hq : q ≠ 0) :
    fillableAgg S limit owner stp (A (opposite S)) q = fillableSeq S limit owner stp
      (A (opposite S)) q ↔
      stp ≠ .none ∨ q.toNat ≤ reach S limit (totals (A (opposite S))) ∨
        reach S limit (singles (A (opposite S))) < q.toNat := by
  have hsorted := ok.sorted (opposite S)
  by_cases hstp : stp = .none
  · have hle := reach_totals_le S limit (A (opposite S))
    have htotals := fillableTotals_iff limit (totals_sorted hsorted) hq
    have hsingles := fillableTotals_iff limit (singles_sorted hsorted) hq
    rw [fillableAgg, if_pos hstp, hstp, fillableSeq_none, Bool.eq_iff_iff, htotals, hsingles]
    simp only [ne_eq, not_true_eq_false, false_or]
    omega
  · rw [fillableAgg, if_neg hstp]
    simp [hstp]

/-! ### The two orders -/

section Ioc

variable {id : OrderId} (hid : ∀ e ∈ A (opposite S), e.id ≠ id) (owner : OwnerId) (qty : Qty)
    (stp : Stp) (px : Price)
include hid

theorem enter_expires (limit : Int) :
    (∃ ev ∈ (enter R A S id owner limit qty stp px false).2, ev.type = .canceled ∧
      ev.orderId = id) ↔
    (sweep R S id owner limit stp (A (opposite S)) qty).qty ≠ 0 := by
  have hcanceled := sweep_canceled (R := R) S owner limit stp hid qty
  rcases enter_events (R := R) A S id owner limit qty stp px false with ⟨heq, hzero⟩ |
    ⟨p, reason, hq, _, heq⟩
  · have hzero : (sweep R S id owner limit stp (A (opposite S)) qty).qty = 0 :=
      hzero.resolve_right fun hx => (nomatch hx.2)
    rw [heq]
    exact ⟨fun ⟨ev, hev, ht, hx⟩ => absurd hx (hcanceled ev hev ht), fun hq => absurd hzero hq⟩
  · rw [heq]
    exact ⟨fun _ => hq, fun _ =>
      ⟨_, List.mem_append_right _ (List.mem_singleton.mpr rfl), rfl, rfl⟩⟩

theorem enter_filled (limit : Int)
    (hq : (sweep R S id owner limit stp (A (opposite S)) qty).qty = 0) :
    let evs := (enter R A S id owner limit qty stp px false).2
    let t := evs.foldl (Tally.note id) { left := qty.toNat }
    (∀ ev ∈ evs, ev.type = .canceled → ev.orderId ≠ id) ∧ t.filled + t.decremented = qty.toNat := by
  have heq : (enter R A S id owner limit qty stp px false).2 =
      (sweep R S id owner limit stp (A (opposite S)) qty).events := by
    rcases enter_events (R := R) A S id owner limit qty stp px false with ⟨heq, _⟩ | ⟨_, _, hne, _⟩
    · exact heq
    · exact absurd hq hne
  have htally := (sweep_tally (R := R) S owner limit stp hid qty { left := qty.toNat } rfl).2
  simp only [hq] at htally
  simp only [heq]
  refine ⟨sweep_canceled S owner limit stp hid qty, ?_⟩
  have hzero : (0 : UInt64).toNat = 0 := rfl
  omega

end Ioc

theorem process_fok {c : Command} (hty : c.type = .newOrder) (fok : FokCheck)
    (hacc : (process R fok A { c with tif := .fok }).2.head?.map Event.type = some .accepted) :
    ∃ limit, c.qty ≠ 0 ∧ (∀ U, ∀ e ∈ A U, e.id ≠ c.orderId) ∧ R.limitOf c.side c = some limit ∧
      let accepted := acceptedEvent R.symbol c.orderId c.side c.eventPrice c.qty
      let stp := effectiveStp c.flags R.cfg.stp
      let n := enter R A c.side c.orderId c.owner limit c.qty stp c.eventPrice false
      process R fok A { c with tif := .ioc } = (n.1, accepted :: n.2) ∧
      process R fok A { c with tif := .fok } =
        if fok c.side limit c.owner stp (A (opposite c.side)) c.qty then (n.1, accepted :: n.2)
        else
          (A, [accepted, canceledEvent R.symbol c.orderId c.side c.eventPrice
              c.qty .fokUnfilled]) := by
  have hlimitOf :
    ∀ ty tif, R.limitOf c.side { c with type := ty, tif := tif } = R.limitOf c.side c :=
      fun _ _ => rfl
  have hprice : ∀ ty tif, ({ c with type := ty, tif := tif } : Command).eventPrice = c.eventPrice :=
    fun _ _ => rfl
  simp only [process, hty, add, hlimitOf, hprice] at hacc ⊢
  by_cases hid0 : c.orderId = 0
  · rw [if_pos hid0] at hacc
    cases hacc
  by_cases hq0 : c.qty = 0
  · rw [if_neg hid0, if_pos hq0] at hacc
    cases hacc
  simp only [if_neg hid0, if_neg hq0] at hacc ⊢
  cases hlimit : R.limitOf c.side c with
  | none =>
      rw [hlimit] at hacc
      cases hacc
  | some limit =>
  simp only [hlimit] at hacc ⊢
  cases hlook : lookup A c.orderId with
  | some p =>
      rw [hlook] at hacc
      cases hacc
  | none =>
  simp only [hlook, Option.isSome_none, Bool.false_eq_true, if_false] at hacc ⊢
  by_cases hpost : c.flags &&& kFlagPostOnly ≠ 0 ∧ crosses A c.side limit = true
  · rw [if_pos hpost] at hacc
    cases hacc
  simp only [if_neg hpost]
  refine ⟨limit, hq0, lookup_eq_none hlook, rfl, ?_, ?_⟩
  · simp
  · cases fok c.side limit c.owner (effectiveStp c.flags R.cfg.stp) (A (opposite c.side)) c.qty with
    | true => simp
    | false => simp

end PriorityBook

/-! ### The property -/

namespace OrderBook

variable {σ : Type} [StoreLayout σ]

/-- The order was accepted and killed, and the book is as it was. -/
def Killed (b : OrderBook σ) (c : Command) (b' : OrderBook σ) (evs : List Event) : Prop :=
  b' = b ∧ evs = [acceptedEvent b.symbol c.orderId c.side c.eventPrice c.qty,
    canceledEvent b.symbol c.orderId c.side c.eventPrice c.qty .fokUnfilled]

/-- Sent as fill-or-kill, the order is killed exactly if it would expire as immediate-or-cancel;
otherwise it has the same events, which use it up and do not cancel it. -/
def AllOrNothing (b : OrderBook σ) (c : Command) : Prop :=
  ∃ b₁ out₁ b₂ out₂, b.process { c with tif := .fok } {} = some (b₁, out₁) ∧
    b.process { c with tif := .ioc } {} = some (b₂, out₂) ∧
    (Killed b c b₁ out₁.events ↔ ∃ ev ∈ out₂.events, ev.type = .canceled ∧ ev.orderId = c.orderId) ∧
    (¬ Killed b c b₁ out₁.events → out₁.events = out₂.events ∧
      (tally c.orderId c.qty out₁.events).filled +
      (tally c.orderId c.qty out₁.events).decremented = c.qty.toNat ∧
      ∀ ev ∈ out₁.events, ev.type = .canceled → ev.orderId ≠ c.orderId)

/-- The order passes the checks of the book. -/
def Accepts (b : OrderBook σ) (c : Command) : Prop :=
  ∃ b' out, b.process c {} = some (b', out) ∧ out.events.head?.map Event.type = some .accepted

/-- The level of a price is within the limit of a new order. -/
def inLimit (minPrice : Price) (c : Command) (p : Price) : Bool :=
  match c.ordType, c.side with
  | .market, _ => true
  | .limit, .buy => (p - minPrice).toInt ≤ (c.price - minPrice).toInt
  | .limit, .sell => (c.price - minPrice).toInt ≤ (p - minPrice).toInt

/-- The totals that the book keeps of the levels within the limit add up to the quantity, or the
quantities that rest there do not. -/
def TotalsAgree (b : OrderBook σ) (c : Command) : Prop :=
  ∃ levels orders, b.forEachLevel (opposite c.side) = some levels ∧
    b.forEachOrder (opposite c.side) = some orders ∧
    (c.qty.toNat ≤ ((levels.filter fun l => inLimit b.minPrice c l.1).map fun l => l.2.toNat).sum ∨
      ((orders.filter fun o => inLimit b.minPrice c o.1).map fun o => o.2.2.toNat).sum <
      c.qty.toNat)

variable {b : OrderBook σ} {R : Rules} {A : PriorityBook} {c : Command}

theorem Refines.add_killed (h : Refines R b A) {sink sink' : Sink} {b' : OrderBook σ}
    (hrun : b.add c sink = some (b', sink')) {limit : Int}
    (hlimit : R.limitOf c.side c = some limit) (hfok : c.tif = .fok)
    (hkill : PriorityBook.fillableAgg c.side limit c.owner (effectiveStp c.flags R.cfg.stp)
      (A (opposite c.side)) c.qty = false) :
    b' = b := by
  have hadd : b.add c sink = b.addSide c.side c sink := by
    rw [OrderBook.add]
    cases c.side <;> rfl
  obtain ⟨h0, hn⟩ := h.limit_range hlimit
  have hkilled : b.killed c.side c limit (effectiveStp c.flags b.stp) = some true := by
    rw [h.follows.stp, h.killed c.side c hn, hfok, hkill]
    rfl
  rw [hadd, addSide] at hrun
  simp only [h.follows.limitOf, hlimit, hkilled] at hrun
  by_cases hid0 : c.orderId = 0
  · rw [if_pos hid0] at hrun
    cases hrun
    rfl
  by_cases hq0 : c.qty = 0
  · rw [if_neg hid0, if_pos hq0] at hrun
    cases hrun
    rfl
  rw [if_neg hid0, if_neg hq0] at hrun
  obtain ⟨s, _, hrun⟩ := Option.bind_eq_some_iff.mp hrun
  split at hrun
  · cases hrun
    rfl
  split at hrun
  · cases hrun
    rfl
  · cases hrun
    rfl

theorem limitOf_inLimit (hsmall : R.cfg.numLevels ≤ 2 ^ 30) {limit : Int}
    (hlimit : R.limitOf c.side c = some limit) {i : Nat} (hi : i < R.cfg.numLevels) :
    inLimit R.cfg.minPrice c (R.priceOf i) = inRange c.side limit i := by
  have hlevel := PriorityBook.Rules.rel_priceOf hsmall hi
  cases hot : c.ordType with
  | market =>
      simp only [PriorityBook.Rules.limitOf, hot, Option.some.injEq] at hlimit
      rw [← hlimit]
      cases hside : c.side with
      | buy =>
          simp [inLimit, hot, inRange]
          omega
      | sell => simp [inLimit, hot, inRange]
  | limit =>
      simp only [PriorityBook.Rules.limitOf, hot] at hlimit
      obtain ⟨ix, hrel, rfl⟩ := Option.map_eq_some_iff.mp hlimit
      have hprice := PriorityBook.Rules.rel_priceOf hsmall (PriorityBook.Rules.relOf_lt hrel)
      rw [PriorityBook.Rules.priceOf_relOf hrel] at hprice
      cases hside : c.side with
      | buy => simp [inLimit, hot, hside, inRange, hlevel, hprice]
      | sell => simp [inLimit, hot, hside, inRange, hlevel, hprice]

theorem Refines.totalsAgree_iff (h : Refines R b A)
    (hsmall : R.cfg.numLevels ≤ 2 ^ 30) {limit : Int} (hlimit : R.limitOf c.side c = some limit) :
    TotalsAgree b c ↔
      (c.qty.toNat ≤ PriorityBook.reach c.side limit (totals (A (opposite c.side))) ∨
        PriorityBook.reach c.side limit
          (PriorityBook.singles (A (opposite c.side))) < c.qty.toNat) := by
  have hlevel : ∀ i ∈ (A (opposite c.side)).map Resting.level, i < R.cfg.numLevels := by
    intro i hi
    obtain ⟨e, he, rfl⟩ := List.mem_map.mp hi
    exact h.ok.level_lt _ e he
  have htotals : ∀ p ∈ totals (A (opposite c.side)),
      inLimit b.minPrice c (R.priceOf p.1) = inRange c.side limit p.1 := by
    intro p hp
    rw [h.follows.minPrice]
    exact limitOf_inLimit hsmall hlimit
      (hlevel _ ((PriorityBook.totals_sublist _).subset (List.mem_map_of_mem hp)))
  have horders : ∀ e ∈ A (opposite c.side),
      inLimit b.minPrice c (R.priceOf e.level) = inRange c.side limit e.level := by
    intro e he
    rw [h.follows.minPrice]
    exact limitOf_inLimit hsmall hlimit (hlevel _ (List.mem_map_of_mem he))
  have hlevels : (((totals (A (opposite c.side))).map fun p => (R.priceOf p.1, p.2)).filter fun l =>
      inLimit b.minPrice c l.1).map (fun l => l.2.toNat) =
      ((totals (A (opposite c.side))).filter fun p => inRange c.side limit p.1).map fun p =>
        p.2.toNat := by
    rw [List.filter_map, List.map_map, ← List.filter_congr htotals]
    rfl
  have hlisted :
      (((A (opposite c.side)).map fun e => (R.priceOf e.level, e.id, e.qty)).filter fun o =>
      inLimit b.minPrice c o.1).map (fun o => o.2.2.toNat) =
      ((PriorityBook.singles (A (opposite c.side))).filter fun p => inRange c.side limit p.1).map
        fun p => p.2.toNat := by
    rw [PriorityBook.singles, List.filter_map, List.map_map, List.filter_map, List.map_map]
    exact congrArg _ (List.filter_congr horders)
  rw [TotalsAgree, h.forEachLevel, h.forEachOrder]
  constructor
  · rintro ⟨_, _, hl, ho, hsum⟩
    cases hl
    cases ho
    rw [hlevels, hlisted] at hsum
    exact hsum
  · intro hsum
    refine ⟨_, _, rfl, rfl, ?_⟩
    rw [hlevels, hlisted]
    exact hsum

theorem Refines.allOrNothing_iff (h : Refines R b A) (hty : c.type = .newOrder)
    (hacc : Accepts b { c with tif := .fok }) :
    ∃ limit, c.qty ≠ 0 ∧ R.limitOf c.side c = some limit ∧
      let stp := effectiveStp c.flags R.cfg.stp
      (AllOrNothing b c ↔ PriorityBook.fillableAgg c.side limit c.owner stp
        (A (opposite c.side)) c.qty =
        PriorityBook.fillableSeq c.side limit c.owner stp (A (opposite c.side)) c.qty) := by
  obtain ⟨b₁, out₁, hrun₁, href₁, hsends₁⟩ := h.process { c with tif := .fok } {}
  obtain ⟨b₂, out₂, hrun₂, href₂, hsends₂⟩ := h.process { c with tif := .ioc } {}
  have hev₁ : out₁.events = _ := hsends₁.events
  have hev₂ : out₂.events = _ := hsends₂.events
  obtain ⟨_, _, hrun, hhead⟩ := hacc
  rw [hrun₁] at hrun
  cases hrun
  rw [hev₁] at hhead
  obtain ⟨limit, hq, hfresh, hlimit, hioc, hfok⟩ :=
    PriorityBook.process_fok hty PriorityBook.fillableAgg hhead
  refine ⟨limit, hq, hlimit, ?_⟩
  intro stp
  rw [hioc] at hev₂
  rw [hfok] at hev₁
  have hseq := PriorityBook.fillableSeq_iff R c.side limit c.orderId c.owner stp
    (A (opposite c.side)) hq
  have hsound := PriorityBook.fillableAgg_sound h.ok c.side limit c.owner stp hq
  have hexpires :=
    PriorityBook.enter_expires (R := R)
      (hfresh (opposite c.side)) c.owner c.qty stp c.eventPrice limit
  have hfilled :=
    PriorityBook.enter_filled (R := R)
      (hfresh (opposite c.side)) c.owner c.qty stp c.eventPrice limit
  have hsame : PriorityBook.fillableAgg c.side limit c.owner stp
      (A (opposite c.side)) c.qty = false → b₁ = b :=
    h.add_killed (c := { c with tif := .fok }) (by rw [← hrun₁, OrderBook.process, hty]) hlimit rfl
  change out₁.events = _ at hev₁
  change out₂.events = acceptedEvent R.symbol c.orderId c.side c.eventPrice c.qty ::
    (PriorityBook.enter R A c.side c.orderId c.owner limit c.qty stp c.eventPrice false).2 at hev₂
  have hexpires₂ : (∃ ev ∈ out₂.events, ev.type = .canceled ∧ ev.orderId = c.orderId) ↔
      ¬ PriorityBook.fillableSeq c.side limit c.owner stp (A (opposite c.side)) c.qty = true := by
    rw [hseq, ← ne_eq, ← hexpires, hev₂]
    simp [acceptedEvent]
  by_cases hagg : PriorityBook.fillableAgg c.side limit c.owner stp
    (A (opposite c.side)) c.qty = true
  · have hyes := hsound hagg
    rw [show PriorityBook.fillableAgg c.side limit c.owner (effectiveStp c.flags R.cfg.stp)
      (A (opposite c.side)) c.qty =
      true from hagg, if_pos rfl] at hev₁
    have hevents : out₁.events = out₂.events := hev₁.trans hev₂.symm
    obtain ⟨hnone, htally⟩ := hfilled (hseq.mp hyes)
    have hnot : ∀ ev ∈ out₁.events, ev.type = .canceled → ev.orderId ≠ c.orderId := by
      intro ev hev ht hx
      exact hexpires₂.mp ⟨ev, by rw [← hevents]; exact hev, ht, hx⟩ hyes
    have hkilled : ¬ Killed b c b₁ out₁.events := by
      rintro ⟨_, hx⟩
      exact hnot (canceledEvent b.symbol c.orderId c.side c.eventPrice c.qty .fokUnfilled)
        (by rw [hx]; simp) rfl rfl
    rw [hagg, hyes]
    refine iff_of_true ⟨b₁, out₁, b₂, out₂, hrun₁, hrun₂,
      iff_of_false hkilled (fun hx => hexpires₂.mp hx hyes), fun _ => ⟨hevents, ?_, hnot⟩⟩ rfl
    rw [hevents, hev₂]
    exact htally
  · rw [Bool.not_eq_true] at hagg
    rw [show PriorityBook.fillableAgg c.side limit c.owner (effectiveStp c.flags R.cfg.stp)
      (A (opposite c.side)) c.qty =
      false from hagg, if_neg Bool.false_ne_true] at hev₁
    have hkilled : Killed b c b₁ out₁.events := by
      refine ⟨hsame hagg, ?_⟩
      rw [hev₁, h.follows.symbol]
      rfl
    rw [hagg]
    constructor
    · rintro ⟨_, _, _, _, h1, h2, hiff, _⟩
      rw [hrun₁] at h1
      rw [hrun₂] at h2
      cases h1
      cases h2
      exact (Bool.eq_false_iff.mpr (hexpires₂.mp (hiff.mp hkilled))).symm
    · intro hno
      refine ⟨b₁, out₁, b₂, out₂, hrun₁, hrun₂, iff_of_true hkilled (hexpires₂.mpr ?_),
        fun hx => absurd hkilled hx⟩
      rw [← hno]
      exact Bool.false_ne_true

/-- In every state a book reaches: an accepted order is treated as all or nothing exactly if
self-trade prevention is on for it, or the level totals within its limit do not mislead the check by
wrapping around. -/
theorem fok_exact (hash : IndexHash) (symbol : SymbolId) {cfg : BookConfig} (ok : cfg.Accepted)
    (cs : List Command) (b : OrderBook σ) (outs : List Sink)
    (hrun : (make hash symbol cfg : OrderBook σ).run cs = some (b, outs)) (c : Command)
    (hty : c.type = .newOrder) (hacc : Accepts b { c with tif := .fok }) :
    AllOrNothing b c ↔ effectiveStp c.flags cfg.stp ≠ .none ∨ TotalsAgree b c := by
  obtain ⟨b', outs', hrun', href, _⟩ := (refines_make (σ := σ) hash symbol ok).run cs
  rw [hrun] at hrun'
  cases hrun'
  obtain ⟨limit, hq, hlimit, hiff⟩ := href.allOrNothing_iff hty hacc
  refine hiff.trans ?_
  rw [PriorityBook.fillableAgg_eq_iff href.ok c.side limit c.owner _ hq,
    href.totalsAgree_iff ok.levels_le hlimit]

/-! ### Totals that wrap around -/

/-- Two resting sells of this quantity. -/
def twoSells (qty : Qty) : List Command :=
  [{ type := .newOrder, orderId := 1, side := .sell, price := 110, qty := qty },
    { type := .newOrder, orderId := 2, side := .sell, price := 110, qty := qty }]

def oneBuy : Command := { type := .newOrder, orderId := 3, side := .buy, price := 110, qty := 1 }

/-- What the two orders lead to in the book that the commands built. -/
def outcomes (cs : List Command) (c : Command) :
    Option (List Event × List Event × List (Price × Qty)) := do
  let (b, _) ← (make scatterHash 1 smallBook : OrderBook AosStore).run cs
  let (_, out₁) ← b.process { c with tif := .fok } {}
  let (_, out₂) ← b.process { c with tif := .ioc } {}
  let levels ← b.forEachLevel .sell
  return (out₁.events, out₂.events, levels)

theorem outcomes_some {cs : List Command} {c : Command} {evs₁ evs₂ : List Event}
    {levels : List (Price × Qty)} (h : outcomes cs c = some (evs₁, evs₂, levels)) :
    ∃ b outs b₁ out₁ b₂ out₂, (make scatterHash 1 smallBook : OrderBook AosStore).run cs =
    some (b, outs) ∧
      b.process { c with tif := .fok } {} = some (b₁, out₁) ∧ out₁.events = evs₁ ∧
      b.process { c with tif := .ioc } {} = some (b₂, out₂) ∧ out₂.events = evs₂ ∧
      b.forEachLevel .sell = some levels := by
  rw [outcomes] at h
  obtain ⟨⟨b, outs⟩, hrun, h⟩ := Option.bind_eq_some_iff.mp h
  obtain ⟨⟨b₁, out₁⟩, hfok, h⟩ := Option.bind_eq_some_iff.mp h
  obtain ⟨⟨b₂, out₂⟩, hioc, h⟩ := Option.bind_eq_some_iff.mp h
  obtain ⟨ls, hlevels, h⟩ := Option.bind_eq_some_iff.mp h
  cases h
  exact ⟨b, outs, b₁, out₁, b₂, out₂, hrun, hfok, rfl, hioc, rfl, hlevels⟩

theorem fok_exact_small :
    ∃ b outs, (make scatterHash 1 smallBook : OrderBook AosStore).run
      (twoSells 4) = some (b, outs) ∧
      Accepts b { oneBuy with tif := .fok } ∧ AllOrNothing b oneBuy := by
  have hevents : outcomes (twoSells 4) oneBuy =
      some ([acceptedEvent 1 3 .buy 110 1, tradeEvent 1 3 1 .buy 110 1 3],
        [acceptedEvent 1 3 .buy 110 1, tradeEvent 1 3 1 .buy 110 1 3], [(110, 8)]) := by
    decide +kernel
  obtain ⟨b, outs, b₁, out₁, b₂, out₂, hrun, hfok, hev, _, _, hlevels⟩ := outcomes_some hevents
  have hacc : Accepts b { oneBuy with tif := .fok } := ⟨b₁, out₁, hfok, by rw [hev]; rfl⟩
  refine ⟨b, outs, hrun, hacc, ?_⟩
  obtain ⟨b', outs', hrun', href, _⟩ :=
    (refines_make (σ := AosStore) scatterHash 1 (by decide : smallBook.Accepted)).run (twoSells 4)
  rw [hrun] at hrun'
  cases hrun'
  refine (fok_exact scatterHash 1 (by decide) (twoSells 4) b outs hrun oneBuy rfl hacc).mpr
    (.inr ?_)
  refine ⟨_, _, hlevels, href.forEachOrder .sell, .inl ?_⟩
  rw [href.follows.minPrice]
  decide

/-- Two sells whose total is 2^64: a buy of 1 is killed, though it would be filled. -/
theorem fok_killed_by_wrap :
    ∃ b outs, (make scatterHash 1 smallBook : OrderBook AosStore).run
      (twoSells (2 ^ 63)) = some (b, outs) ∧
      Accepts b { oneBuy with tif := .fok } ∧ ¬ AllOrNothing b oneBuy := by
  have hevents : outcomes (twoSells (2 ^ 63)) oneBuy =
      some ([acceptedEvent 1 3 .buy 110 1, canceledEvent 1 3 .buy 110 1 .fokUnfilled],
        [acceptedEvent 1 3 .buy 110 1, tradeEvent 1 3 1 .buy 110 1 (2 ^ 63 - 1)], [(110, 0)]) := by
    decide +kernel
  obtain ⟨b, outs, b₁, out₁, b₂, out₂, hrun, hfok, hev₁, hioc, hev₂, _⟩ := outcomes_some hevents
  refine ⟨b, outs, hrun, ⟨b₁, out₁, hfok, by rw [hev₁]; rfl⟩, ?_⟩
  rintro ⟨_, _, _, _, h1, h2, hiff, hrest⟩
  rw [hfok] at h1
  rw [hioc] at h2
  cases h1
  cases h2
  by_cases hkilled : Killed b oneBuy b₁ out₁.events
  · obtain ⟨ev, hev, ht, _⟩ := hiff.mp hkilled
    rw [hev₂] at hev
    rcases List.mem_cons.mp hev with rfl | hev
    · cases ht
    · rw [List.mem_singleton.mp hev] at ht
      cases ht
  · have hsame := (hrest hkilled).1
    rw [hev₁, hev₂] at hsame
    exact absurd hsame (by decide)

end OrderBook
end ExchangeSim.Book
