/- digest: Price-time priority over whole runs: who is listed first, who is hit first and at what
   price. -/

import ExchangeSim.Book.Audit

set_option autoImplicit false
set_option relaxedAutoImplicit false

namespace ExchangeSim.Book

open PriorityBook (Rules Outcome ahead lookup eraseId join Distinct inRange)

/-- What `for_each_order` visits on each side: price, id and quantity. -/
abbrev Listing := Side → List (Price × OrderId × Qty)

structure Step where
  before : Listing
  command : Command
  events : List Event
  after : Listing

namespace Step

/-- The command queued its order: a new order was accepted, or a modification changed the
price or increased the quantity. -/
def queues (s : Step) : Bool :=
  match s.command.type, s.events.head?.map Event.type with
  | .newOrder, some .accepted => true
  | .modify, some .modified =>
      match (s.before .buy ++ s.before .sell).find? (·.2.1 = s.command.orderId) with
      | some (price, _, qty) => decide (price ≠ s.command.price ∨ qty < s.command.qty)
      | none => false
  | _, _ => false

/-- The side of the order the command is about. -/
def side (s : Step) : Side := (s.events.head?.map Event.side).getD s.command.side

/-- A price within the limit of the order; a new market order has no limit. -/
def reaches (s : Step) (p : Price) : Bool :=
  if s.command.type = .newOrder ∧ s.command.ordType = .market then true
  else match s.side with
    | .buy => p ≤ s.command.price
    | .sell => s.command.price ≤ p

/-- The resting order an event hits: the maker of a trade, or the target of a cancel or
decrement by self-trade prevention other than the incoming order itself. -/
def target (taker : OrderId) (e : Event) : Option OrderId :=
  match e.type with
  | .trade => some e.makerId
  | .canceled => if e.reason = .selfTrade ∧ e.orderId ≠ taker then some e.orderId else none
  | .modified => if e.reason = .selfTrade ∧ e.orderId ≠ taker then some e.orderId else none
  | .accepted => none
  | .rejected => none

/-- The resting orders hit by the command, in event order. -/
def hits (s : Step) : List OrderId := s.events.filterMap (target s.command.orderId)

structure Prioritised (s : Step) : Prop where
  initial : s.hits <+: ((s.before (opposite s.side)).filter fun o => s.reaches o.1).map fun o =>
    o.2.1
  removed : ∀ id ∈ s.hits.dropLast, ∀ U, ∀ o ∈ s.after U, o.2.1 ≠ id
  priced : ∀ e ∈ s.events, e.type = .trade →
    s.reaches e.price = true ∧ ∃ q, (e.price, e.makerId, q) ∈ s.before (opposite s.side)

/-- For each id the index of the last command that queued it, from command `k` on. -/
def stamps (k : Nat) (stamp : OrderId → Nat) : List Step → OrderId → Nat
  | [] => stamp
  | s :: ss =>
      stamps (k + 1) (if s.queues then Function.update stamp s.command.orderId k else stamp) ss

end Step

/-- Best price first. -/
def Better (S : Side) (p p' : Price) : Prop :=
  match S with
  | .buy => p' < p
  | .sell => p < p'

namespace OrderBook

variable {σ : Type} [StoreLayout σ]

def listing (b : OrderBook σ) : Option Listing := do
  let bids ← b.forEachOrder .buy
  let asks ← b.forEachOrder .sell
  return fun
    | .buy => bids
    | .sell => asks

/-- A run that keeps what is seen of the book around each command. -/
def trace (b : OrderBook σ) : List Command → Option (OrderBook σ × List Step)
  | [] => some (b, [])
  | c :: cs => do
      let before ← b.listing
      let (b', out) ← b.process c {}
      let after ← b'.listing
      let (b'', steps) ← b'.trace cs
      return (b'', ⟨before, c, out.events, after⟩ :: steps)

end OrderBook

namespace PriorityBook

variable {R : Rules} {A : PriorityBook}

/-! ### Time priority -/

/-- The level `a` has a better price than `b`. -/
def above (S : Side) (a b : Nat) : Prop := ahead S b a = false

structure Stamped (A : PriorityBook) (stamp : OrderId → Nat) (k : Nat) : Prop where
  sorted : ∀ S, (A S).Pairwise fun x y => above S x.level y.level ∨ x.level = y.level ∧
    stamp x.id < stamp y.id
  past : ∀ S, ∀ e ∈ A S, stamp e.id < k

theorem above_of_not_ahead {S : Side} {a b c : Nat} (h : ¬ ahead S a b = true)
    (h' : above S a c ∨ a = c) : above S b c := by
  cases S <;> simp [above, ahead] at h h' ⊢ <;> omega

theorem pairwise_join {S : Side} {stamp : OrderId → Nat} {e : Resting} {l : List Resting}
    (hl : l.Pairwise fun x y => above S x.level y.level ∨ x.level = y.level ∧
      stamp x.id < stamp y.id)
    (hnew : ∀ x ∈ l, stamp x.id < stamp e.id) :
    (join S e l).Pairwise fun x y => above S x.level y.level ∨ x.level = y.level ∧
    stamp x.id < stamp y.id := by
  induction l with
  | nil => exact List.pairwise_singleton ..
  | cons x xs ih =>
      obtain ⟨hx, hxs⟩ := List.pairwise_cons.mp hl
      rw [join]
      split
      · rename_i hahead
        refine List.pairwise_cons.mpr ⟨fun y hy => ?_, ih hxs fun y hy => hnew y (by simp [hy])⟩
        rcases mem_join.mp hy with rfl | hy
        · have := hnew x (by simp)
          by_cases hlev : x.level = y.level
          · exact .inr ⟨hlev, this⟩
          · left
            cases S <;> simp [above, ahead] at hahead ⊢ <;> omega
        · exact hx y hy
      · rename_i hnot
        refine List.pairwise_cons.mpr ⟨fun y hy => .inl ?_, hl⟩
        rcases List.mem_cons.mp hy with rfl | hy
        · exact above_of_not_ahead hnot (.inr rfl)
        · exact above_of_not_ahead hnot ((hx y hy).imp_right And.left)

theorem Stamped.shrunk {B : PriorityBook} {stamp : OrderId → Nat} {k : Nat} (h : Stamped A stamp k)
    (hs : Shrunk A B) :
    Stamped B stamp k := by
  refine ⟨fun S => ?_, fun S e he => ?_⟩
  · have hkeys : ((A S).map key).Pairwise fun x y => above S x.1 y.1 ∨ x.1 = y.1 ∧
        stamp x.2 < stamp y.2 :=
      List.pairwise_map.mpr (h.sorted S)
    exact List.pairwise_map.mp (hkeys.sublist (hs S).1)
  · obtain ⟨e', he', heq, _⟩ := (hs S).2 e he
    have := h.past S e' he'
    rw [heq] at this
    exact this

theorem Stamped.mono {stamp : OrderId → Nat} {k : Nat} (h : Stamped A stamp k) :
    Stamped A stamp (k + 1) :=
  ⟨h.sorted, fun S e he => Nat.lt_succ_of_lt (h.past S e he)⟩

theorem Stamped.update {stamp : OrderId → Nat} {k : Nat} (h : Stamped A stamp k) {id : OrderId}
    (hid : ∀ U, ∀ e ∈ A U, e.id ≠ id) (n : Nat) : Stamped A (Function.update stamp id n) k := by
  have hsame : ∀ U, ∀ e ∈ A U, Function.update stamp id n e.id = stamp e.id :=
    fun U e he => Function.update_of_ne (hid U e he) _ _
  refine ⟨fun S => ?_, fun S e he => ?_⟩
  · refine (h.sorted S).imp_of_mem fun {x y} hx hy hxy => ?_
    rw [hsame S x hx, hsame S y hy]
    exact hxy
  · rw [hsame S e he]
    exact h.past S e he

theorem Stamped.process (hsmall : R.cfg.numLevels ≤ 2 ^ 30) (ok : Ok R A)
    {stamp : OrderId → Nat} {k : Nat} (h : Stamped A stamp k) (fok : FokCheck) (c : Command) :
    let r := process R fok A c
    Stamped r.1 (if queues R A c r.2 then Function.update stamp c.orderId k else stamp)
        (k + 1) := by
  intro r
  rcases process_shape hsmall ok fok c with ⟨hq, hs⟩ | ⟨hq, B, hs, hid, hbook⟩
  · rw [show queues R A c r.2 = false from hq]
    exact (h.shrunk hs).mono
  · rw [show queues R A c r.2 = true from hq, if_pos rfl]
    have hB := (h.shrunk hs).update hid k
    rcases hbook with heq | ⟨S, e, heid, _, _, heq⟩
    · rw [show r.1 = B from heq]
      exact hB.mono
    · rw [show r.1 = _ from heq]
      have hold : ∀ U, ∀ x ∈ B U, Function.update stamp c.orderId k x.id < k := hB.past
      have hown : Function.update stamp c.orderId k e.id = k := by rw [heid, Function.update_self]
      refine ⟨fun U => ?_, fun U x hx => ?_⟩
      · by_cases hU : U = S
        · subst hU
          rw [Function.update_self]
          exact pairwise_join (hB.sorted U) fun x hx => by rw [hown]; exact hold U x hx
        · rw [Function.update_of_ne hU]
          exact hB.sorted U
      · by_cases hU : U = S
        · subst hU
          rw [Function.update_self] at hx
          rcases mem_join.mp hx with rfl | hx
          · omega
          · exact Nat.lt_succ_of_lt (hold U x hx)
        · rw [Function.update_of_ne hU] at hx
          exact Nat.lt_succ_of_lt (hold U x hx)

/-! ### Price priority -/

/-- The events take the list `l` from its front and leave `l'`: the orders they hit are an
initial segment within the limit, of which only the last may be left, reduced. -/
def Takes (R : Rules) (S : Side) (limit : Int) (taker : OrderId) (l l' : List Resting)
    (evs : List Event) : Prop :=
  ∃ hit rest, l = hit ++ rest ∧ evs.filterMap (Step.target taker) = hit.map Resting.id ∧
    (∀ e ∈ hit, inRange S limit e.level = true) ∧
    (l' = rest ∨ ∃ hit' e q, hit = hit' ++ [e] ∧ l' = { e with qty := q } :: rest) ∧
    ∀ ev ∈ evs, ev.type = .trade → ∃ e ∈ hit, ev.price = R.priceOf e.level ∧ ev.makerId = e.id

/-- Events that hit no resting order. -/
def Quiet (taker : OrderId) (evs : List Event) : Prop := ∀ ev ∈ evs, ev.type ≠ .trade ∧
    Step.target taker ev = none

variable {S : Side} {limit : Int} {taker : OrderId}

theorem Quiet.targets {evs : List Event} (h : Quiet taker evs) :
    evs.filterMap (Step.target taker) = [] :=
  List.filterMap_eq_nil_iff.mpr fun ev hev => (h ev hev).2

theorem takes_nothing (l : List Resting) : Takes R S limit taker l l [] :=
  ⟨[], l, rfl, rfl, by simp, .inl rfl, by simp⟩

theorem Takes.cons {e : Resting} {es l' : List Resting} {evs evs' : List Event}
    (h : Takes R S limit taker es l' evs') (hin : inRange S limit e.level = true)
    (htarget : evs.filterMap (Step.target taker) = [e.id])
    (htrade : ∀ ev ∈ evs, ev.type = .trade → ev.price = R.priceOf e.level ∧ ev.makerId = e.id) :
    Takes R S limit taker (e :: es) l' (evs ++ evs') := by
  obtain ⟨hit, rest, rfl, hhits, hrange, hleft, hprices⟩ := h
  refine ⟨e :: hit, rest, rfl, ?_, ?_, ?_, ?_⟩
  · rw [List.filterMap_append, htarget, hhits]
    rfl
  · intro x hx
    rcases List.mem_cons.mp hx with rfl | hx
    · exact hin
    · exact hrange x hx
  · rcases hleft with hleft | ⟨hit', x, q, rfl, hleft⟩
    · exact .inl hleft
    · exact .inr ⟨e :: hit', x, q, rfl, hleft⟩
  · intro ev hev ht
    rcases List.mem_append.mp hev with hev | hev
    · exact ⟨e, by simp, htrade ev hev ht⟩
    · obtain ⟨x, hx, hx'⟩ := hprices ev hev ht
      exact ⟨x, by simp [hx], hx'⟩

theorem takes_part {e : Resting} {es : List Resting} {q : Qty} {ev : Event}
    (hin : inRange S limit e.level = true) (htarget : Step.target taker ev = some e.id)
    (htrade : ev.type = .trade → ev.price = R.priceOf e.level ∧ ev.makerId = e.id) :
    Takes R S limit taker (e :: es) ({ e with qty := q } :: es) [ev] := by
  refine ⟨[e], es, rfl, by simp [htarget], by simpa using hin, .inr ⟨[], e, q, rfl, rfl⟩, ?_⟩
  intro ev' hev' ht
  rw [List.mem_singleton.mp hev'] at ht ⊢
  exact ⟨e, by simp, htrade ht⟩

theorem Takes.quiet {l l' : List Resting} {evs pre post : List Event}
    (h : Takes R S limit taker l l' evs) (hpre : Quiet taker pre) (hpost : Quiet taker post) :
    Takes R S limit taker l l' (pre ++ evs ++ post) := by
  obtain ⟨hit, rest, hl, hhits, hrange, hleft, hprices⟩ := h
  refine ⟨hit, rest, hl, ?_, hrange, hleft, ?_⟩
  · rw [List.filterMap_append, List.filterMap_append, hpre.targets, hpost.targets, hhits]
    simp
  · intro ev hev ht
    rcases List.mem_append.mp hev with hev | hev
    · rcases List.mem_append.mp hev with hev | hev
      · exact absurd ht (hpre ev hev).1
      · exact hprices ev hev ht
    · exact absurd ht (hpost ev hev).1

theorem sweep_takes (limit : Int) (owner : OwnerId) (stp : Stp) {l : List Resting}
    (hid : ∀ e ∈ l, e.id ≠ taker) (q : Qty) :
    let o := sweep R S taker owner limit stp l q
    Takes R S limit taker l o.makers o.events := by
  induction l generalizing q with
  | nil => exact takes_nothing []
  | cons e es ih =>
      intro o
      have ih := fun q => ih (fun x hx => hid x (by simp [hx])) q
      have hne := hid e (by simp)
      rcases sweep_cases R S taker owner limit stp e es q with ⟨ho, _⟩ | ⟨_, hin, hcase⟩
      · rw [show o = _ from ho]
        exact takes_nothing _
      rcases hcase with ⟨ho, _⟩ | ⟨ho, _⟩ | ⟨ho, _⟩ | ⟨ho, _⟩ | ⟨ho, _⟩ | ⟨ho, _⟩ | ⟨ho, _⟩
      all_goals rw [show o = _ from ho]
      · exact takes_nothing _
      · exact takes_part hin (by simp [Step.target, stpDecrementEvent, modifiedEvent, hne])
          (by simp [stpDecrementEvent, modifiedEvent])
      · rw [← List.append_nil [_]]
        exact (takes_nothing es).cons hin (by simp [Step.target, canceledEvent, hne])
          (by simp [canceledEvent])
      · exact (ih _).cons hin
          (by simp [Step.target, canceledEvent, stpDecrementEvent, modifiedEvent, hne])
          (by simp [canceledEvent, stpDecrementEvent, modifiedEvent])
      · exact (ih _).cons hin (by simp [Step.target, canceledEvent, hne]) (by simp [canceledEvent])
      · exact takes_part hin (by simp [Step.target, tradeEvent]) (by simp [tradeEvent])
      · exact (ih _).cons hin (by simp [Step.target, tradeEvent]) (by simp [tradeEvent])

theorem enter_takes {id : OrderId} (hid : ∀ U, ∀ e ∈ A U, e.id ≠ id) (S : Side) (owner : OwnerId)
    (limit : Int) (qty : Qty) (stp : Stp) (px : Price) (mayRest : Bool) :
    let r := enter R A S id owner limit qty stp px mayRest
    Takes R S limit id (A (opposite S)) (r.1 (opposite S)) r.2 := by
  intro r
  have ho := sweep_takes (R := R) (S := S) limit owner stp (hid (opposite S)) qty
  have hr : r = enter R A S id owner limit qty stp px mayRest := rfl
  simp only [enter] at hr
  simp only at ho
  generalize sweep R S id owner limit stp (A (opposite S)) qty = o at *
  have hopp : opposite S ≠ S := (ne_opposite S).symm
  have hquiet : Quiet id ([] : List Event) := by simp [Quiet]
  have hcancel : ∀ p n reason, Quiet id [canceledEvent R.symbol id S p n reason] := by
    intro p n reason
    simp [Quiet, Step.target, canceledEvent]
  have hown := fun p n reason => ho.quiet hquiet (hcancel p n reason)
  simp only [List.nil_append] at hown
  split at hr
  · rw [hr]
    simpa using ho
  split at hr
  · rw [hr]
    simpa using hown _ _ _
  split at hr
  · rw [hr]
    simpa using hown _ _ _
  simp only [rest] at hr
  split at hr
  · rw [hr]
    simpa using hown _ _ _
  · rw [hr]
    simpa [Function.update_of_ne hopp] using ho

/-- The limit level of an order that enters the book: that of its price, or for a new market
order the far end of the ladder. -/
def LimitOf (R : Rules) (S : Side) (c : Command) (limit : Int) : Prop :=
  (c.type = .newOrder ∧ c.ordType = .market ∧ limit = match S with
      | .buy => (R.cfg.numLevels : Int) - 1
      | .sell => 0) ∨
    (¬ (c.type = .newOrder ∧ c.ordType = .market) ∧ ∃ ix : Nat,
      R.relOf c.price = some ix ∧ limit = ix)

theorem process_takes (ok : Ok R A) (fok : FokCheck) (c : Command) :
    let r := process R fok A c
    Quiet c.orderId r.2 ∨ ∃ S limit, r.2.head?.map Event.side = some S ∧ LimitOf R S c limit ∧
      (∀ e ∈ A (opposite S), e.id ≠ c.orderId) ∧
      Takes R S limit c.orderId (A (opposite S)) (r.1 (opposite S)) r.2 := by
  have hrej : ∀ reason, Quiet c.orderId [rejectedEvent c reason] := by
    simp [Quiet, Step.target, rejectedEvent]
  simp only [process]
  cases hty : c.type with
  | newOrder =>
      simp only [add]
      split
      · exact .inl (hrej _)
      split
      · exact .inl (hrej _)
      split
      · exact .inl (hrej _)
      rename_i limit hlimit
      cases hlook : lookup A c.orderId with
      | some p =>
          simp only [Option.isSome_some, if_true]
          exact .inl (hrej _)
      | none =>
      simp only [Option.isSome_none, Bool.false_eq_true, if_false]
      have hnew := lookup_eq_none hlook
      split
      · exact .inl (hrej _)
      split
      · left
        simp [Quiet, Step.target, acceptedEvent, canceledEvent]
      · refine .inr ⟨c.side, limit, rfl, ?_, hnew _, ?_⟩
        · cases hot : c.ordType with
          | market =>
              simp only [Rules.limitOf, hot, Option.some.injEq] at hlimit
              exact .inl ⟨hty, hot, hlimit.symm⟩
          | limit =>
              simp only [Rules.limitOf, hot] at hlimit
              obtain ⟨ix, hix, heq⟩ := Option.map_eq_some_iff.mp hlimit
              exact .inr ⟨by simp [hot], ix, hix, heq.symm⟩
        · have hpre : Quiet c.orderId [acceptedEvent R.symbol c.orderId c.side
              c.eventPrice c.qty] := by
            simp [Quiet, Step.target, acceptedEvent]
          have := (enter_takes (R := R) hnew c.side c.owner limit c.qty
            (effectiveStp c.flags R.cfg.stp) c.eventPrice
            (decide (c.ordType = .limit ∧ c.tif = .day))).quiet hpre (by
              simp [Quiet] : Quiet c.orderId [])
          simpa using this
  | cancel =>
      left
      simp only [cancel]
      split
      · exact hrej _
      · simp [Quiet, Step.target, canceledEvent]
  | modify =>
      simp only [modify]
      split
      · exact .inl (hrej _)
      cases hlook : lookup A c.orderId with
      | none => exact .inl (hrej _)
      | some p =>
      obtain ⟨S, e⟩ := p
      obtain ⟨he, hid⟩ := lookup_mem hlook
      simp only
      cases hrel : R.relOf c.price with
      | none => exact .inl (hrej _)
      | some ix =>
      have hpre : Quiet c.orderId [modifiedEvent R.symbol c.orderId S c.price c.qty] := by
        simp [Quiet, Step.target, modifiedEvent]
      have hfar : ∀ U, U ≠ S → ∀ x ∈ A U, x.id ≠ c.orderId :=
        fun U hU x hx heq => hU (ok.ids.unique hx he (heq.trans hid.symm)).1
      simp only
      split
      · exact .inl hpre
      · refine .inr ⟨S, ix, rfl, .inr ⟨by simp [hty], ix, hrel, rfl⟩,
          hfar _ (ne_opposite S).symm, ?_⟩
        have hnew : ∀ U, ∀ x ∈ Function.update A S (eraseId c.orderId (A S)) U,
            x.id ≠ c.orderId := by
          intro U x hx
          by_cases hU : U = S
          · subst hU
            rw [Function.update_self] at hx
            simpa using (List.mem_filter.mp hx).2
          · rw [Function.update_of_ne hU] at hx
            exact hfar U hU x hx
        have := (enter_takes (R := R) hnew S e.owner ix c.qty R.cfg.stp (R.priceOf ix) true).quiet
          hpre
          (by simp [Quiet] : Quiet c.orderId [])
        rw [Function.update_of_ne (ne_opposite S).symm] at this
        simpa using this

/-! ### The prices of the levels -/

/-- The price of every resting order is within the price type. -/
def Priced (R : Rules) (A : PriorityBook) : Prop :=
  ∀ S, ∀ e ∈ A S, R.cfg.minPrice.toInt + e.level < 2 ^ 63

theorem Rules.priceOf_exact (hsmall : R.cfg.numLevels ≤ 2 ^ 30) {ix : Nat}
    (hix : ix < R.cfg.numLevels) (h : R.cfg.minPrice.toInt + ix < 2 ^ 63) :
    (R.priceOf ix).toInt = R.cfg.minPrice.toInt + ix := by
  have hlo := Int64.le_toInt R.cfg.minPrice
  rw [Rules.priceOf, Int64.toInt_add, Int64.toInt_ofInt]
  simp only [Int.bmod, Int64.size]
  omega

theorem Rules.better_of_above (hsmall : R.cfg.numLevels ≤ 2 ^ 30) {S : Side} {i j : Nat}
    (hi : i < R.cfg.numLevels) (hj : j < R.cfg.numLevels) (hpi : R.cfg.minPrice.toInt + i < 2 ^ 63)
    (hpj : R.cfg.minPrice.toInt + j < 2 ^ 63) (h : above S i j) :
    Better S (R.priceOf i) (R.priceOf j) := by
  have h1 := Rules.priceOf_exact hsmall hi hpi
  have h2 := Rules.priceOf_exact hsmall hj hpj
  cases S <;> simp [above, ahead, Better, Int64.lt_iff_toInt_lt] at h ⊢ <;> omega

end PriorityBook

/-- The subtraction of the lowest price does not overflow: signed overflow is undefined. -/
def PriceDefined (cfg : BookConfig) (c : Command) : Prop :=
  -2 ^ 63 ≤ c.price.toInt - cfg.minPrice.toInt ∧ c.price.toInt - cfg.minPrice.toInt < 2 ^ 63

namespace PriorityBook

variable {R : Rules} {A : PriorityBook}

theorem Rules.relOf_exact {c : Command} (h : R.cfg.BandFits ∨ PriceDefined R.cfg c) {ix : Nat}
    (hrel : R.relOf c.price = some ix) : R.cfg.minPrice.toInt + ix < 2 ^ 63 := by
  have hlt := Rules.relOf_lt hrel
  rcases h with hband | hdef
  · rw [BookConfig.BandFits] at hband
    omega
  · obtain ⟨h1, h2⟩ := hdef
    have hhi := Int64.toInt_lt c.price
    have hsub : (c.price - R.cfg.minPrice).toInt = c.price.toInt - R.cfg.minPrice.toInt := by
      rw [Int64.toInt_sub]
      simp only [Int.bmod]
      omega
    simp only [Rules.relOf, hsub] at hrel
    split at hrel
    · cases hrel
    · simp only [Option.some.injEq] at hrel
      omega

theorem Priced.process (h : Priced R A) (hsmall : R.cfg.numLevels ≤ 2 ^ 30) (ok : Ok R A)
    (fok : FokCheck) {c : Command} (hc : R.cfg.BandFits ∨ PriceDefined R.cfg c) :
    Priced R (process R fok A c).1 := by
  intro S e he
  rcases process_mem hsmall ok fok c S e he with ⟨e', he', heq, _⟩ | ⟨_, _, hrel⟩
  · have := h S e' he'
    rw [heq] at this
    exact this
  · exact Rules.relOf_exact hc hrel

/-- The listing of an abstract book. -/
def listing (R : Rules) (A : PriorityBook) : Listing :=
  fun S => (A S).map fun e => (R.priceOf e.level, e.id, e.qty)

theorem listing_queues (R : Rules) (A : PriorityBook) (c : Command) (evs : List Event)
    (after : Listing) :
    Step.queues ⟨listing R A, c, evs, after⟩ = queues R A c evs := by
  have hfind : ((listing R A .buy ++ listing R A .sell).find? fun o => o.2.1 = c.orderId) =
      (lookup A c.orderId).map fun p => (R.priceOf p.2.level, p.2.id, p.2.qty) := by
    simp only [listing, ← List.map_append, List.find?_map, List.find?_append, lookup]
    simp only [Function.comp_def]
    cases (A .buy).find? fun e => e.id = c.orderId with
    | some e => rfl
    | none => cases (A .sell).find? fun e => e.id = c.orderId <;> rfl
  simp only [Step.queues, queues, hfind]
  cases lookup A c.orderId with
  | none => rfl
  | some p => rfl

theorem LimitOf.reaches (hsmall : R.cfg.numLevels ≤ 2 ^ 30) {S : Side} {c : Command} {limit : Int}
    (h : LimitOf R S c limit) (hc : R.cfg.BandFits ∨ PriceDefined R.cfg c) {evs : List Event}
    (hside : evs.head?.map Event.side = some S) (before after : Listing) {i : Nat}
    (hi : i < R.cfg.numLevels) (hp : R.cfg.minPrice.toInt + i < 2 ^ 63) :
    Step.reaches ⟨before, c, evs, after⟩ (R.priceOf i) = inRange S limit i := by
  have hs : Step.side ⟨before, c, evs, after⟩ = S := by simp [Step.side, hside]
  rw [Step.reaches, hs]
  rcases h with ⟨hty, hot, rfl⟩ | ⟨hnot, ix, hrel, rfl⟩
  · rw [if_pos ⟨hty, hot⟩]
    cases S with
    | buy =>
        simp [inRange]
        omega
    | sell => simp [inRange]
  · rw [if_neg hnot]
    have hprice := Rules.priceOf_exact hsmall hi hp
    have hlimit := Rules.priceOf_exact hsmall (Rules.relOf_lt hrel) (Rules.relOf_exact hc hrel)
    rw [Rules.priceOf_relOf hrel] at hlimit
    cases S <;> simp [inRange, Int64.le_iff_toInt_le] <;> omega

theorem process_prioritised (hsmall : R.cfg.numLevels ≤ 2 ^ 30) (ok : Ok R A) (hp : Priced R A)
    (fok : FokCheck) {c : Command} (hc : R.cfg.BandFits ∨ PriceDefined R.cfg c) :
    let r := process R fok A c
    Step.Prioritised ⟨listing R A, c, r.2, listing R r.1⟩ := by
  intro r
  rcases process_takes ok fok c with hquiet |
    ⟨S, limit, hside, hlimit, hfar, hit, rest, hA, hhits, hrange, hleft, htrade⟩
  · have hnone : Step.hits ⟨listing R A, c, r.2, listing R r.1⟩ = [] := hquiet.targets
    refine ⟨by rw [hnone]; exact List.nil_prefix, by rw [hnone]; simp, fun e he ht =>
      absurd ht (hquiet e he).1⟩
  have hhits : Step.hits ⟨listing R A, c, r.2, listing R r.1⟩ = hit.map Resting.id := hhits
  have hs : Step.side ⟨listing R A, c, r.2, listing R r.1⟩ = S := by
    change (r.2.head?.map Event.side).getD c.side = S
    rw [hside]
    rfl
  have hreach : ∀ e ∈ A (opposite S), Step.reaches ⟨listing R A, c, r.2, listing R r.1⟩
    (R.priceOf e.level) =
      inRange S limit e.level :=
    fun e he => hlimit.reaches hsmall hc hside _ _ (ok.level_lt _ e he) (hp _ e he)
  have hmem : ∀ e ∈ hit, e ∈ A (opposite S) := fun e he => by
    rw [hA]; exact List.mem_append_left _ he
  refine ⟨?_, ?_, ?_⟩
  · rw [hs, hhits]
    change _ <+: ((listing R A (opposite S)).filter _).map _
    have hfilter : hit.filter (fun e => inRange S limit e.level) = hit :=
      List.filter_eq_self.mpr hrange
    rw [listing, List.filter_map, List.map_map,
      List.filter_congr (q := fun e => inRange S limit e.level) hreach, hA,
      List.filter_append, hfilter, List.map_append]
    exact List.prefix_append ..
  · rw [hhits]
    intro id hid U o ho
    rw [← List.map_dropLast] at hid
    obtain ⟨e, he, rfl⟩ := List.mem_map.mp hid
    obtain ⟨x, hx, rfl⟩ := List.mem_map.mp ho
    have heA := hmem e (List.dropLast_subset _ he)
    have hnodup := ok.ids.nodup (opposite S)
    rw [hA, List.map_append] at hnodup
    change x.id ≠ e.id
    by_cases hU : U = opposite S
    · subst hU
      have hx : x ∈ r.1 (opposite S) := hx
      rcases hleft with hleft | ⟨hit', y, q, rfl, hleft⟩
      · rw [show r.1 (opposite S) = rest from hleft] at hx
        exact fun heq => (List.nodup_append.mp hnodup).2.2 _
          (List.mem_map_of_mem (List.dropLast_subset _ he)) _
          (List.mem_map_of_mem hx) heq.symm
      · rw [List.dropLast_concat] at he
        rw [show r.1 (opposite S) = _ from hleft] at hx
        rw [List.map_append, List.append_assoc] at hnodup
        have hout := (List.nodup_append.mp hnodup).2.2 _ (List.mem_map_of_mem he)
        rcases List.mem_cons.mp hx with rfl | hx
        · exact fun heq => hout y.id (by simp) heq.symm
        · exact fun heq => hout x.id (by simp [List.mem_map_of_mem hx]) heq.symm
    · rcases process_mem hsmall ok fok c U x hx with ⟨x', hx', heq, _⟩ | ⟨hown, _⟩
      · intro hxe
        have : x'.id = e.id := by rw [heq]; exact hxe
        exact hU (ok.ids.unique hx' heA this).1
      · rw [hown]
        exact (hfar e heA).symm
  · intro ev hev ht
    obtain ⟨e, he, hprice, hmaker⟩ := htrade ev hev ht
    refine ⟨?_, e.qty, ?_⟩
    · rw [hprice, hreach e (hmem e he)]
      exact hrange e he
    · rw [hs, hprice, hmaker]
      exact List.mem_map.mpr ⟨e, hmem e he, rfl⟩

theorem Stamped.listing_sorted (hsmall : R.cfg.numLevels ≤ 2 ^ 30) (ok : Ok R A) (hp : Priced R A)
    {stamp : OrderId → Nat} {k : Nat} (h : Stamped A stamp k) (S : Side) :
    (listing R A S).Pairwise fun x y => Better S x.1 y.1 ∨ x.1 = y.1 ∧
    stamp x.2.1 < stamp y.2.1 := by
  rw [listing, List.pairwise_map]
  refine (h.sorted S).imp_of_mem fun {x y} hx hy hxy => ?_
  rcases hxy with habove | ⟨hlev, hst⟩
  · exact .inl (Rules.better_of_above hsmall (ok.level_lt S x hx) (ok.level_lt S y hy) (hp S x hx)
      (hp S y hy) habove)
  · exact .inr ⟨by rw [hlev], hst⟩

end PriorityBook

namespace OrderBook

variable {σ : Type} [StoreLayout σ] {R : Rules}

theorem Refines.listing {b : OrderBook σ} {A : PriorityBook} (h : Refines R b A) :
    b.listing = some (PriorityBook.listing R A) := by
  simp only [OrderBook.listing, h.forEachOrder, Option.bind_eq_bind, Option.bind_some]
  refine congrArg some (funext fun S => ?_)
  cases S <;> rfl

theorem Refines.trace {b : OrderBook σ} {A : PriorityBook} {stamp : OrderId → Nat} {k : Nat}
    (hsmall : R.cfg.numLevels ≤ 2 ^ 30) (h : Refines R b A) (hst : PriorityBook.Stamped A stamp k)
    (hp : PriorityBook.Priced R A) {cs : List Command}
    (hc : ∀ c ∈ cs, R.cfg.BandFits ∨ PriceDefined R.cfg c) :
    ∃ b' steps A' k', b.trace cs = some (b', steps) ∧ steps.map Step.command = cs ∧
    Refines R b' A' ∧
      PriorityBook.Stamped A' (Step.stamps k stamp steps) k' ∧ PriorityBook.Priced R A' ∧
      ∀ s ∈ steps, s.Prioritised := by
  induction cs generalizing b A stamp k with
  | nil => exact ⟨b, [], A, k, rfl, rfl, h, hst, hp, by simp⟩
  | cons c cs ih =>
      have hc₀ := hc c (by simp)
      obtain ⟨b₁, out, hstep, href, hsends⟩ := h.process c {}
      have hevents : out.events = (PriorityBook.process R PriorityBook.fillableAgg A c).2 :=
        hsends.events
      have hst₁ := hst.process hsmall h.ok PriorityBook.fillableAgg c
      have hp₁ := hp.process hsmall h.ok PriorityBook.fillableAgg hc₀
      have hfair := PriorityBook.process_prioritised hsmall h.ok hp PriorityBook.fillableAgg hc₀
      simp only [← hevents] at hst₁ hfair
      obtain ⟨b', steps, A', k', htrace, hmap, href', hst', hp', hall⟩ :=
        ih href hst₁ hp₁ fun x hx => hc x (by simp [hx])
      refine ⟨b', ⟨PriorityBook.listing R A, c, out.events,
        PriorityBook.listing R (PriorityBook.process R PriorityBook.fillableAgg A c).1⟩ :: steps,
          A', k', ?_, ?_, href', ?_,
        hp', ?_⟩
      · simp only [OrderBook.trace, h.listing, hstep, href.listing, htrace, Option.bind_eq_bind,
          Option.bind_some]
        rfl
      · rw [List.map_cons, hmap]
      · rw [Step.stamps, PriorityBook.listing_queues]
        exact hst'
      · intro s hs
        rcases List.mem_cons.mp hs with rfl | hs
        · exact hfair
        · exact hall s hs

/-- Price-time priority over whole runs: each side is listed best price first and then by the
index of the command that last queued the order, and every command takes the opposite side from
the front, at the resting prices. -/
theorem price_time_priority (hash : IndexHash) (symbol : SymbolId) {cfg : BookConfig}
    (ok : cfg.Accepted) {cs : List Command}
    (defined : cfg.BandFits ∨ ∀ c ∈ cs, PriceDefined cfg c) :
    ∃ b steps orders, (make hash symbol cfg : OrderBook σ).trace cs = some (b, steps) ∧
    steps.map Step.command = cs ∧
      b.listing = some orders ∧
      (∀ S, (orders S).Pairwise fun x y => Better S x.1 y.1 ∨
        x.1 = y.1 ∧ Step.stamps 0 (fun _ => 0) steps x.2.1 < Step.stamps 0
          (fun _ => 0) steps y.2.1) ∧
      ∀ s ∈ steps, s.Prioritised := by
  have hempty : PriorityBook.Stamped PriorityBook.empty (fun _ => 0) 0 :=
    ⟨fun _ => List.Pairwise.nil, fun _ _ he => (nomatch he)⟩
  have hc : ∀ c ∈ cs, cfg.BandFits ∨ PriceDefined cfg c :=
    fun c hc => defined.imp_right fun h => h c hc
  obtain ⟨b, steps, A, k, htrace, hmap, href, hst, hp, hall⟩ :=
    (refines_make (σ := σ) hash symbol ok).trace ok.levels_le hempty (fun _ _ he => (nomatch he)) hc
  exact ⟨b, steps, _, htrace, hmap, href.listing, hst.listing_sorted ok.levels_le href.ok hp, hall⟩

theorem price_time_priority_small :
    (smallBook.Accepted ∧ smallBook.BandFits) ∧
      ∃ b steps orders, (make scatterHash 1 smallBook : OrderBook AosStore).trace smallRun =
      some (b, steps) ∧
        steps.map Step.command = smallRun ∧ b.listing = some orders ∧
        (∀ S, (orders S).Pairwise fun x y => Better S x.1 y.1 ∨
          x.1 = y.1 ∧ Step.stamps 0 (fun _ => 0) steps x.2.1 < Step.stamps 0
            (fun _ => 0) steps y.2.1) ∧
        ∀ s ∈ steps, s.Prioritised :=
  ⟨by decide, price_time_priority scatterHash 1 (by decide) (.inl (by decide))⟩

end OrderBook
end ExchangeSim.Book
