/- digest: Self-trade prevention over whole runs: no owner trades with itself, and each mode does
   what it says. -/

import ExchangeSim.Book.Taker

set_option autoImplicit false
set_option relaxedAutoImplicit false

namespace ExchangeSim.Book

open PriorityBook (Rules ahead inRange lookup eraseId setQty Distinct Ok Tally tally)

namespace PriorityBook

variable {R : Rules} {A : PriorityBook}

/-! ### The meetings of a sweep -/

section Meetings

variable {S : Side} {taker : OrderId} {owner : OwnerId} {limit : Int} {stp : Stp}

structure Decrements (R : Rules) (S : Side) (taker : OrderId) (t : Tally)
    (o : Outcome) (e : Resting) (pre : List Event) (ev : Event) (post : List Event) : Prop where
  whole : e.qty.toNat ≤ (pre.foldl (Tally.note taker) t).left →
    ev = canceledEvent R.symbol e.id (opposite S) (R.priceOf e.level) e.qty .selfTrade ∧
    ∀ x ∈ o.makers, x.id ≠ e.id
  part : ∀ r : Qty, r.toNat = (pre.foldl (Tally.note taker) t).left → r < e.qty →
    ev = stpDecrementEvent R.symbol e.id (opposite S) (R.priceOf e.level) (e.qty - r) ∧
      { e with qty := e.qty - r } ∈ o.makers
  ends : (post = [] ∧ o.stop = true ∧ o.qty.toNat = (pre.foldl (Tally.note taker) t).left) ↔
    (pre.foldl (Tally.note taker) t).left ≤ e.qty.toNat

theorem Decrements.behind {t : Tally} {o : Outcome} {e : Resting}
    {evs pre post : List Event} {ev : Event}
    (h : Decrements R S taker (evs.foldl (Tally.note taker) t) o e pre ev post) :
    Decrements R S taker t (o.behind evs) e (evs ++ pre) ev post := by
  refine ⟨?_, ?_, ?_⟩
  · rw [List.foldl_append]
    exact h.whole
  · rw [List.foldl_append]
    exact h.part
  · rw [List.foldl_append]
    exact h.ends

section Ends

variable {t : Tally} {q : Qty} {e : Resting} {es : List Resting}

end Ends

end Meetings

end PriorityBook

/-! ### What a step shows -/

namespace Step

/-- The level of the price is within the limit of the order; a new market order has none. -/
def within (cfg : BookConfig) (s : Step) (p : Price) : Bool :=
  if s.command.type = .newOrder ∧ s.command.ordType = .market then true
  else match s.side with
    | .buy => (p - cfg.minPrice).toInt ≤ (s.command.price - cfg.minPrice).toInt
    | .sell => (s.command.price - cfg.minPrice).toInt ≤ (p - cfg.minPrice).toInt

/-- Who entered each order, after this step: the owner of the new order that was accepted last under
its id. -/
def enteredBy (owners : OrderId → Option OwnerId) (s : Step) : OrderId → Option OwnerId :=
  if s.command.type = .newOrder ∧ s.events.head?.map Event.type = some .accepted then
    Function.update owners s.command.orderId (some s.command.owner)
  else owners

/-- The quantity of the orders of a part of a listing. -/
def volume (l : List (Price × OrderId × Qty)) : Nat := (l.map fun o => o.2.2.toNat).sum

end Step

namespace PriorityBook

variable {R : Rules} {A : PriorityBook}

/-- The owners of the resting orders are those that entered them. -/
def Owned (owners : OrderId → Option OwnerId) (A : PriorityBook) : Prop :=
  ∀ S, ∀ e ∈ A S, owners e.id = some e.owner

structure Entry where
  book : PriorityBook
  side : Side
  owner : OwnerId
  limit : Int
  stp : Stp
  price : Price
  mayRest : Bool
  first : Event

def Entry.result (R : Rules) (n : Entry) (c : Command) : PriorityBook × List Event :=
  let r := enter R n.book n.side c.orderId n.owner n.limit c.qty n.stp n.price n.mayRest
  (r.1, n.first :: r.2)

structure Enters (R : Rules) (A : PriorityBook) (c : Command) (n : Entry) : Prop where
  others : ∀ U, ∀ e ∈ n.book U, e ∈ A U ∧ e.id ≠ c.orderId
  kept : ∀ U, ∀ e ∈ A U, e.id ≠ c.orderId → e ∈ n.book U
  far : n.book (opposite n.side) = A (opposite n.side)
  limit : LimitOf R n.side c n.limit
  stp : n.stp = if c.type = .newOrder then effectiveStp c.flags R.cfg.stp else R.cfg.stp
  side : n.first.side = n.side
  quiet : n.first.type ≠ .trade ∧ Step.target c.orderId n.first = none
  note : ∀ t : Tally, t.note c.orderId n.first = t
  owner : (c.type = .newOrder ∧ n.first.type = .accepted ∧ n.owner = c.owner) ∨
    (c.type = .modify ∧ ∃ e ∈ A n.side, e.id = c.orderId ∧ e.owner = n.owner)
  opens : n.first.type ≠ .canceled

theorem mem_setQty {S U : Side} {id : OrderId} {x : Resting} (hx : x ∈ A U)
    (hid : x.id ≠ id) (q : Qty) :
    x ∈ Function.update A S (setQty id q (A S)) U := by
  by_cases hU : U = S
  · subst hU
    rw [Function.update_self]
    exact List.mem_map.mpr ⟨x, hx, if_neg hid⟩
  · rw [Function.update_of_ne hU]
    exact hx

theorem of_mem_setQty {S U : Side} {id : OrderId} {q : Qty} {x : Resting}
    (hx : x ∈ Function.update A S (setQty id q (A S)) U) : ∃ e ∈ A U, e.id = x.id ∧
    e.owner = x.owner := by
  by_cases hU : U = S
  · subst hU
    rw [Function.update_self] at hx
    obtain ⟨e, he, rfl⟩ := List.mem_map.mp hx
    refine ⟨e, he, ?_⟩
    split
    · exact ⟨rfl, rfl⟩
    · exact ⟨rfl, rfl⟩
  · rw [Function.update_of_ne hU] at hx
    exact ⟨x, hx, rfl, rfl⟩

section Entering

variable {c : Command} {n : Entry}

/-- The sweep of the order. -/
def Entry.outcome (R : Rules) (n : Entry) (c : Command) : Outcome :=
  sweep R n.side c.orderId n.owner n.limit n.stp (n.book (opposite n.side)) c.qty

theorem Entry.result_book (R : Rules) (n : Entry) (c : Command) :
    (n.result R c).1 (opposite n.side) = (n.outcome R c).makers ∧
      (∀ x ∈ (n.result R c).1 n.side, x ∈ n.book n.side ∨ (x.id = c.orderId ∧ x.owner = n.owner)) ∧
      ∀ x ∈ n.book n.side, x ∈ (n.result R c).1 n.side := by
  have hopp : opposite n.side ≠ n.side := (ne_opposite n.side).symm
  rcases enter_book (R := R) (A := n.book) n.side c.orderId n.owner n.limit c.qty n.stp
      n.price n.mayRest with
    heq | ⟨_, heq⟩
  · rw [Entry.result, heq, Function.update_self, Function.update_of_ne hopp.symm]
    exact ⟨rfl, fun x hx => .inl hx, fun x hx => hx⟩
  · rw [Entry.result, heq, Function.update_self, Function.update_of_ne hopp, Function.update_self]
    refine ⟨rfl, fun x hx => ?_, fun x hx => mem_join.mpr (.inr hx)⟩
    rcases mem_join.mp hx with rfl | hx
    · exact .inr ⟨rfl, rfl⟩
    · exact .inl hx

theorem Enters.fresh (h : Enters R A c n) : ∀ e ∈ n.book (opposite n.side), e.id ≠ c.orderId :=
  fun e he => (h.others _ e he).2

theorem Entry.result_events (R : Rules) (n : Entry) (c : Command) :
    ∃ own, (n.result R c).2 = n.first :: ((n.outcome R c).events ++ own) ∧
      ((own = [] ∧ ((n.outcome R c).qty = 0 ∨ (n.outcome R c).stop = false)) ∨
        ∃ p reason, (reason = .selfTrade ↔ (n.outcome R c).stop = true) ∧
          own = [canceledEvent R.symbol c.orderId n.side p (n.outcome R c).qty reason]) := by
  rcases enter_events (R := R) n.book n.side c.orderId n.owner n.limit c.qty n.stp
      n.price n.mayRest with
    ⟨heq, hq⟩ | ⟨p, reason, _, hreason, heq⟩
  · exact ⟨[], by rw [Entry.result, heq, List.append_nil]; rfl, .inl ⟨rfl, hq.imp_right And.left⟩⟩
  · exact ⟨_, by rw [Entry.result, heq]; rfl, .inr ⟨p, reason, hreason, rfl⟩⟩

theorem LimitOf.within (hsmall : R.cfg.numLevels ≤ 2 ^ 30) {S : Side} {limit : Int}
    (h : LimitOf R S c limit) (evs : List Event) (hside : evs.head?.map Event.side = some S)
    (before after : Listing) {i : Nat} (hi : i < R.cfg.numLevels) :
    Step.within R.cfg ⟨before, c, evs, after⟩ (R.priceOf i) = inRange S limit i := by
  have hs : Step.side ⟨before, c, evs, after⟩ = S := by simp [Step.side, hside]
  rw [Step.within, hs]
  rcases h with ⟨hty, hot, rfl⟩ | ⟨hnot, ix, hrel, rfl⟩
  · rw [if_pos ⟨hty, hot⟩]
    cases S with
    | buy =>
        simp [inRange]
        omega
    | sell => simp [inRange]
  · rw [if_neg hnot]
    have hlevel := Rules.rel_priceOf hsmall hi
    have hprice := Rules.rel_priceOf hsmall (Rules.relOf_lt hrel)
    rw [Rules.priceOf_relOf hrel] at hprice
    cases S with
    | buy => simp [inRange, hlevel, hprice]
    | sell => simp [inRange, hlevel, hprice]

theorem enteredBy_other {owners : OrderId → Option OwnerId} {s : Step} {id : OrderId}
    (h : id ≠ s.command.orderId) :
    s.enteredBy owners id = owners id := by
  rw [Step.enteredBy]
  split
  · exact Function.update_of_ne h _ _
  · rfl

theorem Enters.entered (h : Enters R A c n) {owners : OrderId → Option OwnerId}
    (hown : Owned owners A) (before after : Listing) :
    Step.enteredBy owners ⟨before, c, (n.result R c).2, after⟩ c.orderId = some n.owner := by
  rw [Step.enteredBy]
  rcases h.owner with ⟨hty, hfirst, howner⟩ | ⟨hty, e, he, hid, howner⟩
  · rw [if_pos ⟨hty, congrArg some hfirst⟩, Function.update_self, howner]
  · have hmodify : c.type ≠ .newOrder := by
      rw [hty]
      exact fun hx => nomatch hx
    rw [if_neg fun hx => hmodify hx.1, ← hid, hown _ e he, howner]

end Entering

section Safe

variable {c : Command} {n : Entry} {owners : OrderId → Option OwnerId}

/-- The step of an order that comes in. -/
def Entry.step (R : Rules) (A : PriorityBook) (n : Entry) (c : Command) : Step :=
  ⟨listing R A, c, (n.result R c).2, listing R (n.result R c).1⟩

theorem Enters.own (h : Enters R A c n) (hown : Owned owners A) {U : Side}
    {e : Resting} (he : e ∈ A U) (hid : e.id ≠ c.orderId)
    (hsame : (n.step R A c).enteredBy owners e.id = (n.step R A c).enteredBy owners c.orderId) :
    e.owner = n.owner := by
  have hcommand : e.id ≠ (n.step R A c).command.orderId := hid
  have hentered := h.entered hown (listing R A) (listing R (n.result R c).1)
  rw [enteredBy_other hcommand, hown U e he] at hsame
  exact Option.some.inj (hsame.trans hentered)

theorem Enters.gone (h : Enters R A c n) (ok : Ok R A) {e : Resting} (he : e ∈ A (opposite n.side))
    (hid : e.id ≠ c.orderId) (hmakers : ∀ x ∈ (n.outcome R c).makers, x.id ≠ e.id) :
    ∀ U, ∀ x ∈ (n.step R A c).after U, x.2.1 ≠ e.id := by
  intro U o ho
  obtain ⟨x, hx, rfl⟩ := List.mem_map.mp ho
  obtain ⟨hopp, hside, _⟩ := n.result_book R c
  change x.id ≠ e.id
  by_cases hU : U = n.side
  · subst hU
    rcases hside x hx with hx | ⟨hx, _⟩
    · exact fun heq => ne_opposite n.side (ok.ids.unique (h.others _ x hx).1 he heq).1
    · rw [hx]
      exact hid.symm
  · rw [eq_opposite_of_ne hU] at hx
    rw [hopp] at hx
    exact hmakers x hx

theorem Enters.within (h : Enters R A c n) (hsmall : R.cfg.numLevels ≤ 2 ^ 30)
    (ok : Ok R A) {e : Resting} (he : e ∈ A (opposite n.side)) :
    (n.step R A c).within R.cfg (R.priceOf e.level) = inRange n.side n.limit e.level := by
  obtain ⟨own, hevents, _⟩ := n.result_events R c
  exact h.limit.within hsmall (n.result R c).2
    (by rw [hevents]; exact congrArg some h.side) (listing R A)
    (listing R (n.result R c).1) (ok.level_lt _ e he)

end Safe

end PriorityBook

/-! ### Runs -/

/-- Who entered each order, after these steps. -/
def Step.owners (steps : List Step) : OrderId → Option OwnerId :=
  steps.foldl Step.enteredBy fun _ => none

namespace OrderBook

variable {σ : Type} [StoreLayout σ] {R : Rules}

end OrderBook
end ExchangeSim.Book
