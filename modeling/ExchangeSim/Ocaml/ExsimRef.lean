/- digest: The OCaml model of the matching rules: an immutable book and its apply function. -/

import ExchangeSim.Common
import ExchangeSim.Lib.SortedMap

set_option autoImplicit false
set_option relaxedAutoImplicit false

namespace ExchangeSim.ExsimRef

open Lib (SortedMap)

/-- A native int of OCaml has 63 bits, and its arithmetic wraps. -/
def wrap (x : Int) : Int := x.bmod (2 ^ 63)

def add (a b : Int) : Int := wrap (a + b)

def sub (a b : Int) : Int := wrap (a - b)

inductive Command where
  | new (id : Int) (side : Side) (price qty : Int) (ordType : OrdType) (tif : Tif) (postOnly : Bool)
      (stp : Option Stp) (owner : Int)
  | cancelOrder (id : Int)
  | modifyOrder (id price qty : Int)
  deriving DecidableEq, Repr

/-- The enumerations are those of the engine; the reasons of the risk checks never occur. -/
inductive Event where
  | accepted (id : Int) (side : Side) (price qty : Int)
  | rejected (id : Int) (side : Side) (request : MsgType) (reason : Reason)
  | trade (taker maker : Int) (side : Side) (price qty leaves : Int)
  | canceled (id : Int) (side : Side) (price qty : Int) (reason : Reason)
  | modified (id : Int) (side : Side) (price qty : Int) (reason : Reason)
  deriving DecidableEq, Repr

structure Config where
  minPrice : Int
  numLevels : Int
  maxOrders : Int
  defaultStp : Stp

structure Order where
  id : Int
  qty : Int
  owner : Int
  deriving DecidableEq

/-- One side of the book: each price with its queue, the front first. -/
abbrev Levels := SortedMap Int (List Order)

structure T where
  config : Config
  bids : Levels
  asks : Levels
  index : SortedMap Int (Side × Int)
  count : Int

def create (config : Config) : T := ⟨config, .empty, .empty, .empty, 0⟩

def bookOf (t : T) : Side → Levels
  | .buy => t.bids
  | .sell => t.asks

def withBook (t : T) (side : Side) (b : Levels) : T :=
  match side with
  | .buy => { t with bids := b }
  | .sell => { t with asks := b }

def maxPrice (c : Config) : Int := sub (add c.minPrice c.numLevels) 1

def inBand (c : Config) (px : Int) : Bool := c.minPrice ≤ px && px ≤ maxPrice c

def best (t : T) : Side → Option Int
  | .buy => t.bids.entries.getLast?.map Prod.fst
  | .sell => t.asks.entries.head?.map Prod.fst

/-- An order of this side with this limit may trade at the price. -/
def meets (side : Side) (limit p : Int) : Bool :=
  match side with
  | .buy => p ≤ limit
  | .sell => limit ≤ p

def crosses (t : T) (side : Side) (limit : Int) : Bool :=
  match best t (opposite side) with
  | none => false
  | some p => meets side limit p

/-- The levels of a side with its best price first: `to_seq` of the asks, `to_rev_seq` of the
bids. -/
def listing (t : T) : Side → List (Int × List Order)
  | .buy => t.bids.entries.reverse
  | .sell => t.asks.entries

def crossingLevels (t : T) (side : Side) (limit : Int) : List (Int × List Order) :=
  (listing t (opposite side)).takeWhile fun e => meets side limit e.1

/-- The orders of one level: done, failed, or what is still needed. -/
def fillableLevel (owner : Int) (stp : Stp) : Int → List Order → Bool ⊕ Int
  | need, [] => .inr need
  | need, o :: os =>
      if stp ≠ .none ∧ o.owner = owner then
        if stp = .cancelIncoming then .inl false
        else if stp = .decrementCancel then
          if o.qty ≥ need then .inl false else fillableLevel owner stp (sub need o.qty) os
        else fillableLevel owner stp need os
      else if o.qty ≥ need then .inl true
      else fillableLevel owner stp (sub need o.qty) os

def fillableGo (owner : Int) (stp : Stp) : Int → List (Int × List Order) → Bool
  | _, [] => false
  | need, (_, queue) :: rest =>
      match fillableLevel owner stp need queue with
      | .inl verdict => verdict
      | .inr n => fillableGo owner stp n rest

def fillable (t : T) (side : Side) (limit qty owner : Int) (stp : Stp) : Bool :=
  fillableGo owner stp qty (crossingLevels t side limit)

structure Walked where
  t : T
  qty : Int
  remaining : List Order
  stopped : Bool
  events : List Event

section Sweep

variable (taker owner : Int) (side : Side) (limitPrice : Int) (stp : Stp)

def walk (px : Int) : T → Int → List Order → Walked
  | t, qty, [] => ⟨t, qty, [], false, []⟩
  | t, qty, o :: os =>
      if stp ≠ .none ∧ o.owner = owner then
        if stp = .cancelIncoming then ⟨t, qty, o :: os, true, []⟩
        else if stp = .decrementCancel ∧ o.qty > qty then
          let o' := { o with qty := sub o.qty qty }
          ⟨t, qty, o' :: os, true, [.modified o.id (opposite side) px o'.qty .selfTrade]⟩
        else
          let ev := Event.canceled o.id (opposite side) px o.qty .selfTrade
          let t := { t with index := t.index.erase o.id, count := sub t.count 1 }
          if stp = .decrementCancel then
            if o.qty = qty then ⟨t, qty, os, true, [ev]⟩
            else
              let qty := sub qty o.qty
              let w := walk px t qty os
              { w with events := ev :: .modified taker side limitPrice qty .selfTrade :: w.events }
          else
            let w := walk px t qty os
            { w with events := ev :: w.events }
      else
        let fill := min o.qty qty
        let left := sub o.qty fill
        let ev := Event.trade taker o.id side px fill left
        let qty := sub qty fill
        if left > 0 then ⟨t, qty, { o with qty := left } :: os, false, [ev]⟩
        else
          let t := { t with index := t.index.erase o.id, count := sub t.count 1 }
          if qty = 0 then ⟨t, 0, os, false, [ev]⟩
          else
            let w := walk px t qty os
            { w with events := ev :: w.events }

structure Swept where
  t : T
  qty : Int
  stopped : Bool
  events : List Event

/-- `if remaining = [] then Int_map.remove px b else Int_map.add px remaining b`. -/
def putLevel (b : Levels) (px : Int) (remaining : List Order) : Levels :=
  if remaining = [] then b.erase px else b.insert px remaining

def levels : T → Int → List (Int × List Order) → Swept
  | t, qty, [] => ⟨t, qty, false, []⟩
  | t, qty, (px, queue) :: rest =>
      let w := walk taker owner side limitPrice stp px t qty queue
      let t := withBook w.t (opposite side) (putLevel (bookOf w.t (opposite side)) px w.remaining)
      if w.stopped ∨ w.qty = 0 then ⟨t, w.qty, w.stopped, w.events⟩
      else
        let r := levels t w.qty rest
        { r with events := w.events ++ r.events }

def sweep (t : T) (limit qty : Int) : Swept :=
  levels taker owner side limitPrice stp t qty (crossingLevels t side limit)

end Sweep

def rest (t : T) (id owner : Int) (side : Side) (price qty : Int) : T × List Event :=
  if t.count ≥ t.config.maxOrders then (t, [.canceled id side price qty .bookFull])
  else
    let b := bookOf t side
    let q := (b.find? price).getD []
    let t := withBook t side (b.insert price (q ++ [⟨id, qty, owner⟩]))
    ({ t with index := t.index.insert id (side, price), count := add t.count 1 }, [])

/-- The outer `none` stands for a raised `Not_found`. -/
def find (t : T) (id : Int) : Option (Option (Side × Int × Order)) :=
  match t.index.find? id with
  | none => some none
  | some (side, price) => do
      let q ← (bookOf t side).find? price
      return (q.find? (·.id = id)).map fun o => (side, price, o)

def remove (t : T) (id : Int) : Option T :=
  match t.index.find? id with
  | none => some t
  | some (side, price) => do
      let b := bookOf t side
      let q := (← b.find? price).filter (·.id ≠ id)
      let t := withBook t side (putLevel b price q)
      return { t with index := t.index.erase id, count := sub t.count 1 }

def setQty (t : T) (id qty : Int) : Option T :=
  match t.index.find? id with
  | none => some t
  | some (side, price) => do
      let b := bookOf t side
      let q := (← b.find? price).map fun o => if o.id = id then { o with qty := qty } else o
      return withBook t side (b.insert price q)

def reject (id : Int) (side : Side) (request : MsgType) (reason : Reason) : List Event :=
  [.rejected id side request reason]

/-- The limit a new order matches with: a market order's is the far end of the band. -/
def limitOf (c : Config) (side : Side) (price : Int) : OrdType → Int
  | .market => match side with
    | .buy => maxPrice c
    | .sell => c.minPrice
  | .limit => price

def apply (t : T) : Command → Option (T × List Event)
  | .new id side price qty ordType tif postOnly stp owner =>
      let c := t.config
      let market := ordType = .market
      let limit := limitOf c side price ordType
      if id = 0 then some (t, reject id side .newOrder .invalidOrderId)
      else if qty = 0 then some (t, reject id side .newOrder .invalidQty)
      else if ¬ market ∧ ¬ inBand c price then some (t, reject id side .newOrder .invalidPrice)
      else if (t.index.find? id).isSome then some (t, reject id side .newOrder .duplicateOrderId)
      else if postOnly ∧ crosses t side limit then some (t, reject id side .newOrder .wouldCross)
      else
        let px := if market then 0 else price
        let accepted := Event.accepted id side px qty
        let stp := stp.getD c.defaultStp
        if tif = .fok ∧ ¬ fillable t side limit qty owner stp then
          some (t, [accepted, .canceled id side px qty .fokUnfilled])
        else
          let r := sweep id owner side limit stp t limit qty
          if r.qty = 0 then some (r.t, accepted :: r.events)
          else if r.stopped then
            some (r.t, accepted :: r.events ++ [.canceled id side px r.qty .selfTrade])
          else if market ∨ tif ≠ .day then
            some (r.t, accepted :: r.events ++ [.canceled id side px r.qty .iocExpired])
          else
            let (t, more) := rest r.t id owner side price r.qty
            some (t, accepted :: r.events ++ more)
  | .cancelOrder id => do
      match ← find t id with
      | none => return (t, reject id .buy .cancel .unknownOrder)
      | some (side, price, o) =>
          return (← remove t id, [.canceled id side price o.qty .userCanceled])
  | .modifyOrder id price qty =>
      if qty = 0 then some (t, reject id .buy .modify .invalidQty)
      else do
        match ← find t id with
        | none => return (t, reject id .buy .modify .unknownOrder)
        | some (side, oldPrice, o) =>
            if ¬ inBand t.config price then return (t, reject id .buy .modify .invalidPrice)
            let modified := Event.modified id side price qty .none
            if price = oldPrice ∧ qty ≤ o.qty then return (← setQty t id qty, [modified])
            -- Cancel and replace: the order loses its place and may trade at once.
            let stp := t.config.defaultStp
            let t ← remove t id
            let r := sweep id o.owner side price stp t price qty
            if r.qty = 0 then return (r.t, modified :: r.events)
            if r.stopped then
              return (r.t, modified :: r.events ++ [.canceled id side price r.qty .selfTrade])
            let (t, more) := rest r.t id o.owner side price r.qty
            return (t, modified :: r.events ++ more)

/-- `apply` folded over a command sequence, keeping the events of each command. -/
def run (t : T) : List Command → Option (T × List (List Event))
  | [] => some (t, [])
  | c :: cs => do
      let (t, evs) ← apply t c
      let (t, rest) ← run t cs
      return (t, evs :: rest)

/-- `Int_map.fold (fun _ q acc -> acc + List.length q)`. -/
def countOrders (b : Levels) : Int := b.entries.foldl (fun acc e => add acc e.2.length) 0

def levelsOk (b : Levels) : Bool := b.entries.all fun e => e.2 ≠ [] && e.2.all fun o => o.qty > 0

def crossed (t : T) : Bool :=
  match best t .buy, best t .sell with
  | some b, some a => b ≥ a
  | _, _ => false

def invariants (t : T) : Bool :=
  let n := add (countOrders t.bids) (countOrders t.asks)
  !crossed t && levelsOk t.bids && levelsOk t.asks && n = t.count &&
    (t.index.entries.length : Int) = n

end ExchangeSim.ExsimRef
