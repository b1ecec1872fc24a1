/- digest: The book rebuilt from an exchange's order-by-order messages: price queues, an id index
   and level totals. -/

import ExchangeSim.Common
import ExchangeSim.Lib.SortedMap

set_option autoImplicit false
set_option relaxedAutoImplicit false

namespace ExchangeSim.L3

open ExchangeSim.Lib

/-- A queued order. `node` is the identity of its place in the list, which is what iterators hold on
to. -/
structure Order where
  node : Nat
  id : OrderId
  qty : Qty
  since : UInt64
  deriving DecidableEq, Repr

abbrev Queue := List Order

structure Loc where
  side : Side
  px : Price
  it : Nat
  deriving DecidableEq, Repr

/-- The queues of both sides by increasing price, the index of the orders by id, and the totals of
the levels. `fresh` is above every node in use. -/
structure TruthBook where
  queues : Side → SortedMap Price Queue := fun _ => .empty
  where_ : OrderId → Option Loc := fun _ => none
  totals : Side → Price → Option Qty := fun _ _ => none
  fresh : Nat := 0

namespace TruthBook

def clear (_ : TruthBook) : TruthBook := {}

def queue (b : TruthBook) (side : Side) (px : Price) : Option Queue := (b.queues side).find? px

/-- The queue at a price, which is empty where none is kept. -/
def level (b : TruthBook) (side : Side) (px : Price) : Queue := (b.queue side px).getD []

/-- Replaces one queue and one total. -/
def put (b : TruthBook) (side : Side) (px : Price) (q : Queue) (total : Qty) : TruthBook :=
  { b with
    queues := Function.update b.queues side ((b.queues side).insert px q)
    totals := Function.update b.totals side (Function.update (b.totals side) px (some total)) }

/-- Removes one queue and one total. -/
def drop (b : TruthBook) (side : Side) (px : Price) : TruthBook :=
  { b with
    queues := Function.update b.queues side ((b.queues side).erase px)
    totals := Function.update b.totals side (Function.update (b.totals side) px none) }

/-- Joins the back of the queue at the price. -/
def add (b : TruthBook) (id : OrderId) (side : Side) (px : Price) (qty : Qty)
    (ts : UInt64) : TruthBook :=
  { b.put side px (b.level side px ++ [⟨b.fresh, id, qty, ts⟩])
      ((b.totals side px).getD 0 + qty) with
    where_ := Function.update b.where_ id (some ⟨side, px, b.fresh⟩)
    fresh := b.fresh + 1 }

/-- The order that an iterator points at. -/
def deref (b : TruthBook) (loc : Loc) : Option Order :=
  (b.level loc.side loc.px).find? fun o => o.node = loc.it

/-- The order with its place, through the index. -/
def locate (b : TruthBook) (id : OrderId) : Option (Loc × Order) :=
  (b.where_ id).bind fun loc => (b.deref loc).map fun o => (loc, o)

/-- Writes through an iterator, and the total of its level. -/
def setQty (b : TruthBook) (loc : Loc) (qty total : Qty) : TruthBook :=
  b.put loc.side loc.px ((b.level loc.side loc.px).map fun o => if o.node = loc.it then
    { o with qty := qty } else o) total

/-- A match against a resting order; false if the maker is unknown or too small. -/
def fill (b : TruthBook) (maker : OrderId) (qty : Qty) : TruthBook × Bool :=
  match b.locate maker with
  | none => (b, false)
  | some (loc, o) =>
      if o.qty < qty then (b, false)
      else (b.setQty loc (o.qty - qty) ((b.totals loc.side loc.px).getD 0 - qty), true)

/-- Total resting quantity at a price. -/
def levelQty (b : TruthBook) (side : Side) (px : Price) : Qty := (b.totals side px).getD 0

/-- The levels of one side, best first. -/
def levels (b : TruthBook) : Side → List (Price × Queue)
  | .buy => (b.queues .buy).entries.reverse
  | .sell => (b.queues .sell).entries

/-- Up to `n` levels of one side with their totals, best first; `none` where a total is missing. -/
def forEachLevel (b : TruthBook) (side : Side) (n : Nat) : Option (List (Price × Qty)) :=
  ((b.levels side).take n).mapM fun e => (b.totals side e.1).map fun t => (e.1, t)

def eraseAt (b : TruthBook) (loc : Loc) (o : Order) : TruthBook :=
  let q := (b.level loc.side loc.px).filter fun x => x.node ≠ loc.it
  if q = [] then b.drop loc.side loc.px
  else b.put loc.side loc.px q ((b.totals loc.side loc.px).getD 0 - o.qty)

def remove (b : TruthBook) (id : OrderId) : TruthBook :=
  match b.locate id with
  | none => b
  | some (loc, o) => { b.eraseAt loc o with where_ := Function.update b.where_ id none }

/-- A smaller size at the same price keeps the place, anything else goes to the back. -/
def change (b : TruthBook) (id : OrderId) (newPx : Price) (newQty : Qty)
    (ts : UInt64) : TruthBook :=
  match b.locate id with
  | none => b
  | some (loc, o) =>
      if newPx = loc.px ∧ newQty ≤ o.qty then
        b.setQty loc newQty ((b.totals loc.side loc.px).getD 0 - (o.qty - newQty))
      else
        TruthBook.add { b.eraseAt loc o with where_ := Function.update b.where_ id none } id
          loc.side newPx newQty ts

def contains (b : TruthBook) (id : OrderId) : Bool := (b.where_ id).isSome

def find (b : TruthBook) (id : OrderId) : Option (Order × Side × Price) :=
  (b.locate id).map fun e => (e.2, e.1.side, e.1.px)

/-- One side best price first, in queue order within a level. -/
def forEach (b : TruthBook) (side : Side) : List (Price × Order) :=
  (b.levels side).flatMap fun e => e.2.map fun o => (e.1, o)

def best (b : TruthBook) (side : Side) : Option Price := (b.levels side).head?.map Prod.fst

end TruthBook
end ExchangeSim.L3
