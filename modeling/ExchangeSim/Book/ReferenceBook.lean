/- digest: The textbook book: a price map of queues with an id map, the oracle of the tests. -/

import ExchangeSim.Common
import Mathlib.Data.List.AList

set_option autoImplicit false
set_option relaxedAutoImplicit false

namespace ExchangeSim.Book

structure RefOrder where
  id : OrderId
  qty : Qty
  owner : OwnerId
  deriving DecidableEq

abbrev RefQueue := List RefOrder

/-- An ordered map from prices to queues, in the order its iteration follows. -/
abbrev RefSide := List (Price × RefQueue)

/-- Where an order rests. The iterator of a queue node is the id the node carries: a
node's id never changes while it is linked. -/
structure Loc where
  side : Side
  price : Price
  it : OrderId

structure ReferenceBook where
  symbol : SymbolId
  minPrice : Price
  maxPrice : Price
  capacity : Nat
  stp : Stp
  bids : RefSide
  asks : RefSide
  index : AList fun _ : OrderId => Loc

namespace ReferenceBook

def make (symbol : SymbolId) (cfg : BookConfig) : ReferenceBook where
  symbol := symbol
  minPrice := cfg.minPrice
  maxPrice := cfg.minPrice + Int64.ofNat cfg.numLevels - 1
  capacity := cfg.maxOrders
  stp := cfg.stp
  bids := []
  asks := []
  index := ∅

def sideOf (b : ReferenceBook) : Side → RefSide
  | .buy => b.bids
  | .sell => b.asks

def setSide (b : ReferenceBook) (S : Side) (l : RefSide) : ReferenceBook :=
  match S with
  | .buy => { b with bids := l }
  | .sell => { b with asks := l }

@[simp] theorem sideOf_setSide {b : ReferenceBook} (S : Side) (l : RefSide) (T : Side) :
    (b.setSide S l).sideOf T = if T = S then l else b.sideOf T := by
  cases S <;> cases T <;> rfl

def size (b : ReferenceBook) : Nat := b.index.entries.length

/-- An order of side `S` with this limit may trade at the price. -/
def inRange (S : Side) (limit p : Price) : Bool :=
  match S with
  | .buy => p ≤ limit
  | .sell => limit ≤ p

def crosses (b : ReferenceBook) (S : Side) (limit : Price) : Bool :=
  match b.sideOf (opposite S) with
  | [] => false
  | (px, _) :: _ => inRange S limit px

/-- The orders of one price level, asked one by one: a verdict, or what is still needed. -/
def fillableQueue (owner : OwnerId) (stp : Stp) : RefQueue → Qty → Bool ⊕ Qty
  | [], need => .inr need
  | o :: q, need =>
      if stp ≠ .none ∧ o.owner = owner then
        if stp = .cancelIncoming then .inl false
        else if stp = .decrementCancel then
          if need ≤ o.qty then .inl false else fillableQueue owner stp q (need - o.qty)
        else fillableQueue owner stp q need
      else if need ≤ o.qty then .inl true
      else fillableQueue owner stp q (need - o.qty)

def fillable (S : Side) (limit : Price) (owner : OwnerId) (stp : Stp) : RefSide → Qty → Bool
  | [], _ => false
  | (px, q) :: rest, need =>
      if ¬ inRange S limit px then false
      else match fillableQueue owner stp q need with
        | .inl verdict => verdict
        | .inr need => fillable S limit owner stp rest need

structure QueueMatch where
  queue : RefQueue
  qty : Qty
  stop : Bool
  index : AList fun _ : OrderId => Loc
  events : List Event

/-- The inner loop of the match at price `px`. A maker that keeps a remainder has filled the
taker, so both loops end there. -/
def matchQueue (symbol : SymbolId) (taker : OrderId) (owner : OwnerId) (S : Side) (limit px : Price)
    (stp : Stp) : RefQueue → Qty → AList (fun _ : OrderId => Loc) → QueueMatch
  | [], qty, index => ⟨[], qty, false, index, []⟩
  | o :: q, qty, index =>
      if qty = 0 then ⟨o :: q, qty, false, index, []⟩
      else if stp ≠ .none ∧ o.owner = owner then
        if stp = .cancelIncoming then ⟨o :: q, qty, true, index, []⟩
        else if stp = .decrementCancel ∧ qty < o.qty then
          ⟨{ o with qty := o.qty - qty } :: q, qty, true, index,
            [stpDecrementEvent symbol o.id (opposite S) px (o.qty - qty)]⟩
        else
          let ev := canceledEvent symbol o.id (opposite S) px o.qty .selfTrade
          let index := index.erase o.id
          if stp = .decrementCancel then
            if o.qty = qty then ⟨q, qty, true, index, [ev]⟩
            else
              let r := matchQueue symbol taker owner S limit px stp q (qty - o.qty) index
              { r with events :=
                  ev :: stpDecrementEvent symbol taker S limit (qty - o.qty) :: r.events }
          else
            let r := matchQueue symbol taker owner S limit px stp q qty index
            { r with events := ev :: r.events }
      else
        let fill := min o.qty qty
        let left := o.qty - fill
        let ev := tradeEvent symbol taker o.id S px fill left
        if left = 0 then
          let r := matchQueue symbol taker owner S limit px stp q (qty - fill) (index.erase o.id)
          { r with events := ev :: r.events }
        else ⟨{ o with qty := left } :: q, qty - fill, false, index, [ev]⟩

structure SideMatch where
  levels : RefSide
  qty : Qty
  stop : Bool
  index : AList fun _ : OrderId => Loc
  events : List Event

/-- The outer loop of the match, over the price levels. -/
def matchSide (symbol : SymbolId) (taker : OrderId) (owner : OwnerId) (S : Side)
    (limit : Price) (stp : Stp) :
    RefSide → Qty → AList (fun _ : OrderId => Loc) → SideMatch
  | [], qty, index => ⟨[], qty, false, index, []⟩
  | (px, q) :: rest, qty, index =>
      if qty = 0 ∨ ¬ inRange S limit px then ⟨(px, q) :: rest, qty, false, index, []⟩
      else
        let r := matchQueue symbol taker owner S limit px stp q qty index
        if r.stop then
          ⟨if r.queue = [] then rest else (px, r.queue) :: rest, r.qty, true, r.index, r.events⟩
        else if r.queue = [] then
          let m := matchSide symbol taker owner S limit stp rest r.qty r.index
          { m with events := r.events ++ m.events }
        else ⟨(px, r.queue) :: rest, r.qty, false, r.index, r.events⟩

/-- The key order of a side's map: best price first. -/
def before (S : Side) (p p' : Price) : Bool :=
  match S with
  | .buy => p' < p
  | .sell => p < p'

/-- `book[px].push_back(o)`. -/
def pushBack (S : Side) (px : Price) (o : RefOrder) : RefSide → RefSide
  | [] => [(px, [o])]
  | (p, q) :: rest =>
      if p = px then (p, q ++ [o]) :: rest
      else if before S p px then (p, q) :: pushBack S px o rest
      else (px, [o]) :: (p, q) :: rest

def rest (b : ReferenceBook) (id : OrderId) (owner : OwnerId) (S : Side) (px : Price) (qty : Qty) :
    ReferenceBook × List Event :=
  if b.capacity ≤ b.size then (b, [canceledEvent b.symbol id S px qty .bookFull])
  else
    let b' := b.setSide S (pushBack S px ⟨id, qty, owner⟩ (b.sideOf S))
    ({ b' with index := b'.index.insert id ⟨S, px, id⟩ }, [])

/-- The queue at a price. -/
def queueAt (px : Price) : RefSide → RefQueue
  | [] => []
  | (p, q) :: rest => if p = px then q else queueAt px rest

/-- The order an iterator points to. -/
def deref (b : ReferenceBook) (loc : Loc) : Option RefOrder :=
  (queueAt loc.price (b.sideOf loc.side)).find? (·.id = loc.it)

/-- Replaces the queue at a price, and erases the level if it is empty. -/
def setQueue (px : Price) (f : RefQueue → RefQueue) : RefSide → RefSide
  | [] => []
  | (p, q) :: rest =>
      if p = px then (if f q = [] then rest else (p, f q) :: rest) else (p, q) :: setQueue px f rest

/-- `remove`, then the erasure of the index entry. -/
def remove (b : ReferenceBook) (id : OrderId) (loc : Loc) : ReferenceBook :=
  let b := b.setSide loc.side (setQueue loc.price (fun q => q.filter (·.id ≠ loc.it))
    (b.sideOf loc.side))
  { b with index := b.index.erase id }

def matchOrder (b : ReferenceBook) (taker : OrderId) (owner : OwnerId) (S : Side)
    (limit : Price) (qty : Qty) (stp : Stp) : SideMatch :=
  matchSide b.symbol taker owner S limit stp (b.sideOf (opposite S)) qty b.index

/-- The limit an order matches with: a market order's is the far end of the band. -/
def limitPrice (b : ReferenceBook) (c : Command) : Price :=
  match c.ordType, c.side with
  | .market, .buy => b.maxPrice
  | .market, .sell => b.minPrice
  | .limit, _ => c.price

def add (b : ReferenceBook) (c : Command) : ReferenceBook × List Event :=
  if c.orderId = 0 then (b, [rejectedEvent c .invalidOrderId])
  else if c.qty = 0 then (b, [rejectedEvent c .invalidQty])
  else if c.ordType = .limit ∧ (c.price < b.minPrice ∨ b.maxPrice < c.price) then
    (b, [rejectedEvent c .invalidPrice])
  else
    let limit := b.limitPrice c
    if (b.index.lookup c.orderId).isSome then (b, [rejectedEvent c .duplicateOrderId])
    else if c.flags &&& kFlagPostOnly ≠ 0 ∧ b.crosses c.side limit then
      (b, [rejectedEvent c .wouldCross])
    else
      let px := c.eventPrice
      let ev := acceptedEvent b.symbol c.orderId c.side px c.qty
      let stp := effectiveStp c.flags b.stp
      if c.tif = .fok ∧ ¬ fillable c.side limit c.owner stp (b.sideOf (opposite c.side)) c.qty then
        (b, [ev, canceledEvent b.symbol c.orderId c.side px c.qty .fokUnfilled])
      else
        let m := b.matchOrder c.orderId c.owner c.side limit c.qty stp
        let b' := { b.setSide (opposite c.side) m.levels with index := m.index }
        if m.qty = 0 then (b', ev :: m.events)
        else if m.stop then
          (b', ev :: m.events ++ [canceledEvent b.symbol c.orderId c.side px m.qty .selfTrade])
        else if c.ordType = .market ∨ c.tif ≠ .day then
          (b', ev :: m.events ++ [canceledEvent b.symbol c.orderId c.side px m.qty .iocExpired])
        else
          let (b'', evs) := b'.rest c.orderId c.owner c.side limit m.qty
          (b'', ev :: m.events ++ evs)

/-- `none` stands for an iterator that points to no order. -/
def cancel (b : ReferenceBook) (c : Command) : Option (ReferenceBook × List Event) :=
  match b.index.lookup c.orderId with
  | none => some (b, [rejectedEvent c .unknownOrder])
  | some loc => do
      let o ← b.deref loc
      return (b.remove c.orderId loc,
        [canceledEvent b.symbol c.orderId loc.side loc.price o.qty .userCanceled])

def modify (b : ReferenceBook) (c : Command) : Option (ReferenceBook × List Event) :=
  if c.qty = 0 then some (b, [rejectedEvent c .invalidQty])
  else match b.index.lookup c.orderId with
  | none => some (b, [rejectedEvent c .unknownOrder])
  | some loc =>
    if c.price < b.minPrice ∨ b.maxPrice < c.price then some (b, [rejectedEvent c .invalidPrice])
    else do
      let o ← b.deref loc
      let ev := modifiedEvent b.symbol c.orderId loc.side c.price c.qty
      if c.price = loc.price ∧ c.qty ≤ o.qty then
        return (b.setSide loc.side (setQueue loc.price
          (fun q => q.map fun x => if x.id = loc.it then { x with qty := c.qty } else x)
            (b.sideOf loc.side)), [ev])
      let b := b.remove c.orderId loc
      let m := b.matchOrder c.orderId o.owner loc.side c.price c.qty b.stp
      let b' := { b.setSide (opposite loc.side) m.levels with index := m.index }
      if m.qty = 0 then return (b', ev :: m.events)
      if m.stop then
        return (b', ev :: m.events ++
          [canceledEvent b.symbol c.orderId loc.side c.price m.qty .selfTrade])
      let (b'', evs) := b'.rest c.orderId o.owner loc.side c.price m.qty
      return (b'', ev :: m.events ++ evs)

def process (b : ReferenceBook) (c : Command) : Option (ReferenceBook × List Event) :=
  match c.type with
  | .newOrder => some (b.add c)
  | .cancel => b.cancel c
  | .modify => b.modify c

/-- A command sequence, keeping the events of each command. -/
def run (b : ReferenceBook) : List Command → Option (ReferenceBook × List (List Event))
  | [] => some (b, [])
  | c :: cs => do
      let (b, evs) ← b.process c
      let (b, rest) ← b.run cs
      return (b, evs :: rest)

/-- The resting orders of one side in priority order. -/
def forEachOrder (b : ReferenceBook) (S : Side) : List (Price × OrderId × Qty) :=
  (b.sideOf S).flatMap fun (px, q) => q.map fun o => (px, o.id, o.qty)

end ReferenceBook
end ExchangeSim.Book
