/- digest: The level-2 mirror: every price level of another exchange as one order of the engine's
   own book. -/

import ExchangeSim.Book.OrderBook

set_option autoImplicit false
set_option relaxedAutoImplicit false

namespace ExchangeSim.Mirror

open ExchangeSim.Book

structure LevelUpdate where
  px : Price
  qty : Qty
  deriving DecidableEq, Repr

structure Record where
  bids : List LevelUpdate
  asks : List LevelUpdate

def Record.levels (r : Record) : Side → List LevelUpdate
  | .buy => r.bids
  | .sell => r.asks

structure BookMirror (σ : Type) where
  minPx : Price
  n : Nat
  maxOrders : Nat
  bidQty : PageArray Qty
  askQty : PageArray Qty
  book : OrderBook σ
  sink : Sink
  updates : UInt64 := 0
  outOfBand : UInt64 := 0
  bookFull : UInt64 := 0
  dropCounter : UInt64 := 0
  bidHorizon : Price := 0
  askHorizon : Price := 0
  bidSpan0 : Price := 0
  askSpan0 : Price := 0

namespace BookMirror

variable {σ : Type} [StoreLayout σ]

def bookConfig (minPx : Price) (n maxOrders : Nat) : BookConfig where
  minPrice := minPx
  numLevels := n
  maxOrders := maxOrders
  stp := .none

def cfg (m : BookMirror σ) : BookConfig := bookConfig m.minPx m.n m.maxOrders

def make (hash : IndexHash) (centerPx : Price) (numLevels maxOrders : Nat) : BookMirror σ :=
  let minPx := centerPx - Int64.ofNat (numLevels / 2)
  { minPx := minPx
    n := numLevels
    maxOrders := maxOrders
    bidQty := fun _ => 0
    askQty := fun _ => 0
    book := OrderBook.make hash 0 (bookConfig minPx numLevels maxOrders)
    sink := {} }

def resetBook (hash : IndexHash) (m : BookMirror σ) : BookMirror σ :=
  { m with book := OrderBook.make hash 0 m.cfg, sink := {} }

/-- The id of the order that stands for a level. -/
def idFor (rel : Nat) (side : Side) : OrderId :=
  (UInt64.ofNat rel <<< 1 ||| (match side with
    | .sell => 1
    | .buy => 0)) + 1

/-- The offset of a price in the band, if it is inside. -/
def relOf (m : BookMirror σ) (px : Price) : Option Nat :=
  let rel := (px - m.minPx).toInt
  if rel < 0 ∨ (m.n : Int) ≤ rel then none else some rel.toNat

def slot (m : BookMirror σ) : Side → Nat → Qty
  | .buy, rel => m.bidQty rel
  | .sell, rel => m.askQty rel

def setSlot (m : BookMirror σ) : Side → Nat → Qty → BookMirror σ
  | .buy, rel, q => { m with bidQty := Function.update m.bidQty rel q }
  | .sell, rel, q => { m with askQty := Function.update m.askQty rel q }

def levelCommand (type : MsgType) (rel : Nat) (side : Side) (u : LevelUpdate) : Command where
  orderId := idFor rel side
  side := side
  price := u.px
  qty := u.qty
  type := type

/-- `contains` of the book: the outer `none` is a lookup that does not end. -/
def contains (b : OrderBook σ) (id : OrderId) : Option Bool :=
  (b.ids.find id b.store.id).map (· ≠ kNil)

def setLevel (side : Side) (u : LevelUpdate) (allowAdd : Bool) (m : BookMirror σ) :
    Option (BookMirror σ) :=
  match m.relOf u.px with
  | none => some { m with outOfBand := m.outOfBand + 1 }
  | some rel => do
      let m := { m with updates := m.updates + 1 }
      let cur := m.slot side rel
      if u.qty = 0 then
        if cur ≠ 0 then
          let (book, sink) ← m.book.cancel (levelCommand .cancel rel side u) m.sink
          return { m with book := book, sink := sink }.setSlot side rel u.qty
        return m.setSlot side rel u.qty
      if cur = 0 then
        if !allowAdd then return m
        let (book, sink) ← m.book.add (levelCommand .newOrder rel side u) m.sink
        let bookFull := if ← contains book (idFor rel side) then m.bookFull else m.bookFull + 1
        return { m with book := book, sink := sink, bookFull := bookFull }.setSlot side rel u.qty
      -- a shrink keeps its place, a growth re-enters
      let (book, sink) ← m.book.modify (levelCommand .modify rel side u) m.sink
      return { m with book := book, sink := sink }.setSlot side rel u.qty

/-- One update of a diff in one of the two passes: reductions in the first, the rest in the
second. -/
def touch (side : Side) (u : LevelUpdate) (pass : Nat) (dropEvery : UInt64) (m : BookMirror σ) :
    Option (BookMirror σ) :=
  let m := if dropEvery ≠ 0 then { m with dropCounter := m.dropCounter + 1 } else m
  if dropEvery ≠ 0 ∧ m.dropCounter % dropEvery = 0 then some m
  else match m.relOf u.px with
  | none => some (if pass = 0 then { m with outOfBand := m.outOfBand + 1 } else m)
  | some rel =>
      let reduces := u.qty < m.slot side rel
      if pass = 0 ∧ reduces then m.setLevel side u false
      else if pass = 1 ∧ ¬ reduces then m.setLevel side u true
      else some m

/-- The bids of a record in order, then its asks. -/
def eachLevel (f : Side → LevelUpdate → BookMirror σ → Option (BookMirror σ)) (r : Record)
    (m : BookMirror σ) :
    Option (BookMirror σ) := do
  let m ← r.bids.foldlM (fun m u => f .buy u m) m
  r.asks.foldlM (fun m u => f .sell u m) m

/-- Drops all state and starts again from a snapshot. -/
def seed (hash : IndexHash) (snap : Record) (m : BookMirror σ) : Option (BookMirror σ) := do
  let m := resetBook hash { m with bidQty := fun _ => 0, askQty := fun _ => 0 }
  let m ← eachLevel (fun side u m => m.setLevel side u true) snap m
  let bidHorizon := (snap.bids.getLast?.map LevelUpdate.px).getD m.minPx
  let askHorizon := (snap.asks.getLast?.map LevelUpdate.px).getD (m.minPx + Int64.ofNat m.n)
  return { m with
    bidHorizon := bidHorizon
    askHorizon := askHorizon
    bidSpan0 := (snap.bids.head?.map fun u => u.px - bidHorizon).getD 0
    askSpan0 := (snap.asks.head?.map fun u => askHorizon - u.px).getD 0 }

/-- The market has used up half of the seeded depth on a side. -/
def needsReseed (m : BookMirror σ) : Bool :=
  if 0 ≤ m.book.bestBid ∧ m.book.bestAsk < m.book.n then
    (m.askHorizon - m.book.priceOf m.book.bestAsk) * 2 < m.askSpan0 ∨
      (m.book.priceOf m.book.bestBid - m.bidHorizon) * 2 < m.bidSpan0
  else true

/-- Applies one diff; `dropEvery` discards every so many updates, 0 none. -/
def apply (diff : Record) (dropEvery : UInt64) (m : BookMirror σ) : Option (BookMirror σ) := do
  let m ← eachLevel (fun side u m => m.touch side u 0 dropEvery) diff m
  eachLevel (fun side u m => m.touch side u 1 dropEvery) diff m

def phantomTrades (m : BookMirror σ) : UInt64 :=
  UInt64.ofNat (m.sink.events.countP fun e => e.type = .trade)

/-- Quantity resting at a price, 0 outside the band. -/
def qtyAt (m : BookMirror σ) (side : Side) (px : Price) : Qty :=
  match m.relOf px with
  | none => 0
  | some rel => m.slot side rel

/-- A price beyond the deepest level the mirror is complete to. -/
def beyond (m : BookMirror σ) (side : Side) (px : Price) : Bool :=
  match side with
  | .buy => px < m.bidHorizon
  | .sell => m.askHorizon < px

/-- The first `n` levels of one side, best first. -/
def top (m : BookMirror σ) (side : Side) (n : Nat) (withinHorizon : Bool) :
    Option (List LevelUpdate) := do
  let orders ← m.book.forEachOrder side
  return orders.foldl (fun out (p, _, q) =>
    if withinHorizon ∧ m.beyond side p then out
    else if (out.getLast?.map LevelUpdate.px) = some p then
      out.modifyLast fun last => { last with qty := last.qty + q }
    else if out.length < n then out ++ [⟨p, q⟩]
    else out) []

end BookMirror
end ExchangeSim.Mirror
