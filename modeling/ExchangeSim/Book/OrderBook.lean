/- digest: The price-time priority book over a dense ladder, bitmaps, intrusive queues and an id
   index. -/

import ExchangeSim.Book.OrderIndex
import ExchangeSim.Book.OrderStore
import ExchangeSim.Book.PriceBitmap

set_option autoImplicit false
set_option relaxedAutoImplicit false

namespace ExchangeSim.Book

open ExchangeSim.Lib

structure Level where
  qty : UInt64
  head : Nat
  tail : Nat

/-- A call of the book on its index that the index does not check: the index and the
ids of its store slots at the time of the call. -/
inductive IndexCall where
  | insert (index : OrderIndex) (keyOf : Nat → OrderId) (key : OrderId) (value : Nat)
  | eraseKnown (index : OrderIndex) (key : OrderId) (value : Nat)

/-- What the index asks of its caller: an inserted key is absent and the table is not
full; an entry erased by its store slot is present. -/
def IndexCall.Meets (maxEntries : Nat) : IndexCall → Prop
  | .insert index keyOf key _ => index.find key keyOf = some kNil ∧ index.size < maxEntries
  | .eraseKnown index key value => index.Holds ⟨index.hash.fingerprint key index.bits, value⟩

structure Sink where
  events : List Event := []
  calls : List IndexCall := []

def Sink.emit (s : Sink) (e : Event) : Sink := { s with events := s.events ++ [e] }
def Sink.call (s : Sink) (c : IndexCall) : Sink := { s with calls := s.calls ++ [c] }

structure OrderView where
  price : Price
  qty : Qty
  side : Side
  owner : OwnerId
  deriving DecidableEq, Repr

structure OrderBook (σ : Type) where
  symbol : SymbolId
  minPrice : Price
  n : Nat
  stp : Stp
  bestBid : Int
  bestAsk : Int
  levels : PageArray Level
  bidBits : PriceBitmap
  askBits : PriceBitmap
  ids : OrderIndex
  store : FreeListStore σ

namespace OrderBook

variable {σ : Type} [StoreLayout σ]

def make (hash : IndexHash) (symbol : SymbolId) (cfg : BookConfig) : OrderBook σ where
  symbol := symbol
  minPrice := cfg.minPrice
  n := cfg.numLevels
  stp := cfg.stp
  bestBid := -1
  bestAsk := cfg.numLevels
  levels := fun _ => ⟨0, kNil, kNil⟩
  bidBits := PriceBitmap.make cfg.numLevels
  askBits := PriceBitmap.make cfg.numLevels
  ids := OrderIndex.make hash cfg.maxOrders
  store := FreeListStore.make cfg.maxOrders

def priceOf (b : OrderBook σ) (ix : Int) : Price := b.minPrice + Int64.ofInt ix

def setLevel (b : OrderBook σ) (ix : Nat) (lv : Level) : OrderBook σ :=
  { b with levels := Function.update b.levels ix lv }

/-- `lv.qty -= q` on the level at `ix`. -/
def subLevelQty (b : OrderBook σ) (ix : Nat) (q : Qty) : OrderBook σ :=
  b.setLevel ix { b.levels ix with qty := (b.levels ix).qty - q }

/-- The offset of a price from the band's start in 64-bit arithmetic, if it is inside. -/
def relOf (b : OrderBook σ) (price : Price) : Option Nat :=
  let rel := (price - b.minPrice).toInt
  if rel < 0 ∨ (b.n : Int) ≤ rel then none else some rel.toNat

/-- The best level of the side that an order of side `S` takes from. -/
def best (b : OrderBook σ) : Side → Int
  | .buy => b.bestAsk
  | .sell => b.bestBid

/-- The next level of that side after `i`. -/
def nextLevel (b : OrderBook σ) : Side → Int → Int
  | .buy, i => b.askBits.findNext (i + 1)
  | .sell, i => b.bidBits.findPrev (i - 1)

def crosses (b : OrderBook σ) : Side → Int → Bool
  | .buy, limit => b.bestAsk ≤ limit
  | .sell, limit => limit ≤ b.bestBid

/-- Erases the id of a maker met in a sweep and frees its slot. -/
def dropMaker (b : OrderBook σ) (s : Nat) (sink : Sink) : Option (OrderBook σ × Sink) := do
  let id := b.store.id s
  let ids ← b.ids.eraseKnown id s
  return ({ b with ids := ids, store := b.store.release s }, sink.call (.eraseKnown b.ids id s))

structure SweepState (σ : Type) where
  book : OrderBook σ
  s : Nat
  qty : Qty
  stpStop : Bool
  sink : Sink

/-- One maker of the level at `ix` in the sweep of an order of side `S`. -/
def sweepMaker (S : Side) (taker : OrderId) (takerOwner : OwnerId) (limit : Int)
    (stp : Stp) (ix : Nat) (st : SweepState σ) :
    Option (Loop.Pass (SweepState σ) (SweepState σ)) := do
  let b := st.book
  let s := st.s
  let px := b.priceOf ix
  if s = kNil then return .leave st
  if stp ≠ .none ∧ b.store.owner s = takerOwner then
    if stp = .cancelIncoming then return .leave { st with stpStop := true }
    let mq := b.store.qty s
    if stp = .decrementCancel ∧ st.qty < mq then
      let b' := ({ b with store := b.store.setQty s (mq - st.qty) } : OrderBook σ).subLevelQty ix
        st.qty
      return .leave { st with
        book := b', stpStop := true
        sink := st.sink.emit
          (stpDecrementEvent b.symbol (b.store.id s) (opposite S) px (mq - st.qty)) }
    let nx := b.store.next s
    let sink := st.sink.emit
      (canceledEvent b.symbol (b.store.id s) (opposite S) px mq .selfTrade)
    let (b', sink) ← (b.subLevelQty ix mq).dropMaker s sink
    if stp = .decrementCancel then
      if mq = st.qty then
        return .leave { st with book := b', s := nx, stpStop := true, sink := sink }
      let qty := st.qty - mq
      return .again { st with
        book := b', s := nx, qty := qty
        sink := sink.emit (stpDecrementEvent b.symbol taker S (b.priceOf limit) qty) }
    return .again { st with book := b', s := nx, sink := sink }
  let avail := b.store.qty s
  let fill := if avail < st.qty then avail else st.qty
  let left := avail - fill
  let qty := st.qty - fill
  let b' := b.subLevelQty ix fill
  let sink := st.sink.emit (tradeEvent b.symbol taker (b.store.id s) S px fill left)
  if left ≠ 0 then
    return .leave { st with
      book := { b' with store := b'.store.setQty s left }, qty := qty, sink := sink }
  let nx := b.store.next s
  let (b', sink) ← b'.dropMaker s sink
  if qty = 0 then return .leave { st with book := b', s := nx, qty := qty, sink := sink }
  return .again { st with book := b', s := nx, qty := qty, sink := sink }

/-- The sweep of an order of side `S` has emptied the best level `ix`. -/
def exhaust (S : Side) (b : OrderBook σ) (ix : Nat) : OrderBook σ :=
  match S with
  | .buy =>
      let bits := b.askBits.clear ix
      { b with askBits := bits, bestAsk := bits.findNext (ix + 1) }
  | .sell =>
      let bits := b.bidBits.clear ix
      { b with bidBits := bits, bestBid := bits.findPrev (ix - 1) }

/-- After the makers of a level: its new head, and the next best level if it is empty. -/
def retire (S : Side) (b : OrderBook σ) (ix s : Nat) : OrderBook σ :=
  if s = kNil then (b.setLevel ix ⟨(b.levels ix).qty, s, kNil⟩).exhaust S ix
  else b.setLevel ix { b.levels ix with head := s }

/-- More passes than a walk over the queue of one level, or over the levels, can take. -/
def queueFuel (b : OrderBook σ) : Nat := b.store.cap + 1
def levelFuel (b : OrderBook σ) : Nat := b.n + 1

/-- One level of the sweep. -/
def sweepLevel (S : Side) (taker : OrderId) (takerOwner : OwnerId) (limit : Int) (stp : Stp)
    (st : SweepState σ) : Option (Loop.Pass (SweepState σ) (SweepState σ)) := do
  if st.qty ≠ 0 ∧ st.book.crosses S limit then
    let ix := (st.book.best S).toNat
    let st ← Loop.runM (sweepMaker S taker takerOwner limit stp ix) st.book.queueFuel
      { st with s := (st.book.levels ix).head }
    let st := { st with book := retire S st.book ix st.s }
    if st.stpStop then return .leave st
    return .again st
  return .leave st

/-- Matches an incoming order of side `S` against the opposite side, up to `limit`. -/
def sweep (S : Side) (b : OrderBook σ) (taker : OrderId) (takerOwner : OwnerId)
    (limit : Int) (qty : Qty) (stp : Stp) (sink : Sink) : Option (SweepState σ) :=
  Loop.runM (sweepLevel S taker takerOwner limit stp) b.levelFuel ⟨b, kNil, qty, false, sink⟩

/-- The FOK pre-check of one order of a level, with self-trade prevention on: the
verdict so far, or the quantity still needed. -/
def fillableMaker (b : OrderBook σ) (owner : OwnerId) (stp : Stp) :
    Nat × Qty → Loop.Pass (Nat × Qty) (Bool ⊕ Qty)
  | (s, need) =>
      if s = kNil then .leave (.inr need) else
      let q := b.store.qty s
      if b.store.owner s = owner then
        if stp = .cancelIncoming then .leave (.inl false)
        else if stp = .decrementCancel then
          if need ≤ q then .leave (.inl false) else .again (b.store.next s, need - q)
        else .again (b.store.next s, need)
      else if need ≤ q then .leave (.inl true)
      else .again (b.store.next s, need - q)

/-- The pre-check of an order of side `S` goes on at level `i`. -/
def withinLimit (S : Side) (limit i : Int) : Bool :=
  match S with
  | .buy => i ≤ limit
  | .sell => limit ≤ i ∧ 0 ≤ i

def fillableLevel (S : Side) (b : OrderBook σ) (limit : Int) (owner : OwnerId) (stp : Stp) :
    Int × Qty → Option (Loop.Pass (Int × Qty) Bool)
  | (i, need) => do
      if withinLimit S limit i then
        let lv := b.levels i.toNat
        if stp = .none then
          if need ≤ lv.qty then return .leave true
          return .again (b.nextLevel S i, need - lv.qty)
        match ← Loop.run (b.fillableMaker owner stp) b.queueFuel (lv.head, need) with
        | .inl verdict => return .leave verdict
        | .inr need => return .again (b.nextLevel S i, need)
      else return .leave false

/-- Would the sweep resolve all of `qty` within `limit` without the order being
cancelled? Level aggregates answer this unless self-trade prevention is on. -/
def fillable (S : Side) (b : OrderBook σ) (limit : Int) (qty : Qty) (owner : OwnerId) (stp : Stp) :
    Option Bool :=
  Loop.runM (fillableLevel S b limit owner stp) b.levelFuel (b.best S, qty)

/-- A level of side `S` gains its first order. -/
def openLevel (S : Side) (b : OrderBook σ) (ix : Nat) : OrderBook σ :=
  match S with
  | .buy =>
      { b with bidBits := b.bidBits.set ix
               bestBid := if b.bestBid < ix then (ix : Int) else b.bestBid }
  | .sell =>
      { b with askBits := b.askBits.set ix
               bestAsk := if (ix : Int) < b.bestAsk then (ix : Int) else b.bestAsk }

/-- Fills slot `s` and links it at the back of the queue at `ix`. -/
def enqueue (S : Side) (b : OrderBook σ) (s : Nat) (id : OrderId) (owner : OwnerId)
    (ix : Nat) (qty : Qty) (ts : UInt64) : OrderBook σ :=
  let store := b.store.init s id qty ix owner S ts
  let lv := b.levels ix
  let store := (store.setNext s kNil).setPrev s lv.tail
  let b := { b with store := store }
  let b := if lv.tail = kNil then (b.setLevel ix { lv with head := s }).openLevel S ix
    else { b with store := b.store.setNext lv.tail s }
  b.setLevel ix { b.levels ix with tail := s, qty := (b.levels ix).qty + qty }

def rest (S : Side) (b : OrderBook σ) (id : OrderId) (owner : OwnerId) (ix : Nat)
    (qty : Qty) (ts : UInt64) (sink : Sink) : Option (OrderBook σ × Sink) := do
  let (s, store) := b.store.alloc
  if s = kNil then
    return (b, sink.emit (canceledEvent b.symbol id S (b.priceOf ix) qty .bookFull))
  let b := ({ b with store := store } : OrderBook σ).enqueue S s id owner ix qty ts
  let ids ← b.ids.insert id s
  return ({ b with ids := ids }, sink.call (.insert b.ids b.store.id id s))

/-- Takes slot `s` out of the queue of its level. -/
def detach (b : OrderBook σ) (s : Nat) : OrderBook σ :=
  let ix := b.store.level s
  let lv := b.levels ix
  let n := b.store.next s
  let p := b.store.prev s
  let head := if s = lv.head then n else lv.head
  let store := if s = lv.head then b.store else b.store.setNext p n
  let tail := if s = lv.tail then (if head = kNil then kNil else p) else lv.tail
  let store := if s = lv.tail then store else store.setPrev n p
  ({ b with store := store } : OrderBook σ).setLevel ix ⟨lv.qty - b.store.qty s, head, tail⟩

/-- The level at `ix` of side `T` has lost its last order. -/
def closeLevel (T : Side) (b : OrderBook σ) (ix : Nat) : OrderBook σ :=
  match T with
  | .buy =>
      let bits := b.bidBits.clear ix
      { b with bidBits := bits
               bestBid := if (ix : Int) = b.bestBid then bits.findPrev (ix - 1) else b.bestBid }
  | .sell =>
      let bits := b.askBits.clear ix
      { b with askBits := bits
               bestAsk := if (ix : Int) = b.bestAsk then bits.findNext (ix + 1) else b.bestAsk }

/-- Removes slot `s` from its level's queue; retires the level if it empties. -/
def unlink (b : OrderBook σ) (s : Nat) : OrderBook σ :=
  let ix := b.store.level s
  let b' := b.detach s
  if (b'.levels ix).head = kNil then b'.closeLevel (b'.store.side s) ix else b'

/-- Unlinks and frees slot `s`, whose entry has been erased from the index. -/
def takeOut (b : OrderBook σ) (ids : OrderIndex) (s : Nat) : OrderBook σ :=
  let b := ({ b with ids := ids } : OrderBook σ).unlink s
  { b with store := b.store.release s }

/-- The price limit of a new order as a level index: `none` for a price outside the band. -/
def limitOf (S : Side) (b : OrderBook σ) (c : Command) : Option Int :=
  match c.ordType with
  | .market => some (match S with
      | .buy => (b.n : Int) - 1
      | .sell => 0)
  | .limit => (b.relOf c.price).map fun rel : Nat => (rel : Int)

/-- Does the pre-check kill the order? -/
def killed (S : Side) (b : OrderBook σ) (c : Command) (limit : Int) (stp : Stp) : Option Bool :=
  match c.tif with
  | .fok => (b.fillable S limit c.qty c.owner stp).map (!·)
  | _ => some false

/-- An accepted order is matched; what is left of it is cancelled or rests. -/
def execute (S : Side) (b : OrderBook σ) (c : Command) (limit : Int) (px : Price)
    (stp : Stp) (sink : Sink) :
    Option (OrderBook σ × Sink) := do
  let st ← b.sweep S c.orderId c.owner limit c.qty stp sink
  if st.qty = 0 then return (st.book, st.sink)
  if st.stpStop then
    return (st.book, st.sink.emit (canceledEvent b.symbol c.orderId S px st.qty .selfTrade))
  if c.ordType = .market ∨ c.tif ≠ .day then
    return (st.book, st.sink.emit (canceledEvent b.symbol c.orderId S px st.qty .iocExpired))
  st.book.rest S c.orderId c.owner limit.toNat st.qty c.ts st.sink

def addSide (S : Side) (b : OrderBook σ) (c : Command) (sink : Sink) :
    Option (OrderBook σ × Sink) := do
  if c.orderId = 0 then return (b, sink.emit (rejectedEvent c .invalidOrderId))
  if c.qty = 0 then return (b, sink.emit (rejectedEvent c .invalidQty))
  match limitOf S b c with
  | none => return (b, sink.emit (rejectedEvent c .invalidPrice))
  | some limit =>
  if (← b.ids.find c.orderId b.store.id) ≠ kNil then
    return (b, sink.emit (rejectedEvent c .duplicateOrderId))
  if c.flags &&& kFlagPostOnly ≠ 0 ∧ b.crosses S limit then
    return (b, sink.emit (rejectedEvent c .wouldCross))
  let px := c.eventPrice
  let sink := sink.emit (acceptedEvent b.symbol c.orderId S px c.qty)
  let stp := effectiveStp c.flags b.stp
  if ← b.killed S c limit stp then
    return (b, sink.emit (canceledEvent b.symbol c.orderId S px c.qty .fokUnfilled))
  b.execute S c limit px stp sink

def add (b : OrderBook σ) (c : Command) (sink : Sink) : Option (OrderBook σ × Sink) :=
  match c.side with
  | .buy => b.addSide .buy c sink
  | .sell => b.addSide .sell c sink

def cancel (b : OrderBook σ) (c : Command) (sink : Sink) : Option (OrderBook σ × Sink) := do
  let (s, ids) ← b.ids.erase c.orderId b.store.id
  if s = kNil then return (b, sink.emit (rejectedEvent c .unknownOrder))
  let side := b.store.side s
  let leaves := b.store.qty s
  let px := b.priceOf (b.store.level s)
  return (b.takeOut ids s, sink.emit
    (canceledEvent b.symbol c.orderId side px leaves .userCanceled))

def reenter (S : Side) (b : OrderBook σ) (id : OrderId) (owner : OwnerId) (ix : Nat) (qty : Qty)
    (ts : UInt64) (sink : Sink) : Option (OrderBook σ × Sink) := do
  let st ← b.sweep S id owner ix qty b.stp sink
  if st.qty = 0 then return (st.book, st.sink)
  if st.stpStop then
    return (st.book, st.sink.emit (canceledEvent b.symbol id S (b.priceOf ix) st.qty .selfTrade))
  st.book.rest S id owner ix st.qty ts st.sink

/-- Cancel/replace: a reduction at the same price amends in place; a price change or
a size increase re-enters the order at the back of the queue. -/
def modify (b : OrderBook σ) (c : Command) (sink : Sink) : Option (OrderBook σ × Sink) := do
  if c.qty = 0 then return (b, sink.emit (rejectedEvent c .invalidQty))
  let s ← b.ids.find c.orderId b.store.id
  if s = kNil then return (b, sink.emit (rejectedEvent c .unknownOrder))
  match b.relOf c.price with
  | none => return (b, sink.emit (rejectedEvent c .invalidPrice))
  | some ix =>
  let side := b.store.side s
  if ix = b.store.level s ∧ c.qty ≤ b.store.qty s then
    let b := b.subLevelQty ix (b.store.qty s - c.qty)
    return ({ b with store := b.store.setQty s c.qty },
      sink.emit (modifiedEvent b.symbol c.orderId side c.price c.qty))
  let owner := b.store.owner s
  let ids ← b.ids.eraseKnown c.orderId s
  let sink := sink.call (.eraseKnown b.ids c.orderId s)
  let sink := sink.emit (modifiedEvent b.symbol c.orderId side c.price c.qty)
  let b := b.takeOut ids s
  match side with
  | .buy => b.reenter .buy c.orderId owner ix c.qty c.ts sink
  | .sell => b.reenter .sell c.orderId owner ix c.qty c.ts sink

/-- One command, by its type, as the engine dispatches it. -/
def process (b : OrderBook σ) (c : Command) (sink : Sink) : Option (OrderBook σ × Sink) :=
  match c.type with
  | .newOrder => b.add c sink
  | .cancel => b.cancel c sink
  | .modify => b.modify c sink

/-- A command sequence, keeping the output of each command. -/
def run (b : OrderBook σ) : List Command → Option (OrderBook σ × List Sink)
  | [] => some (b, [])
  | c :: cs => do
      let (b, out) ← b.process c {}
      let (b, outs) ← b.run cs
      return (b, out :: outs)

/-- The queue of the level at `ix`, front first: price, id and quantity. -/
def visitLevel (b : OrderBook σ) (ix : Nat) : Option (List (Price × OrderId × Qty)) :=
  Loop.run (fun (st : Nat × List (Price × OrderId × Qty)) =>
    let (s, acc) := st
    if s = kNil then .leave acc
    else .again (b.store.next s, acc ++ [(b.priceOf ix, b.store.id s, b.store.qty s)]))
    b.queueFuel ((b.levels ix).head, [])

/-- A listing of side `T` goes on at level `i`. -/
def onLadder (b : OrderBook σ) (T : Side) (i : Int) : Bool :=
  match T with
  | .buy => 0 ≤ i
  | .sell => i < b.n

/-- The resting orders of one side in priority order. -/
def forEachOrder (b : OrderBook σ) (side : Side) : Option (List (Price × OrderId × Qty)) :=
  Loop.runM (fun (st : Int × List (Price × OrderId × Qty)) => do
    let (i, acc) := st
    if b.onLadder side i then
      return .again (b.nextLevel (opposite side) i, acc ++ (← b.visitLevel i.toNat))
    return .leave acc) b.levelFuel (b.best (opposite side), [])

/-- The levels of one side with their totals, best first. -/
def forEachLevel (b : OrderBook σ) (side : Side) : Option (List (Price × Qty)) :=
  Loop.run (fun ((i, acc) : Int × List (Price × Qty)) =>
    if b.onLadder side i then
      .again (b.nextLevel (opposite side) i, acc ++ [(b.priceOf i, (b.levels i.toNat).qty)])
    else .leave acc) b.levelFuel (b.best (opposite side), [])

/-- Total resting quantity at a price on one side: 0 if there is none or the price is outside the
band. -/
def levelQty (b : OrderBook σ) (side : Side) (px : Price) : Qty :=
  match b.relOf px with
  | none => 0
  | some i =>
      let bit := match side with
        | .buy => b.bidBits.test i
        | .sell => b.askBits.test i
      if bit then (b.levels i).qty else 0

/-- The outer `none` is a lookup that does not end. -/
def findOrder (b : OrderBook σ) (id : OrderId) : Option (Option OrderView) := do
  let s ← b.ids.find id b.store.id
  if s = kNil then return none
  return some ⟨b.priceOf (b.store.level s), b.store.qty s, b.store.side s, b.store.owner s⟩

/-- The audit of one queue: the links, the index entry and the fields of each slot. -/
def checkSlot (b : OrderBook σ) (side : Side) (ix : Nat) :
    Nat × Nat × UInt64 × Nat → Option
      (Loop.Pass (Nat × Nat × UInt64 × Nat) (Option (Nat × UInt64 × Nat)))
  | (s, last, sum, seen) => do
      if s = kNil then return .leave (some (last, sum, seen))
      if b.store.side s ≠ side ∨ b.store.level s ≠ ix ∨ b.store.qty s = 0 then return .leave none
      if last ≠ kNil ∧ b.store.prev s ≠ last then return .leave none
      if (← b.ids.find (b.store.id s) b.store.id) ≠ s then return .leave none
      if b.store.live < seen + 1 then return .leave none
      return .again (b.store.next s, s, sum + b.store.qty s, seen + 1)

def checkLevel (b : OrderBook σ) : Nat × Nat → Option (Loop.Pass (Nat × Nat) Bool)
  | (i, seen) => do
      if ¬ i < b.n then return .leave (seen = b.store.live ∧ seen = b.ids.size)
      let lv := b.levels i
      let bid := b.bidBits.test i
      let ask := b.askBits.test i
      if bid ∧ ask then return .leave false
      if !bid ∧ !ask then
        if lv.head ≠ kNil ∨ lv.tail ≠ kNil ∨ lv.qty ≠ 0 then return .leave false
        return .again (i + 1, seen)
      let side := if bid then Side.buy else Side.sell
      if lv.head = kNil then return .leave false
      match ← Loop.runM (b.checkSlot side i) (b.store.live + 2) (lv.head, kNil, 0, seen) with
      | none => return .leave false
      | some (last, sum, seen) =>
          if last ≠ lv.tail ∨ sum ≠ lv.qty then return .leave false
          return .again (i + 1, seen)

/-- Full structural audit. -/
def checkInvariants (b : OrderBook σ) : Option Bool :=
  if b.bestBid ≠ b.bidBits.findPrev ((b.n : Int) - 1) ∨ b.bestAsk ≠ b.askBits.findNext 0 then
    some false
  else if 0 ≤ b.bestBid ∧ b.bestAsk < b.n ∧ b.bestAsk ≤ b.bestBid then some false
  else Loop.runM b.checkLevel (b.n + 1) (0, 0)

end OrderBook
end ExchangeSim.Book
