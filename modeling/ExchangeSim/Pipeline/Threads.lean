/- digest: The exchange as three threads that two rings join, one atomic step of one thread at a
   time. -/

import ExchangeSim.Engine.RiskGate
import ExchangeSim.Engine.Sinks
import ExchangeSim.Engine.SpscQueue
import ExchangeSim.Wire.Stream

set_option autoImplicit false
set_option relaxedAutoImplicit false

namespace ExchangeSim.Pipeline

open Lib (Bytes)
open Engine (SpscQueue RingSize MatchingEngine CountingSink EventDigest)

inductive MdKind where
  | trade
  | bbo
  deriving DecidableEq, Repr

structure MdMsg where
  ingressTs : UInt64
  pxA : Price
  pxB : Price
  qtyA : UInt64
  qtyB : UInt64
  symbol : SymbolId
  kind : MdKind
  side : Side
  deriving DecidableEq, Repr

/-- INT64_MIN -/
def noPrice : Price := Int64.minValue

structure Tob where
  bid : Price := noPrice
  ask : Price := noPrice
  bidQty : UInt64 := 0
  askQty : UInt64 := 0
  deriving DecidableEq, Repr

structure Matcher (E : Type) where
  process : E → Command → Option (E × List Event)
  symbols : UInt32
  tob : E → SymbolId → Tob

section Top

open Book (OrderBook StoreLayout)

variable {σ : Type} [StoreLayout σ]

def tobOf (b : OrderBook σ) : Tob where
  bid := if 0 ≤ b.bestBid then b.priceOf b.bestBid else noPrice
  ask := if b.bestAsk < b.n then b.priceOf b.bestAsk else noPrice
  bidQty := if 0 ≤ b.bestBid then (b.levels b.bestBid.toNat).qty else 0
  askQty := if b.bestAsk < b.n then (b.levels b.bestAsk.toNat).qty else 0

/-- The engine of the program. -/
def matcher (symbols : UInt32) : Matcher (MatchingEngine (OrderBook σ)) where
  process := MatchingEngine.process
  symbols := symbols
  tob e s := tobOf (e.book s)

end Top

/-! ### The ends of a ring -/

section Ends

variable {α : Type} (q : RingSize)

/-- What `try_push` returns with the next step, if it returns. -/
def pushed? (s : SpscQueue α) : Option Bool :=
  match s.producer with
  | .storing _ _ => some true
  | .checking _ _ => match (s.produce q).producer with
      | .idle => some false
      | _ => none
  | _ => none

/-- A thread waits for an element: it calls `front`, and where that finds nothing it loads the flag
of the thread before it, and calls `front` once more if it is set. -/
inductive Waiting where
  | call
  | look
  | flag
  | callAgain
  | lookAgain
  deriving DecidableEq, Repr

inductive Awaited where
  | waiting (w : Waiting)
  /-- `front` has handed out an element. -/
  | element
  /-- There will be no more. -/
  | ended
  deriving DecidableEq, Repr

/-- `done` is the flag. -/
def await (s : SpscQueue α) (done : Bool) : Waiting → SpscQueue α × Awaited
  | .call => (s.step q .front, .waiting .look)
  | .look =>
      let s := s.step q .consume
      (s, if s.handed.isSome then .element else .waiting .flag)
  | .flag => (s, .waiting (if done then .callAgain else .call))
  | .callAgain => (s.step q .front, .waiting .lookAgain)
  | .lookAgain =>
      let s := s.step q .consume
      (s, if s.handed.isSome then .waiting .call else .ended)

/-- What the pointer that `front` has handed out points to. -/
def pointee (s : SpscQueue α) : Option α := s.handed.map s.buf

end Ends

/-! ### The threads -/

inductive FeedPc where
  | decode
  /-- About to call `try_push`. -/
  | push (c : Command)
  | pushing (c : Command)
  | finish
  | done

structure Feed where
  pc : FeedPc := .decode
  off : Nat := 0
  fed : UInt64 := 0
  malformed : UInt64 := 0
  inStalls : UInt64 := 0

inductive MatchPc where
  | await (w : Waiting)
  | take
  /-- The messages still to be published, and whether the top of the book has been looked at. -/
  | publish (ms : List MdMsg) (topped : Bool)
  | pushing (m : MdMsg) (ms : List MdMsg) (topped : Bool)
  | top
  | pop
  | popping
  | finish
  | done
  /-- The engine has broken its own invariants. -/
  | crashed

structure Matching (E : Type) where
  pc : MatchPc := .await .call
  engine : E
  tob : PageArray Tob := fun _ => {}
  counts : CountingSink := {}
  processed : UInt64 := 0
  mdStalls : UInt64 := 0

inductive PublishPc where
  | await (w : Waiting)
  | take
  | pop
  | popping
  | done
  deriving DecidableEq, Repr

structure Publishing where
  pc : PublishPc := .await .call
  mdMsgs : UInt64 := 0
  mdDigest : EventDigest := {}

structure State (E : Type) where
  qIn : SpscQueue Command
  qMd : SpscQueue MdMsg
  feed : Feed := {}
  matching : Matching E
  publishing : Publishing := {}
  feedDone : Bool := false
  engineDone : Bool := false

/-- Who makes the next step. The feed reads the clock where it decodes. -/
inductive Turn where
  | feed (now : UInt64)
  | matching
  | publishing

structure Setup where
  qIn : RingSize
  qMd : RingSize
  wireBuf : Bytes

variable {E : Type}

def tradeMsgs (ingress : UInt64) (events : List Event) : List MdMsg :=
  (events.filter fun e => e.type = .trade).map fun e =>
    ⟨ingress, e.price, 0, e.qty, 0, e.symbol, .trade, e.side⟩

def bboMsg (c : Command) (t : Tob) : MdMsg :=
  ⟨c.ts, t.bid, t.ask, t.bidQty, t.askQty, c.symbol, .bbo, .buy⟩

/-- The words of the value-initialised event that the publisher folds a message into. -/
def MdMsg.words (m : MdMsg) : List UInt64 :=
  [0, 0, (m.pxA ^^^ m.pxB).toUInt64, m.qtyA ^^^ m.qtyB, 0, m.symbol.toUInt64]

namespace State

variable (u : Setup) (m : Matcher E) (s : State E)

/-- A step of the thread that decodes the capture. -/
def feedStep (now : UInt64) : State E :=
  match s.feed.pc with
  | .decode =>
      match Wire.next u.wireBuf s.feed.off with
      | .command c n =>
          { s with feed := { s.feed with pc := .push { c with ts := now }, off := s.feed.off + n } }
      | .skip n =>
          { s with feed := { s.feed with
            off := s.feed.off + n, malformed := s.feed.malformed + 1 } }
      | .wait | .lost => { s with feed := { s.feed with pc := .finish } }
  | .push c =>
      { s with qIn := s.qIn.step u.qIn (.tryPush c), feed := { s.feed with pc := .pushing c } }
  | .pushing c =>
      let feed := match pushed? u.qIn s.qIn with
        | some true => { s.feed with pc := .decode, fed := s.feed.fed + 1 }
        | some false => { s.feed with pc := .push c, inStalls := s.feed.inStalls + 1 }
        | none => s.feed
      { s with qIn := s.qIn.step u.qIn .produce, feed := feed }
  | .finish => { s with feed := { s.feed with pc := .done }, feedDone := true }
  | .done => s

/-- A step of the thread that runs the engine. -/
def matchStep : State E :=
  let t := s.matching
  match t.pc with
  | .await w =>
      let r := await u.qIn s.qIn s.feedDone w
      let pc := match r.2 with
        | .waiting w => .await w
        | .element => .take
        | .ended => .finish
      { s with qIn := r.1, matching := { t with pc := pc } }
  | .take =>
      match pointee s.qIn with
      | none => { s with matching := { t with pc := .crashed } }
      | some c => match m.process t.engine c with
        | none => { s with matching := { t with pc := .crashed } }
        | some (engine, events) =>
            { s with
              matching := { t with
                pc := .publish (tradeMsgs c.ts events) false
                engine := engine
                counts := events.foldl CountingSink.onEvent t.counts } }
  | .publish [] topped => { s with matching := { t with pc := if topped then .pop else .top } }
  | .publish (x :: ms) topped =>
      { s with qMd := s.qMd.step u.qMd (.tryPush x), matching := { t with
        pc := .pushing x ms topped } }
  | .pushing x ms topped =>
      let t := match pushed? u.qMd s.qMd with
        | some true => { t with pc := .publish ms topped }
        | some false => { t with pc := .publish (x :: ms) topped, mdStalls := t.mdStalls + 1 }
        | none => t
      { s with qMd := s.qMd.step u.qMd .produce, matching := t }
  | .top =>
      match pointee s.qIn with
      | none => { s with matching := { t with pc := .crashed } }
      | some c =>
          if c.symbol < m.symbols then
            let now := m.tob t.engine c.symbol
            if now = t.tob c.symbol.toNat then { s with matching := { t with pc := .pop } }
            else
              { s with
                matching := { t with
                  pc := .publish [bboMsg c now] true
                  tob := Function.update t.tob c.symbol.toNat now } }
          else { s with matching := { t with pc := .pop } }
  | .pop => { s with
      qIn := s.qIn.step u.qIn .pop,
      matching := { t with pc := .popping, processed := t.processed + 1 } }
  | .popping =>
      { s with qIn := s.qIn.step u.qIn .consume, matching := { t with pc := .await .call } }
  | .finish => { s with matching := { t with pc := .done }, engineDone := true }
  | .done => s
  | .crashed => s

/-- A step of the thread that consumes the market data. -/
def publishStep : State E :=
  let t := s.publishing
  match t.pc with
  | .await w =>
      let r := await u.qMd s.qMd s.engineDone w
      let pc := match r.2 with
        | .waiting w => .await w
        | .element => .take
        | .ended => .done
      { s with qMd := r.1, publishing := { t with pc := pc } }
  | .take =>
      let digest := match pointee s.qMd with
        | none => t.mdDigest
        | some x => t.mdDigest.onWords x.words
      { s with publishing := { t with pc := .pop, mdMsgs := t.mdMsgs + 1, mdDigest := digest } }
  | .pop => { s with qMd := s.qMd.step u.qMd .pop, publishing := { t with pc := .popping } }
  | .popping =>
      { s with qMd := s.qMd.step u.qMd .consume, publishing := { t with pc := .await .call } }
  | .done => s

def step : Turn → State E
  | .feed now => s.feedStep u now
  | .matching => s.matchStep u m
  | .publishing => s.publishStep u

def run (turns : List Turn) : State E := turns.foldl (step u m) s

end State

/-- The threads at their start; the elements of the rings are zeroes. -/
def start (engine : E) (zeroIn : Command) (zeroMd : MdMsg) : State E where
  qIn := .make zeroIn
  qMd := .make zeroMd
  matching := { engine := engine }

end ExchangeSim.Pipeline
