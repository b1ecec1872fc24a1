/- digest: The multi-symbol engine and the risk gate between the sequencer and the engine. -/

import ExchangeSim.Book.OrderBook

set_option autoImplicit false
set_option relaxedAutoImplicit false

namespace ExchangeSim.Engine

open Book (OrderBook OrderView StoreLayout)

/-- What the engine asks of the book of one symbol. -/
class BookType (B : Type) where
  /-- The events of a command, in order; `none` where the book breaks its own invariants. -/
  process : B → Command → Option (B × List Event)
  findOrder : B → OrderId → Option OrderView
  levelQty : B → Side → Price → Qty

/-- A lookup always ends in a book that keeps its invariants. -/
instance {σ : Type} [StoreLayout σ] : BookType (OrderBook σ) where
  process b c := (b.process c {}).map fun r => (r.1, r.2.events)
  findOrder b id := (b.findOrder id).join
  levelQty := OrderBook.levelQty

variable {B : Type} [BookType B]

structure MatchingEngine (B : Type) where
  numSymbols : UInt32
  books : PageArray B

namespace MatchingEngine

/-- The books are independent; each has its index as its symbol. -/
def make {σ : Type} [StoreLayout σ] (hash : Book.IndexHash) (numSymbols : UInt32)
    (cfg : BookConfig) :
    MatchingEngine (OrderBook σ) where
  numSymbols := numSymbols
  books := fun s => .make hash (UInt32.ofNat s) cfg

def book (e : MatchingEngine B) (s : SymbolId) : B := e.books s.toNat

def process (e : MatchingEngine B) (c : Command) : Option (MatchingEngine B × List Event) :=
  if e.numSymbols ≤ c.symbol then some (e, [rejectedEvent c .unknownSymbol])
  else (BookType.process (e.book c.symbol) c).map fun r =>
    ({ e with books := Function.update e.books c.symbol.toNat r.1 }, r.2)

end MatchingEngine

structure RiskConfig where
  maxQty : Qty := 1000000
  /-- Price times quantity, per order; 0 disables. -/
  maxNotional : UInt64 := 2 ^ 40
  /-- 0 disables. -/
  collarTicks : Price := 0
  maxOwners : UInt32 := 2 ^ 16
  /-- New orders and modifies of an owner; 0 disables. -/
  ratePerSec : UInt64 := 0
  burst : UInt64 := 100
  ticksPerSec : UInt64 := 1000000000
  deriving DecidableEq, Repr

structure RiskGate (B : Type) where
  engine : MatchingEngine B
  cfg : RiskConfig
  /-- The last trade of each symbol, 0 before the first. -/
  lastPx : PageArray Price
  halted : PageArray Bool
  haltAll : Bool
  /-- The theoretical arrival time of each owner. -/
  tat : PageArray UInt64
  interval : UInt64
  rejected : UInt64

namespace RiskGate

def make (engine : MatchingEngine B) (cfg : RiskConfig) : RiskGate B where
  engine := engine
  cfg := cfg
  lastPx := fun _ => 0
  halted := fun _ => false
  haltAll := false
  tat := fun _ => 0
  interval := if cfg.ratePerSec ≠ 0 then cfg.ticksPerSec / cfg.ratePerSec else 0
  rejected := 0

/-- Stops new orders and modifies on one symbol until `resume`. -/
def halt (g : RiskGate B) (s : SymbolId) : RiskGate B :=
  if s < g.engine.numSymbols then { g with halted := Function.update g.halted s.toNat true } else g

def resume (g : RiskGate B) (s : SymbolId) : RiskGate B :=
  if s < g.engine.numSymbols then { g with halted := Function.update g.halted s.toNat false } else g

def setHaltAll (g : RiskGate B) (on : Bool) : RiskGate B := { g with haltAll := on }

/-- Price times quantity over the limit, tested without the product. -/
def overNotional (cfg : RiskConfig) (c : Command) : Bool :=
  cfg.maxNotional ≠ 0 ∧ c.qty ≠ 0 ∧
    cfg.maxNotional / c.qty < (if c.price < 0 then 0 else c.price).toUInt64

def outsideCollar (cfg : RiskConfig) (last : Price) (c : Command) : Bool :=
  cfg.collarTicks ≠ 0 ∧ last ≠ 0 ∧
    let d := c.price - last
    cfg.collarTicks < (if d < 0 then -d else d)

/-- The generic cell rate algorithm: refuses the message, or moves the owner's arrival time. -/
def rateLimit (g : RiskGate B) (c : Command) : Reason × RiskGate B :=
  if g.interval ≠ 0 then
    let tat := g.tat c.owner.toNat
    let slack := g.interval * (if g.cfg.burst ≠ 0 then g.cfg.burst - 1 else 0)
    let allowedFrom := if slack < tat then tat - slack else 0
    if c.ts < allowedFrom then (.riskRateLimit, g)
    else
      (.none, { g with
        tat := Function.update g.tat c.owner.toNat
          ((if c.ts < tat then tat else c.ts) + g.interval) })
  else (.none, g)

def check (g : RiskGate B) (c : Command) : Reason × RiskGate B :=
  if g.engine.numSymbols ≤ c.symbol then (.none, g)
  else if g.haltAll ∨ g.halted c.symbol.toNat then (.riskHalted, g)
  else if g.cfg.maxQty < c.qty then (.riskMaxQty, g)
  else
    let priced := c.type = .modify ∨ c.ordType = .limit
    if priced ∧ overNotional g.cfg c then (.riskMaxNotional, g)
    else if priced ∧ outsideCollar g.cfg (g.lastPx c.symbol.toNat) c then (.riskCollar, g)
    else if c.type = .newOrder ∨ c.type = .modify then
      if g.cfg.maxOwners ≤ c.owner then (.unknownOwner, g) else g.rateLimit c
    else (.none, g)

/-- What the gate learns from an event on its way out. -/
def tap (numSymbols : UInt32) (lastPx : PageArray Price) (e : Event) : PageArray Price :=
  if e.type = .trade ∧ e.symbol < numSymbols then
    Function.update lastPx e.symbol.toNat e.price else lastPx

/-- Cancels are always allowed. -/
def process (g : RiskGate B) (c : Command) : Option (RiskGate B × List Event) :=
  let (r, g) := if c.type ≠ .cancel then g.check c else (.none, g)
  if r ≠ .none then some ({ g with rejected := g.rejected + 1 }, [rejectedEvent c r])
  else (g.engine.process c).map fun (engine, events) =>
    ({ g with engine := engine, lastPx := events.foldl (tap g.engine.numSymbols) g.lastPx }, events)

end RiskGate
end ExchangeSim.Engine
