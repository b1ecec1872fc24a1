/- digest: Core domain types of the exchange: commands, events and book configurations. -/

import Mathlib

set_option autoImplicit false
set_option relaxedAutoImplicit false

namespace ExchangeSim

/-- The null slot index, 0xFFFFFFFF. -/
def kNil : Nat := 0xFFFFFFFF

abbrev OrderId := UInt64
abbrev Price := Int64
abbrev Qty := UInt64
abbrev SymbolId := UInt32
abbrev OwnerId := UInt32

/-- A fixed-size array as its readers see it: the value at every index. The source
never bounds-checks an index; that indices stay in range is a fact of the
representation invariants, not of the container. -/
abbrev PageArray (α : Type) := Nat → α

inductive Side where
  | buy
  | sell
  deriving DecidableEq, Repr

inductive OrdType where
  | limit
  | market
  deriving DecidableEq, Repr

inductive Tif where
  | day
  | ioc
  | fok
  deriving DecidableEq, Repr

inductive MsgType where
  | newOrder
  | cancel
  | modify
  deriving DecidableEq, Repr

/-- Self-trade prevention modes, in the order of their codes 0, 1, 2, 3. -/
inductive Stp where
  | none
  | cancelResting
  | cancelIncoming
  | decrementCancel
  deriving DecidableEq, Repr

def kFlagPostOnly : UInt8 := 0x01
def kStpShift : UInt8 := 1
def kStpMask : UInt8 := 0x06

/-- The override in bits 1-2 of an order's flags, or the book's default if those
bits are zero. The mask leaves only the codes 0 to 3. -/
def effectiveStp (flags : UInt8) (bookDefault : Stp) : Stp :=
  let v := (flags &&& kStpMask) >>> kStpShift
  if v = 0 then bookDefault
  else if v = 1 then .cancelResting
  else if v = 2 then .cancelIncoming
  else .decrementCancel

def opposite : Side → Side
  | .buy => .sell
  | .sell => .buy

@[simp] theorem opposite_opposite (s : Side) : opposite (opposite s) = s := by cases s <;> rfl

theorem ne_opposite (s : Side) : s ≠ opposite s := by cases s <;> decide

theorem eq_opposite_of_ne {s t : Side} (h : t ≠ s) : t = opposite s := by
  cases s <;> cases t <;> simp_all [opposite]

structure Command where
  orderId : OrderId
  price : Price := 0
  seq : UInt64 := 0
  ts : UInt64 := 0
  qty : Qty := 0
  owner : OwnerId := 0
  symbol : SymbolId := 0
  type : MsgType
  side : Side := .buy
  ordType : OrdType := .limit
  tif : Tif := .day
  flags : UInt8 := 0
  deriving DecidableEq, Repr

/-- The price that a new order's own events carry. -/
def Command.eventPrice (c : Command) : Price :=
  match c.ordType with
  | .market => 0
  | .limit => c.price

inductive EventType where
  | accepted
  | rejected
  | trade
  | canceled
  | modified
  deriving DecidableEq, Repr

inductive Reason where
  | none
  | invalidOrderId
  | invalidQty
  | invalidPrice
  | duplicateOrderId
  | unknownOrder
  | unknownSymbol
  | wouldCross
  | bookFull
  | userCanceled
  | iocExpired
  | fokUnfilled
  | selfTrade
  | riskMaxQty
  | riskMaxNotional
  | riskCollar
  | riskRateLimit
  | riskHalted
  | unknownOwner
  deriving DecidableEq, Repr

/-- Outbound execution event. `request` is `none` where the source leaves the byte
at zero, which is no `MsgType`. -/
structure Event where
  orderId : OrderId
  makerId : OrderId := 0
  price : Price := 0
  qty : Qty := 0
  leaves : Qty := 0
  symbol : SymbolId
  type : EventType
  reason : Reason := .none
  side : Side
  request : Option MsgType := Option.none
  deriving DecidableEq, Repr

def acceptedEvent (sym : SymbolId) (id : OrderId) (side : Side) (px : Price) (qty : Qty) : Event :=
  { type := .accepted, symbol := sym, orderId := id, side := side, price := px, qty := qty }

def rejectedEvent (c : Command) (r : Reason) : Event :=
  { type := .rejected, symbol := c.symbol, orderId := c.orderId, side := c.side,
    request := some c.type, reason := r }

def tradeEvent (sym : SymbolId) (taker maker : OrderId) (takerSide : Side) (px : Price) (qty : Qty)
    (makerLeaves : Qty) : Event :=
  { type := .trade, symbol := sym, orderId := taker, makerId := maker, side := takerSide,
    price := px, qty := qty, leaves := makerLeaves }

def canceledEvent (sym : SymbolId) (id : OrderId) (side : Side) (px : Price) (qty : Qty)
    (r : Reason) : Event :=
  { type := .canceled, symbol := sym, orderId := id, side := side, price := px, qty := qty,
    reason := r }

def modifiedEvent (sym : SymbolId) (id : OrderId) (side : Side) (px : Price) (qty : Qty) : Event :=
  { type := .modified, symbol := sym, orderId := id, side := side, price := px, qty := qty }

/-- Decrement-and-cancel self-trade prevention reduced an order without a trade. -/
def stpDecrementEvent (sym : SymbolId) (id : OrderId) (side : Side) (px : Price)
    (newQty : Qty) : Event :=
  { modifiedEvent sym id side px newQty with reason := .selfTrade }

/-- The book accepts the prices of `[minPrice, minPrice + numLevels)` and holds at
most `maxOrders` resting orders. -/
structure BookConfig where
  minPrice : Price := 0
  numLevels : Nat := 65536
  maxOrders : Nat := 262144
  stp : Stp := .none
  deriving DecidableEq, Repr

/-- What the constructors of the book and of its bitmaps check: they throw otherwise. -/
structure BookConfig.Accepted (cfg : BookConfig) : Prop where
  levels_pos : cfg.numLevels ≠ 0
  levels_aligned : cfg.numLevels % 64 = 0
  levels_le : cfg.numLevels ≤ 2 ^ 30
  orders_pos : cfg.maxOrders ≠ 0
  orders_lt : cfg.maxOrders < kNil

/-- The price of the top level is representable. -/
def BookConfig.BandFits (cfg : BookConfig) : Prop :=
  cfg.minPrice.toInt + cfg.numLevels - 1 < 2 ^ 63

instance (cfg : BookConfig) : Decidable cfg.Accepted :=
  decidable_of_iff
    (cfg.numLevels ≠ 0 ∧ cfg.numLevels % 64 = 0 ∧ cfg.numLevels ≤ 2 ^ 30 ∧
      cfg.maxOrders ≠ 0 ∧ cfg.maxOrders < kNil)
    ⟨fun ⟨a, b, c, d, e⟩ => ⟨a, b, c, d, e⟩, fun ⟨a, b, c, d, e⟩ => ⟨a, b, c, d, e⟩⟩

instance (cfg : BookConfig) : Decidable cfg.BandFits := by
  unfold BookConfig.BandFits; infer_instance

end ExchangeSim
