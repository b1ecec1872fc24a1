/- digest: The gateway's translation between client order ids and exchange order ids. -/

import ExchangeSim.Common

set_option autoImplicit false
set_option relaxedAutoImplicit false

namespace ExchangeSim.Gateway

structure Key where
  clientId : OrderId
  symbol : SymbolId
  owner : OwnerId
  deriving DecidableEq, Repr

structure ClientIdMap where
  fwd : Key → Option OrderId
  rev : OrderId → Option Key
  next : OrderId

namespace ClientIdMap

def make (firstExchangeId : OrderId) : ClientIdMap :=
  ⟨fun _ => none, fun _ => none, firstExchangeId⟩

/-- A new order: the exchange id of the live order with this client id, else a fresh one. -/
def forNew (m : ClientIdMap) (k : Key) : ClientIdMap × OrderId :=
  if k.clientId = 0 then (m, 0)
  else match m.fwd k with
  | some x => (m, x)
  | none =>
      -- `emplace` on an id that `rev` already holds changes nothing.
      let rev := if (m.rev m.next).isSome then m.rev else Function.update m.rev m.next (some k)
      (⟨Function.update m.fwd k (some m.next), rev, m.next + 1⟩, m.next)

/-- A cancel or modify: the exchange id of a live order, or 0. -/
def find (m : ClientIdMap) (k : Key) : OrderId := (m.fwd k).getD 0

/-- What the viewer is shown for an exchange id: its own client id, or 0. -/
def toClient (m : ClientIdMap) (x : OrderId) (viewer : OwnerId) : OrderId :=
  match m.rev x with
  | some k => if k.owner = viewer then k.clientId else 0
  | none => 0

def ownerOf (m : ClientIdMap) (x : OrderId) : OwnerId :=
  match m.rev x with
  | some k => k.owner
  | none => 0

def retire (m : ClientIdMap) (x : OrderId) : ClientIdMap :=
  match m.rev x with
  | none => m
  | some k => { m with fwd := Function.update m.fwd k none, rev := Function.update m.rev x none }

end ClientIdMap
end ExchangeSim.Gateway
