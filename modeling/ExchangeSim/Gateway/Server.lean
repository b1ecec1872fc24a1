/- digest: The server around the gateway: it replays the journal that an earlier server left, and is
   killed at some point. -/

import ExchangeSim.Gateway.Books
import ExchangeSim.Journal.Cut

set_option autoImplicit false
set_option relaxedAutoImplicit false

namespace ExchangeSim.Gateway

open Lib (Bytes)
open Journal (JournalWriter journalScan)
open ExchangeSim.Stream (Publisher)

structure Publishing where
  ringLog2 : Nat := 20
  /-- Fault injection. -/
  drop : Nat → Bool := fun _ => false
  epoch : UInt32 := 1

structure ServerConfig where
  gateway : GatewayConfig := {}
  recover : Bool := true
  publish : Option Publishing := none

variable {G : Type}

structure Recovered (G : Type) where
  gate : G
  digest : List Event := []
  seq : UInt64 := 0
  maxOwner : OwnerId := 0
  maxOrderId : OrderId := 0

namespace Recovered

variable (desk : Desk G)

/-- What the scan does with a command; `none` where the engine would break its own invariants. -/
def apply (r : Recovered G) (c : Command) : Option (Recovered G) :=
  (desk.process r.gate c).map fun (g, events) =>
    { gate := g
      digest := r.digest ++ events
      seq := c.seq
      maxOwner := if r.maxOwner < c.owner then c.owner else r.maxOwner
      maxOrderId := if r.maxOrderId < c.orderId then c.orderId else r.maxOrderId }

def replay (r : Recovered G) (cs : List Command) : Option (Recovered G) := cs.foldlM (apply desk) r

end Recovered

/-- The gateway as the server enters its loop. -/
def Recovered.serve (r : Recovered G) (cfg : ServerConfig) (journal : JournalWriter) : State G :=
  let pub := cfg.publish.map fun p => Publisher.make p.ringLog2 p.drop (r.seq + 1) p.epoch
  start r.gate journal pub r.digest r.seq (r.maxOwner + 1) (r.maxOrderId + 1)

/-- The server up to its loop. `fresh` is a new gate, and `file` is the journal, if there is one;
`none` where the replay is undefined. -/
def server (desk : Desk G) (fresh : G) (cfg : ServerConfig) (file : Option Bytes) :
    Option (Except String (State G)) :=
  let created := some (.ok (({ gate := fresh } : Recovered G).serve cfg .create))
  match file with
  | none => created
  | some file =>
      if ¬ cfg.recover then created
      else
        match journalScan (file.length + 1) file with
        | none => none
        | some (.error e) => some (.error e)
        | some (.ok scan) =>
            match ({ gate := fresh } : Recovered G).replay desk scan.delivered,
                JournalWriter.recover (file.length + 1) file with
            | some r, some (.ok journal) => some (.ok (r.serve cfg journal))
            | some _, some (.error e) => some (.error e)
            | _, _ => none

/-- The journal file after a kill: what was flushed, and the first `k` bytes of what was not. -/
def State.remains (s : State G) (k : Nat) : Bytes :=
  s.repl.journal.file ++ s.repl.journal.buffer.take k

/-- The journal files that servers started one after another leave, each killed at any point of its
loop. -/
inductive Remains (desk : Desk G) (fresh : G) : Option Bytes → Prop
  | none : Remains desk fresh none
  | killed {file : Option Bytes} {cfg : ServerConfig} {s : State G}
      (before : Remains desk fresh file)
      (started : server desk fresh cfg file = some (.ok s)) (is : List Input) (k : Nat) :
      Remains desk fresh (some ((run cfg.gateway desk s is).remains k))

end ExchangeSim.Gateway
