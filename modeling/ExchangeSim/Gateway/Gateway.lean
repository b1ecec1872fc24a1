/- digest: The gateway's event loop as a machine: sessions, the sequencer, the journal and the
   commit. -/

import ExchangeSim.Engine.RiskGate
import ExchangeSim.Gateway.ClientIds
import ExchangeSim.Journal.Journal
import ExchangeSim.Stream.Publisher
import ExchangeSim.Wire.Stream

set_option autoImplicit false
set_option relaxedAutoImplicit false

namespace ExchangeSim.Gateway

open Lib (Bytes)
open Journal (JournalWriter recordBytes)
open ExchangeSim.Stream (Publisher Datagram Sent)

abbrev Fd := Nat

inductive SyncMode where
  | os
  | batch
  | every
  deriving DecidableEq, Repr

structure GatewayConfig where
  syncMode : SyncMode := .os
  batch : UInt64 := 1000
  waitReplica : Bool := false
  replicaTimeoutMs : UInt64 := 500
  haltOnReplicaLoss : Bool := true
  /-- There is a market-data publisher. -/
  marketData : Bool := false
  trustClientIds : Bool := false

/-- Why the gateway stopped acknowledging. -/
inductive Halt where
  | fenced
  | replicaLost
  | journalError
  deriving DecidableEq, Repr

/-- An execution report as the client sees it; `done` ends the response to a command. -/
inductive Report where
  | exec (event : Event) (clientSeq : UInt64)
  | done (symbol : SymbolId) (clientSeq : UInt64)
  deriving DecidableEq, Repr

/-- A report in an output buffer. The sequence number of the command that produced it is not
part of the bytes; it is kept to state what may leave when. -/
structure Item where
  seq : UInt64
  report : Report
  deriving DecidableEq, Repr

def kReportSize : Nat := 64

structure Conn where
  owner : OwnerId
  inp : Bytes := []
  out : List Item := []
  /-- Counts bytes, of which a report has `kReportSize`. -/
  outOff : Nat := 0
  wantOut : Bool := false
  paused : Bool := false
  deriving DecidableEq

/-- The reports of which some byte has not been sent. -/
def Conn.unsent (c : Conn) : List Item := c.out.drop (c.outOff / kReportSize)

structure MdLevel where
  symbol : SymbolId
  side : Side
  px : Price
  deriving DecidableEq, Repr

structure MdBatch where
  levels : List MdLevel := []
  trades : List Event := []
  deriving DecidableEq, Repr

def MdBatch.note (m : MdBatch) (e : Event) : MdBatch :=
  match e.type with
  | .trade =>
      { levels := m.levels ++ [⟨e.symbol, opposite e.side, e.price⟩], trades := m.trades ++ [e] }
  | .accepted | .canceled | .modified =>
      if e.price ≠ 0 then { m with levels := m.levels ++ [⟨e.symbol, e.side, e.price⟩] } else m
  | .rejected => m

/-- The order in which the levels of a batch are sorted before they are published. -/
def MdLevel.le (a b : MdLevel) : Bool :=
  if a.symbol ≠ b.symbol then a.symbol < b.symbol
  else if a.side ≠ b.side then a.side = .buy
  else a.px ≤ b.px

/-- The risk gate and the engine behind it, as the gateway uses them. `process` is `none`
where the engine would break its own invariants. -/
structure Desk (G : Type) where
  process : G → Command → Option (G × List Event)
  numSymbols : G → Nat
  findOrder : G → SymbolId → OrderId → Option (Side × Price)
  levelQty : G → SymbolId → Side → Price → Qty

def Desk.contains {G : Type} (d : Desk G) (g : G) (s : SymbolId) (x : OrderId) : Bool :=
  (d.findOrder g s x).isSome

/-- The desk of the server. -/
def desk {B : Type} [Engine.BookType B] : Desk (Engine.RiskGate B) where
  process := Engine.RiskGate.process
  numSymbols g := g.engine.numSymbols.toNat
  findOrder g s x := (Engine.BookType.findOrder (g.engine.book s) x).map fun v => (v.side, v.price)
  levelQty g s side px := Engine.BookType.levelQty (g.engine.book s) side px

/-- What the gateway does to the world around it. -/
inductive Action where
  | poll
  | accept (fd : Fd) (owner : OwnerId)
  | close (fd : Fd)
  | closeAll
  | append (c : Command)
  | flush
  | process (fd : Fd) (c : Command) (events : List Event)
  /-- Nothing holds the responses of the batch back any longer. -/
  | commit
  | datagram (s : Sent)
  /-- The reports with a byte passed to `send`, what the publisher's `acked` is at that time, and
  whether the replica has been declared lost. -/
  | send (fd : Fd) (items : List Item) (acked : UInt64) (lost : Bool)
  | halt (why : Halt)
  | replicaLost
  | marketData (trades : List Event) (levels : List (MdLevel × Qty))
  deriving DecidableEq

/-- An event of `epoll_wait`. `readable` stands for EPOLLIN, EPOLLHUP or EPOLLERR. -/
inductive Ready where
  | listener
  | control
  | conn (fd : Fd) (writable readable : Bool)
  deriving DecidableEq, Repr

inductive SendResult where
  | sent (n : Nat)
  | again
  | error
  deriving DecidableEq, Repr

inductive Received where
  | data (p : Bytes)
  | again
  | closed
  deriving DecidableEq, Repr

/-- What the operating system and the network answer during one step; each step reads the
fields it asks for. A write that fails says how many bytes it still wrote. -/
structure Input where
  stop : Bool := false
  ready : List Ready := []
  accepted : List Fd := []
  group : List Datagram := []
  control : List (Nat × Datagram) := []
  received : Received := .again
  now : UInt64 := 0
  flushNow : UInt64 := 0
  append : Option Nat := none
  flush : Option Nat := none
  fsync : Bool := true
  sends : List SendResult := []
  writes : List (List SendResult) := []

structure Sessions where
  conns : Fd → Option Conn := fun _ => none
  ownerFd : OwnerId → Option Fd := fun _ => none
  nextOwner : OwnerId

/-- The sequencer with what it sequences commands for. The digest is the events it has been fed. -/
structure Core (G : Type) where
  ids : ClientIdMap
  gate : G
  seq : UInt64
  digest : List Event := []

structure Replication where
  journal : JournalWriter
  journalFailed : Bool := false
  pub : Option Publisher
  replicaLost : Bool := false
  halted : Option Halt := none
  sinceSync : UInt64 := 0

structure Batch where
  journaledAny : Bool := false
  touched : List Fd := []
  md : MdBatch := {}

/-- Where the loop is. -/
inductive Pc where
  | poll
  /-- Before the next event of a batch; without one, at the commit. -/
  | batch (rest : List Ready)
  /-- In the decode loop of a session. -/
  | reading (fd : Fd) (off : Nat) (rest : List Ready)
  /-- A command is in the journal and goes to the engine next. -/
  | logged (fd : Fd) (off : Nat) (clientSeq : UInt64) (clientId : OrderId) (c : Command)
      (rest : List Ready)
  | waiting (since : UInt64)
  /-- The replica has not acknowledged within the timeout. -/
  | expiring
  | release
  | shutdown
  | stopped
  /-- An exception or an undefined step ended the process. -/
  | crashed
  deriving DecidableEq

/-- `released` is the last command whose batch has been committed; the log is everything the
gateway has done. Neither is part of the program. -/
structure State (G : Type) where
  sessions : Sessions
  core : Core G
  repl : Replication
  batch : Batch := {}
  pc : Pc := .poll
  released : UInt64
  log : List Action := []

variable {G : Type}

def State.emit (s : State G) (acts : List Action) : State G := { s with log := s.log ++ acts }

def State.at (s : State G) (pc : Pc) : State G := { s with pc := pc }

/-! ### Sessions -/

/-- The accept loop. -/
def accept (s : State G) : List Fd → State G
  | [] => s
  | fd :: fds =>
      let n := s.sessions
      let owner := n.nextOwner
      let conns := if (n.conns fd).isSome then n.conns else Function.update n.conns fd
        (some { owner := owner })
      let s := { s with sessions := ⟨conns, Function.update n.ownerFd owner (some fd), owner + 1⟩ }
      accept (s.emit [.accept fd owner]) fds

def closeConn (s : State G) (fd : Fd) : State G :=
  let n := s.sessions
  let n := match n.conns fd with
    | none => n
    | some c => { n with
        conns := Function.update n.conns fd none,
        ownerFd := Function.update n.ownerFd c.owner none }
  State.emit { s with sessions := n } [.close fd]

/-- The loop of `try_write`: the connection with what was sent taken off, or `none` for a connection
error, and what each call of `send` was given. -/
def sendLoop (c : Conn) : List SendResult → Option Conn × List (List Item)
  | [] => if c.outOff < c.out.length * kReportSize then (some c, [c.unsent]) else (some c, [])
  | r :: rs =>
      if c.outOff < c.out.length * kReportSize then
        match r with
        | .sent 0 => (none, [c.unsent])
        | .sent n =>
            let left := c.out.length * kReportSize - c.outOff
            let (c', sent) := sendLoop { c with outOff := c.outOff + min n left } rs
            (c', c.unsent :: sent)
        | .again => (some c, [c.unsent])
        | .error => (none, [c.unsent])
      else (some c, [])

/-- What `try_write` does after its loop; the registration with epoll follows `wantOut` and
`paused`. -/
def settle (c : Conn) : Conn :=
  let c := if c.outOff = c.out.length * kReportSize then { c with out := [], outOff := 0 } else c
  { c with
    wantOut := decide (c.outOff < c.out.length * kReportSize)
    paused := decide (c.out.length * kReportSize - c.outOff > 16 * 2 ^ 20) }

def Replication.acked (r : Replication) : UInt64 := (r.pub.map Publisher.acked).getD 0

/-- `try_write`, and the closing of the connection if it fails. -/
def tryWrite (s : State G) (fd : Fd) (answers : List SendResult) : State G :=
  match s.sessions.conns fd with
  | none => s
  | some c =>
      let (c', sent) := sendLoop c answers
      let s := s.emit (sent.map fun items => .send fd items s.repl.acked s.repl.replicaLost)
      match c' with
      | none => closeConn s fd
      | some c' =>
          { s with sessions.conns := Function.update s.sessions.conns fd (some (settle c')) }

/-! ### The journal and the publisher -/

def haltWith (s : State G) (why : Halt) : State G :=
  State.emit { s with repl.halted := some why } [.halt why]

/-- `journal_io` of a flush. -/
def journalFlush (s : State G) (failed : Option Nat) : State G × Bool :=
  if s.repl.journalFailed then (s, false)
  else match failed with
  | none => (State.emit { s with repl.journal := s.repl.journal.flush } [.flush], true)
  | some k =>
      let w := s.repl.journal
      let w := { file := w.file ++ w.buffer.take k, buffer := w.buffer.drop k : JournalWriter }
      (haltWith { s with repl.journal := w, repl.journalFailed := true } .journalError, false)

/-- `journal_io` of a sync: a flush, then the fsync. -/
def journalSync (s : State G) (failed : Option Nat) (fsync : Bool) : State G × Bool :=
  let (s, ok) := journalFlush s failed
  if ok ∧ ¬ fsync then (haltWith { s with repl.journalFailed := true } .journalError, false)
  else (s, ok)

/-- The publisher takes a call, and what it sends leaves. -/
def publisherCall (s : State G) (f : Publisher → Publisher × List Sent) : State G :=
  match s.repl.pub with
  | none => s
  | some p => State.emit { s with repl.pub := some (f p).1 } ((f p).2.map .datagram)

def fenceCheck (s : State G) : State G :=
  match s.repl.pub with
  | none => s
  | some p => if p.fenced ∧ s.repl.halted = none then haltWith s .fenced else s

/-- `service`, then the fence check. -/
def serviceAndCheck (s : State G) (group : List Datagram) (control : List (Nat × Datagram)) :
    State G :=
  fenceCheck (publisherCall s fun p => p.service group control)

/-! ### The report sink -/

structure Sink where
  fd : Fd
  owner : OwnerId
  seq : UInt64
  clientSeq : UInt64
  clientId : OrderId
  exchangeId : OrderId
  ids : ClientIdMap
  ownerFd : OwnerId → Option Fd
  translate : Bool
  md : Bool

structure Written where
  conns : Fd → Option Conn
  mentioned : List OrderId := []
  touched : List Fd
  digest : List Event
  md : MdBatch

/-- Appends a report to the output of a connection. Every entry of `owner_fd` leads to a
connection, so the lookup with `at` never throws. -/
def appendReport (conns : Fd → Option Conn) (fd : Fd) (item : Item) : Fd → Option Conn :=
  match conns fd with
  | none => conns
  | some c => Function.update conns fd (some { c with out := c.out ++ [item] })

/-- The view of the session that sent the command. -/
def Sink.view (k : Sink) (e : Event) : Event :=
  { e with
    orderId := if e.orderId = k.exchangeId then k.clientId else k.ids.toClient e.orderId k.owner
    makerId := if e.makerId ≠ 0 then k.ids.toClient e.makerId k.owner else e.makerId }

/-- The view of the maker's session. -/
def Sink.makerView (k : Sink) (e : Event) : Event :=
  { e with orderId := 0, makerId := k.ids.toClient e.makerId (k.ids.ownerOf e.makerId) }

/-- The maker's session that gets an unsolicited report, if it is still connected. -/
def Sink.makerFd (k : Sink) (e : Event) : Option Fd :=
  if e.makerId = 0 ∨ e.type ≠ .trade ∨ k.ids.ownerOf e.makerId = k.owner then none
  else k.ownerFd (k.ids.ownerOf e.makerId)

def Sink.mentions (k : Sink) (e : Event) : List OrderId :=
  (if e.orderId ≠ k.exchangeId then [e.orderId] else []) ++
    (if e.makerId ≠ 0 then [e.makerId] else [])

def Sink.onEvent (k : Sink) (w : Written) (e : Event) : Written :=
  let w := { w with digest := w.digest ++ [e], md := if k.md then w.md.note e else w.md }
  if ¬ k.translate then { w with conns := appendReport w.conns k.fd ⟨k.seq, .exec e k.clientSeq⟩ }
  else
    let w := { w with
      conns := appendReport w.conns k.fd ⟨k.seq, .exec (k.view e) k.clientSeq⟩
      mentioned := w.mentioned ++ k.mentions e }
    match k.makerFd e with
    | none => w
    | some f => { w with
        conns := appendReport w.conns f ⟨k.seq, .exec (k.makerView e) 0⟩
        touched := w.touched ++ [f] }

/-! ### One command -/

section Steps

variable (cfg : GatewayConfig) (desk : Desk G)

/-- Translates, stamps and journals a decoded command. -/
def stamp (s : State G) (fd : Fd) (owner : OwnerId) (off : Nat) (c : Command)
    (rest : List Ready) (i : Input) :
    State G :=
  let key : Key := ⟨c.orderId, c.symbol, owner⟩
  let (ids, x) :=
    if cfg.trustClientIds then (s.core.ids, c.orderId)
    else if c.type = .newOrder then s.core.ids.forNew key else (s.core.ids, s.core.ids.find key)
  let cmd := { c with orderId := x, seq := s.core.seq + 1, owner := owner, ts := i.now }
  let s := { s with core.ids := ids, core.seq := s.core.seq + 1 }
  if s.repl.journalFailed then s.at (.batch [])
  else match i.append with
  | none =>
      let s := State.emit { s with repl.journal := s.repl.journal.append cmd } [.append cmd]
      s.at (.logged fd off c.seq c.orderId cmd rest)
  | some k =>
      let w := s.repl.journal
      let w := { w with buffer := w.buffer ++ (recordBytes cmd).take k }
      (haltWith { s with repl.journal := w, repl.journalFailed := true } .journalError).at
        (.batch [])

/-- The level that a modify leaves. -/
def noteModify (md : MdBatch) (g : G) (c : Command) : MdBatch :=
  if cfg.marketData ∧ c.type = .modify ∧ c.symbol.toNat < desk.numSymbols g then
    match desk.findOrder g c.symbol c.orderId with
    | some (side, px) => { md with levels := md.levels ++ [⟨c.symbol, side, px⟩] }
    | none => md
  else md

/-- Orders that are no longer live release their client ids. -/
def retireDead (g : G) (symbol : SymbolId) (ids : ClientIdMap) : List OrderId → ClientIdMap
  | [] => ids
  | x :: xs =>
      let dead := x ≠ 0 ∧ (desk.numSymbols g ≤ symbol.toNat ∨ ¬ desk.contains g symbol x)
      retireDead g symbol (if dead then ids.retire x else ids) xs

/-- The sync policy asks for a sync after this command, and its counter. -/
def syncDue (sinceSync : UInt64) : Bool × UInt64 :=
  match cfg.syncMode with
  | .every => (true, 0)
  | .batch => if cfg.batch ≤ sinceSync + 1 then (true, 0) else (false, sinceSync + 1)
  | .os => (false, sinceSync)

def sinkOf (s : State G) (fd : Fd) (clientSeq : UInt64) (clientId : OrderId)
    (c : Command) : Sink where
  fd := fd
  owner := c.owner
  seq := c.seq
  clientSeq := clientSeq
  clientId := clientId
  exchangeId := c.orderId
  ids := s.core.ids
  ownerFd := s.sessions.ownerFd
  translate := ¬ cfg.trustClientIds
  md := cfg.marketData

/-- The engine's answer to a command: reports, released ids, and the end of the response. -/
def deliver (s : State G) (fd : Fd) (clientSeq : UInt64) (clientId : OrderId) (c : Command) (g : G)
    (events : List Event) : State G :=
  let sink := sinkOf cfg s fd clientSeq clientId c
  let w := events.foldl sink.onEvent
    { conns := s.sessions.conns, touched := s.batch.touched, digest := s.core.digest,
      md := noteModify cfg desk s.batch.md s.core.gate c }
  let ids := if cfg.trustClientIds then s.core.ids
    else retireDead desk g c.symbol s.core.ids (w.mentioned ++ [c.orderId])
  let s := { s with
    sessions.conns := appendReport w.conns fd ⟨c.seq, .done c.symbol clientSeq⟩
    core := { s.core with ids := ids, gate := g, digest := w.digest }
    batch := ⟨true, w.touched, w.md⟩ }
  s.emit [.process fd c events]

/-- Publishes a journaled command and lets the risk gate and the engine have it. -/
def handle (s : State G) (fd : Fd) (off : Nat) (clientSeq : UInt64)
    (clientId : OrderId) (c : Command) (rest : List Ready) (i : Input) : State G :=
  let pub := match s.repl.pub with
    | none => some none
    | some p => (p.publish c).map some
  match pub with
  | none => s.at .crashed
  | some pub =>
      let s := { s with repl.pub := pub }
      match desk.process s.core.gate c with
      | none => s.at .crashed
      | some (g, events) =>
          let s := deliver cfg desk s fd clientSeq clientId c g events
          let (due, since) := syncDue cfg s.repl.sinceSync
          let s := { s with repl.sinceSync := since }
          if due then
            let (s, ok) := journalSync s i.flush i.fsync
            if ok then s.at (.reading fd off rest) else s.at (.batch [])
          else s.at (.reading fd off rest)

/-! ### The loop -/

/-- A connection is ready. -/
def onReady (s : State G) (fd : Fd) (writable readable : Bool) (rest : List Ready)
    (i : Input) : State G :=
  if s.repl.halted ≠ none then s.at (.batch rest)
  else
    let s := if writable then tryWrite s fd i.sends else s
    match s.sessions.conns fd with
    | none => s.at (.batch rest)
    | some c =>
        if ¬ readable then s.at (.batch rest)
        else match i.received with
        | .closed => (closeConn s fd).at (.batch rest)
        | .again => s.at (.batch rest)
        | .data p =>
            let conns := Function.update s.sessions.conns fd (some { c with inp := c.inp ++ p })
            State.at { s with sessions.conns := conns } (.reading fd 0 rest)

/-- One turn of the decode loop. -/
def read (s : State G) (fd : Fd) (off : Nat) (rest : List Ready) (i : Input) : State G :=
  match s.sessions.conns fd with
  | none => s.at (.batch rest)
  | some c =>
      match Wire.next c.inp off with
      | .wait =>
          let conns := Function.update s.sessions.conns fd (some { c with inp := c.inp.drop off })
          State.at { s with sessions.conns := conns, batch.touched := s.batch.touched ++ [fd] }
            (.batch rest)
      | .lost => (closeConn s fd).at (.batch rest)
      | .skip n => s.at (.reading fd (off + n) rest)
      | .command cmd n => stamp cfg s fd c.owner (off + n) cmd rest i

/-- The journal is flushed and the batch handed to the replicas before any response leaves. -/
def commit (s : State G) (i : Input) : State G :=
  if s.batch.journaledAny then
    let (s, ok) := journalFlush s i.flush
    if ok then
      match s.repl.pub with
      | none => s.at .release
      | some p =>
          let s := if p.fenced then s else publisherCall s fun p => p.flush i.flushNow
          if cfg.waitReplica ∧ ¬ s.repl.replicaLost ∧ s.repl.halted = none then
            s.at (.waiting i.now)
          else s.at .release
    else s.at .release
  else s.at .release

/-- After the timeout: a last look for a newer epoch, then the replica is given up. -/
def expire (s : State G) (i : Input) : State G :=
  let s := serviceAndCheck s i.group i.control
  if s.repl.halted ≠ none then s.at .release
  else if cfg.haltOnReplicaLoss then (haltWith s .replicaLost).at .release
  else (State.emit { s with repl.replicaLost := true } [.replicaLost]).at .release

/-- One pass of `wait_for_replica`. -/
def waitPass (s : State G) (since : UInt64) (i : Input) : State G :=
  if s.core.seq ≤ s.repl.acked then s.at .release
  else
    let s := publisherCall s fun p => p.service i.group i.control
    if s.core.seq ≤ s.repl.acked then s.at .release
    else
      let s := fenceCheck s
      if s.repl.halted ≠ none then s.at .release
      else if cfg.replicaTimeoutMs * 1000000 < i.now - since then s.at .expiring
      else (publisherCall s fun p => p.heartbeatIfIdle i.now 2000000).at (.waiting since)

/-- `try_write` for every touched connection. -/
def writeTouched (s : State G) : List Fd → List (List SendResult) → State G
  | [], _ => s
  | fd :: fds, answers => writeTouched (tryWrite s fd (answers.headD [])) fds answers.tail

/-- The levels of a batch, each once, with their totals after it. -/
def published (md : MdBatch) (g : G) : List (MdLevel × Qty) :=
  ((md.levels.mergeSort MdLevel.le).eraseReps).map fun l =>
    (l, desk.levelQty g l.symbol l.side l.px)

/-- What a batch changed goes to the market-data feed. -/
def publishMd (s : State G) : State G :=
  if cfg.marketData ∧ s.batch.journaledAny then
    State.emit { s with batch.md := {} }
      [.marketData s.batch.md.trades (published desk s.batch.md s.core.gate)]
  else s

/-- The batch is committed, or the gateway has halted. -/
def release (s : State G) (i : Input) : State G :=
  if s.repl.halted ≠ none then
    let sessions := { s.sessions with conns := fun _ => none, ownerFd := fun _ => none }
    (State.emit { s with sessions := sessions } [.closeAll]).at .shutdown
  else
    let s := State.emit { s with released := s.core.seq } [.commit]
    let s := publishMd cfg desk s
    let s := publisherCall s fun p => p.heartbeatIfIdle i.now 20000000
    (writeTouched s s.batch.touched i.writes).at .poll

def shutdown (s : State G) (i : Input) : State G :=
  let s := (journalSync s i.flush i.fsync).1
  (publisherCall s fun p => p.finish i.now).at .stopped

def step (s : State G) (i : Input) : State G :=
  match s.pc with
  | .poll =>
      if i.stop then s.at .shutdown
      else
        let batch := { s.batch with journaledAny := false, touched := [] }
        (State.emit { s with batch := batch } [.poll]).at (.batch i.ready)
  | .batch [] => commit cfg s i
  | .batch (.listener :: rest) => (accept s i.accepted).at (.batch rest)
  | .batch (.control :: rest) => (serviceAndCheck s i.group i.control).at (.batch rest)
  | .batch (.conn fd w r :: rest) => onReady s fd w r rest i
  | .reading fd off rest => read cfg s fd off rest i
  | .logged fd off clientSeq clientId c rest => handle cfg desk s fd off clientSeq clientId c rest i
  | .waiting since => waitPass cfg s since i
  | .expiring => expire cfg s i
  | .release => release cfg desk s i
  | .shutdown => shutdown s i
  | .stopped => s
  | .crashed => s

def run (s : State G) (is : List Input) : State G := is.foldl (step cfg desk) s

end Steps

/-- The gateway at the start: after what `journal` already holds up to `seq`. -/
def start (gate : G) (journal : JournalWriter) (pub : Option Publisher)
    (digest : List Event) (seq : UInt64) (nextOwner : OwnerId) (firstExchangeId : OrderId) :
    State G where
  sessions := { nextOwner := nextOwner }
  core := { ids := .make firstExchangeId, gate := gate, seq := seq, digest := digest }
  repl := { journal := journal, pub := pub }
  released := seq

end ExchangeSim.Gateway
