/- digest: The four consumers of a Level-3 record stream, each with its own snapshot, buffer and gap
   handling. -/

import ExchangeSim.L3.TruthBook

set_option autoImplicit false
set_option relaxedAutoImplicit false

namespace ExchangeSim.L3

inductive RecKind where
  | snapOrder
  | snapEnd
  | received
  | open
  | done
  | match
  | change
  | other
  deriving DecidableEq, Repr

def kFundsChange : UInt8 := 8

structure Rec where
  seq : UInt64
  ts : UInt64 := 0
  id : OrderId := 0
  id2 : OrderId := 0
  px : Price := 0
  q : Qty := 0
  kind : RecKind
  side : UInt8 := 0
  flags : UInt8 := 0
  deriving DecidableEq, Repr

def Rec.sideOf (r : Rec) : Side := if r.side ≠ 0 then .sell else .buy

/-- A sort by sequence number. Which of two records with one number comes first is left open. -/
structure SeqSort where
  sort : List Rec → List Rec
  perm : ∀ l, (sort l).Perm l
  sorted : ∀ l, (sort l).Pairwise fun a b => a.seq ≤ b.seq

/-- What each consumer keeps besides its own study. `applied` are the records applied since the
snapshot in use. -/
structure Consumer where
  book : TruthBook := {}
  loading : Bool := false
  synced : Bool := false
  snapSeq : UInt64 := 0
  lastSeq : UInt64 := 0
  pre : List Rec := []
  applied : List Rec := []

namespace Consumer

/-- A record goes into the book. -/
def take (apply : TruthBook → Rec → TruthBook) (c : Consumer) (r : Rec) : Consumer :=
  { c with lastSeq := r.seq, book := apply c.book r, applied := c.applied ++ [r] }

/-- A record that is no part of a snapshot: kept while out of sync, dropped if the snapshot reflects
it, the start of a gap if it is not the next one. -/
def onMessage (apply : TruthBook → Rec → TruthBook) (c : Consumer) (r : Rec) : Consumer :=
  if ¬ c.synced then { c with pre := c.pre ++ [r] }
  else if r.seq ≤ c.snapSeq then c
  else if r.seq ≠ c.lastSeq + 1 then { c with synced := false, pre := c.pre ++ [r] }
  else c.take apply r

/-- The reaction to a record: `since` is the time under which snapshot orders join, and `replay`
what is done with each buffered record that is newer than the snapshot. Only messages are ever
buffered. -/
def on (sort : SeqSort) (apply : TruthBook → Rec → TruthBook) (since : Rec → UInt64)
    (replay : Consumer → Rec → Consumer) (c : Consumer) (r : Rec) : Consumer :=
  match r.kind with
  | .snapOrder =>
      if c.synced then c
      else
        let book := if c.loading then c.book else c.book.clear
        { c with book := book.add r.id r.sideOf r.px r.q (since r), loading := true }
  | .snapEnd =>
      if c.synced then c
      else
        let early := sort.sort c.pre
        let c := { c with
          loading := false, synced := true, snapSeq := r.seq, lastSeq := r.seq,
          pre := [], applied := [] }
        (early.filter fun e => r.seq < e.seq).foldl replay c
  | _ => c.onMessage apply r

end Consumer

/-- The application of a record where a change without a price keeps the order's price. -/
def applyPriced (since : Rec → UInt64) (b : TruthBook) (r : Rec) : TruthBook :=
  match r.kind with
  | .open => b.add r.id r.sideOf r.px r.q (since r)
  | .match => (b.fill r.id2 r.q).1
  | .done => b.remove r.id
  | .change =>
      if r.flags &&& kFundsChange = 0 then
        match b.find r.id with
        | none => b
        | some (_, _, oldPx) => b.change r.id (if r.px ≠ 0 then r.px else oldPx) r.q (since r)
      else b
  | _ => b

namespace Inference

def apply : TruthBook → Rec → TruthBook := applyPriced Rec.seq

/-- The first pass applies the buffered records as they come, without looking for gaps. -/
def on (sort : SeqSort) : Consumer → Rec → Consumer :=
  Consumer.on sort apply (fun _ => 0) (Consumer.take apply)

end Inference

namespace Replay

def apply : TruthBook → Rec → TruthBook := applyPriced Rec.ts

/-- The end of a snapshot reads the best price of both sides; `none` if there is none to read. -/
def on (sort : SeqSort) (c : Consumer) (r : Rec) : Option Consumer :=
  if r.kind = .snapEnd ∧ ¬ c.synced ∧ ((c.book.best .buy).isNone ∨ (c.book.best .sell).isNone) then
    none
  else some (Consumer.on sort apply Rec.ts (Consumer.onMessage apply) c r)

end Replay

namespace Study

/-- Its two kinds of change end in the same call. -/
def apply : TruthBook → Rec → TruthBook := applyPriced Rec.seq

def on (sort : SeqSort) : Consumer → Rec → Consumer :=
  Consumer.on sort apply (fun _ => 0) (Consumer.onMessage apply)

end Study

namespace Features

/-- A change goes to the price of the record, also where the record has none. -/
def apply (b : TruthBook) (r : Rec) : TruthBook :=
  match r.kind with
  | .open => b.add r.id r.sideOf r.px r.q r.seq
  | .match => (b.fill r.id2 r.q).1
  | .done => b.remove r.id
  | .change => if r.flags &&& kFundsChange = 0 then b.change r.id r.px r.q r.seq else b
  | _ => b

def on (sort : SeqSort) : Consumer → Rec → Consumer :=
  Consumer.on sort apply (fun _ => 0) (Consumer.onMessage apply)

end Features

structure Consumers where
  inference : Consumer := {}
  replay : Consumer := {}
  study : Consumer := {}
  features : Consumer := {}

structure Sorts where
  inference : SeqSort
  replay : SeqSort
  study : SeqSort
  features : SeqSort

namespace Consumers

def on (sorts : Sorts) (c : Consumers) (r : Rec) : Option Consumers := do
  let replay ← Replay.on sorts.replay c.replay r
  return {
    inference := Inference.on sorts.inference c.inference r
    replay := replay
    study := Study.on sorts.study c.study r
    features := Features.on sorts.features c.features r }

def run (sorts : Sorts) (records : List Rec) : Option Consumers := records.foldlM (on sorts) {}

end Consumers

end ExchangeSim.L3
