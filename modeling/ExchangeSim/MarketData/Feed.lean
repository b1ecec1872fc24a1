/- digest: The level-2 feed: its packets, the publisher's packetising, and level-2 maps. -/

import ExchangeSim.Common
import ExchangeSim.Lib.SortedMap

set_option autoImplicit false
set_option relaxedAutoImplicit false

namespace ExchangeSim.MarketData

open ExchangeSim.Lib

inductive Kind where
  | incremental
  | snapshot
  | heartbeat
  | endOfFeed
  deriving DecidableEq, Repr

/-- `none` is the type of a value-initialised entry. -/
inductive EntryType where
  | none
  | level
  | trade
  deriving DecidableEq, Repr

structure MdEntry where
  price : Price := 0
  /-- The new total at the price, 0 if removed; or the traded quantity. -/
  qty : Qty := 0
  symbol : SymbolId := 0
  side : Side := .buy
  type : EntryType := .none
  deriving DecidableEq, Repr

structure Packet where
  kind : Kind
  /-- Incremental: this packet's number; heartbeat and end: the last one sent. -/
  seq : UInt64 := 0
  /-- Snapshot: the last incremental packet it reflects. -/
  snapSeq : UInt64 := 0
  part : UInt16 := 0
  parts : UInt16 := 1
  entries : List MdEntry := []
  deriving DecidableEq, Repr

/-- Entries that fit a datagram. -/
def kPerPacket : Nat := 60

structure Row where
  symbol : SymbolId
  side : Side
  px : Price
  qty : Qty
  deriving DecidableEq, Repr

def Row.entry (r : Row) : MdEntry :=
  { price := r.px, qty := r.qty, symbol := r.symbol, side := r.side, type := .level }

def tradeEntry (symbol : SymbolId) (aggressor : Side) (px : Price) (qty : Qty) : MdEntry :=
  { price := px, qty := qty, symbol := symbol, side := aggressor, type := .trade }

namespace L2Digest

structure State where
  h : UInt64 := 0x243F6A8885A308D3
  n : UInt64 := 0

def rotl (x : UInt64) (k : UInt64) : UInt64 := (x <<< k) ||| (x >>> (64 - k))

def mix (h x : UInt64) : UInt64 := rotl ((h ^^^ x) * 0x9E3779B97F4A7C15) 29

def sideBit : Side → UInt64
  | .buy => 0
  | .sell => 1

def add (d : State) (r : Row) : State where
  h := mix (mix (mix d.h ((r.symbol.toUInt64 <<< 1) ||| sideBit r.side)) r.px.toUInt64) r.qty
  n := d.n + 1

def value (d : State) : UInt64 := d.h ^^^ d.n

def of (rows : List Row) : UInt64 := value (rows.foldl add {})

end L2Digest

/-- The `j`-th stretch of `kPerPacket` entries. -/
def stretch (es : List MdEntry) (j : Nat) : List MdEntry :=
  (es.drop (j * kPerPacket)).take kPerPacket

/-- How many packets hold `n` entries. -/
def packetsFor (n : Nat) : Nat := (n + kPerPacket - 1) / kPerPacket

/-- The parts of a snapshot; `rows` is what the books' `for_each_level` visits. -/
def snapshotParts (rows : List Row) : Nat := max 1 (packetsFor rows.length)

def snapshotPart (seq : UInt64) (rows : List Row) (p : Nat) : Packet where
  kind := .snapshot
  snapSeq := seq
  part := UInt16.ofNat p
  parts := UInt16.ofNat (snapshotParts rows)
  entries := stretch (rows.map Row.entry) p

structure Publisher where
  every : UInt64
  sinceSnapshot : UInt64 := 0
  seq : UInt64 := 0
  lastSendNs : UInt64 := 0
  staged : List MdEntry := []
  deriving DecidableEq, Repr

namespace Publisher

def level (p : Publisher) (symbol : SymbolId) (side : Side) (px : Price) (qty : Qty) : Publisher :=
  { p with staged := p.staged ++ [Row.entry ⟨symbol, side, px, qty⟩] }

def trade (p : Publisher) (symbol : SymbolId) (aggressor : Side) (px : Price) (qty : Qty) :
    Publisher :=
  { p with staged := p.staged ++ [tradeEntry symbol aggressor px qty] }

def incremental (seq : UInt64) (entries : List MdEntry) : Packet :=
  { kind := .incremental, seq := seq, entries := entries }

def snapshot (p : Publisher) (rows : List Row) : Publisher × List Packet :=
  ({ p with sinceSnapshot := 0 },
    (List.range (UInt16.ofNat (snapshotParts rows)).toNat).map (snapshotPart p.seq rows))

/-- The loop of `flush`. Which packets the fault injection drops is left to the network. -/
def flushStaged (p : Publisher) : Publisher × List Packet :=
  let n := packetsFor p.staged.length
  ({ p with
      seq := p.seq + UInt64.ofNat n
      sinceSnapshot := p.sinceSnapshot + UInt64.ofNat n },
    (List.range n).map fun j => incremental (p.seq + UInt64.ofNat (j + 1)) (stretch p.staged j))

/-- `rows` lists the books at the time of the call. -/
def flush (p : Publisher) (rows : List Row) (now : UInt64) : Publisher × List Packet :=
  let (p, out) := p.flushStaged
  let (p, snap) := if p.every ≠ 0 ∧ p.every ≤ p.sinceSnapshot then p.snapshot rows else (p, [])
  ({ p with staged := [], lastSendNs := now }, out ++ snap)

def heartbeatIfIdle (p : Publisher) (now interval : UInt64) : Publisher × List Packet :=
  if now - p.lastSendNs < interval then (p, [])
  else ({ p with lastSendNs := now }, [{ kind := .heartbeat, seq := p.seq }])

/-- `end()`. -/
def finish (p : Publisher) (rows : List Row) : Publisher × List Packet :=
  let (p, snap) := p.snapshot rows
  (p, snap ++ List.replicate 3 { kind := .endOfFeed, seq := p.seq, snapSeq := p.seq })

end Publisher

/-- A level-2 map: the total at every price of every side, 0 where nothing rests. -/
abbrev L2 := SymbolId → Side → Price → Qty

def L2.empty : L2 := fun _ _ _ => 0

def L2.update (S : L2) (x : MdEntry) : L2 :=
  if x.type = .level then
    fun symbol side px => if symbol = x.symbol ∧ side = x.side ∧ px = x.price then x.qty
      else S symbol side px
  else S

/-- What a packet of entries makes of a map. -/
def L2.apply (S : L2) (es : List MdEntry) : L2 := es.foldl L2.update S

/-- The order in which books are listed: by symbol, buys before sells, best price first. -/
def Row.Before (a b : Row) : Prop :=
  a.symbol < b.symbol ∨ a.symbol = b.symbol ∧
    (a.side = .buy ∧ b.side = .sell ∨ a.side = b.side ∧
      match a.side with
      | .buy => b.px < a.px
      | .sell => a.px < b.px)

structure Lists (rows : List Row) (S : L2) : Prop where
  sorted : rows.Pairwise Row.Before
  exact : ∀ r, r ∈ rows ↔ S r.symbol r.side r.px = r.qty ∧ r.qty ≠ 0

theorem Row.before_irrefl (a : Row) : ¬ a.Before a := by
  rintro (h | ⟨-, ⟨h, h'⟩ | ⟨-, h⟩⟩)
  · exact Std.lt_irrefl h
  · rw [h] at h'
    cases h'
  · cases hs : a.side <;> rw [hs] at h <;> exact Std.lt_irrefl h

theorem Row.before_trans {a b c : Row} (h : a.Before b) (h' : b.Before c) : a.Before c := by
  rcases h with h | ⟨hs, h⟩
  · rcases h' with h' | ⟨hs', -⟩
    · exact .inl (Std.lt_trans h h')
    · exact .inl (hs' ▸ h)
  · rcases h' with h' | ⟨hs', h'⟩
    · exact .inl (hs ▸ h')
    · refine .inr ⟨hs.trans hs', ?_⟩
      rcases h with ⟨ha, hb⟩ | ⟨he, h⟩
      · rcases h' with ⟨hb', -⟩ | ⟨he', -⟩
        · rw [hb] at hb'
          cases hb'
        · exact .inl ⟨ha, he' ▸ hb⟩
      · rcases h' with ⟨hb, hc⟩ | ⟨he', h'⟩
        · exact .inl ⟨he.trans hb, hc⟩
        · refine .inr ⟨he.trans he', ?_⟩
          cases hside : a.side with
          | buy =>
              rw [hside] at h
              rw [← he, hside] at h'
              exact Std.lt_trans h' h
          | sell =>
              rw [hside] at h
              rw [← he, hside] at h'
              exact Std.lt_trans h h'

theorem Lists.unique {rows rows' : List Row} {S : L2} (h : Lists rows S) (h' : Lists rows' S) :
    rows = rows' :=
  eq_of_sorted_of_mem Row.before_irrefl Row.before_trans h.sorted h'.sorted
    fun r => (h.exact r).trans (h'.exact r).symm

theorem L2.apply_append (S : L2) (es fs : List MdEntry) :
    S.apply (es ++ fs) = (S.apply es).apply fs := by
  simp [L2.apply]

private theorem key_ne_of_before {a b : Row} (h : a.Before b) :
    ¬ (a.symbol = b.symbol ∧ a.side = b.side ∧ a.px = b.px) := by
  rintro ⟨hs, hside, hpx⟩
  rcases h with h | ⟨-, ⟨h₁, h₂⟩ | ⟨-, h⟩⟩
  · rw [hs] at h
    exact Std.lt_irrefl h
  · rw [hside, h₂] at h₁
    cases h₁
  · rw [hpx] at h
    cases ha : a.side <;> rw [ha] at h <;> exact Std.lt_irrefl h

private theorem apply_other (S : L2) {rows : List Row} {symbol : SymbolId}
    {side : Side} {px : Price} (h : ∀ r ∈ rows, ¬ (r.symbol = symbol ∧ r.side = side ∧ r.px = px)) :
    S.apply (rows.map Row.entry) symbol side px = S symbol side px := by
  induction rows generalizing S with
  | nil => rfl
  | cons r rows ih =>
      have hr := h r List.mem_cons_self
      change (S.update r.entry).apply (rows.map Row.entry) symbol side px = _
      rw [ih _ fun r' hr' => h r' (List.mem_cons_of_mem r hr')]
      have : ¬ (symbol = r.symbol ∧ side = r.side ∧ px = r.px) :=
        fun ⟨h₁, h₂, h₃⟩ => hr ⟨h₁.symm, h₂.symm, h₃.symm⟩
      simp [L2.update, Row.entry, this]

private theorem apply_row (S : L2) {rows : List Row} (h : rows.Pairwise Row.Before) {r : Row}
    (hr : r ∈ rows) : S.apply (rows.map Row.entry) r.symbol r.side r.px = r.qty := by
  induction rows generalizing S with
  | nil => simp at hr
  | cons a rows ih =>
      have hc := List.pairwise_cons.mp h
      change (S.update a.entry).apply (rows.map Row.entry) r.symbol r.side r.px = _
      rcases List.mem_cons.mp hr with rfl | hm
      · rw [apply_other _ fun b hb hk =>
          key_ne_of_before (hc.1 b hb) ⟨hk.1.symm, hk.2.1.symm, hk.2.2.symm⟩]
        simp [L2.update, Row.entry]
      · exact ih _ hc.2 hm

theorem Lists.apply_empty {rows : List Row} {S : L2} (h : Lists rows S) :
    L2.empty.apply (rows.map Row.entry) = S := by
  funext symbol side px
  by_cases hz : S symbol side px = 0
  · rw [apply_other _ fun r hr hk => ?_, hz]
    · rfl
    · obtain ⟨hq, hne⟩ := (h.exact r).mp hr
      rw [hk.1, hk.2.1, hk.2.2, hz] at hq
      exact hne hq.symm
  · exact apply_row _ h.sorted ((h.exact ⟨symbol, side, px, S symbol side px⟩).mpr ⟨rfl, hz⟩)

theorem lists_apply {rows : List Row} (sorted : rows.Pairwise Row.Before)
    (nonzero : ∀ r ∈ rows, r.qty ≠ 0) :
    Lists rows (L2.empty.apply (rows.map Row.entry)) where
  sorted := sorted
  exact r := by
    constructor
    · intro hr
      exact ⟨apply_row _ sorted hr, nonzero r hr⟩
    · rintro ⟨hq, hne⟩
      by_cases hkey : ∃ a ∈ rows, a.symbol = r.symbol ∧ a.side = r.side ∧ a.px = r.px
      · obtain ⟨a, ha, hsym, hside, hpx⟩ := hkey
        have hqty := apply_row L2.empty sorted ha
        rw [hsym, hside, hpx, hq] at hqty
        have : a = r := by
          cases a
          cases r
          simp_all
        exact this ▸ ha
      · rw [apply_other _ fun a ha hk => hkey ⟨a, ha, hk⟩] at hq
        exact absurd hq.symm hne

theorem flatten_stretches (es : List MdEntry) (P : Nat) :
    ((List.range P).map (stretch es)).flatten = es.take (P * kPerPacket) := by
  induction P with
  | zero => simp
  | succ P ih =>
      rw [List.range_succ, List.map_append, List.flatten_append, ih, Nat.succ_mul, List.take_add]
      simp [stretch]

theorem le_packetsFor (n : Nat) : n ≤ packetsFor n * kPerPacket := by
  unfold packetsFor kPerPacket
  omega

theorem flatten_snapshotParts (rows : List Row) :
    ((List.range (snapshotParts rows)).map (stretch (rows.map Row.entry))).flatten =
      rows.map Row.entry := by
  rw [flatten_stretches]
  apply List.take_of_length_le
  have h₁ := le_packetsFor rows.length
  have h₂ : packetsFor rows.length ≤ snapshotParts rows := Nat.le_max_right 1 _
  have h₃ := Nat.mul_le_mul_right kPerPacket h₂
  rw [List.length_map]
  omega

structure Feed where
  initial : L2
  incrementals : List (List MdEntry)
  numbered : incrementals.length < 2 ^ 64

namespace Feed

variable (f : Feed)

/-- The map after the first `k` incremental packets. -/
def map (k : Nat) : L2 := (f.incrementals.take k).foldl L2.apply f.initial

/-- The packets of the feed. Every snapshot lists the map of the packet it is tagged
with, in at most 65535 parts; the end carries the last number. -/
inductive Sends : Packet → Prop
  | incremental (k : Nat) (es : List MdEntry) (h : f.incrementals[k]? = some es) :
      Sends (Publisher.incremental (UInt64.ofNat (k + 1)) es)
  | snapshot (k : Nat) (h : k ≤ f.incrementals.length) (rows : List Row)
      (exact : Lists rows (f.map k))
      (small : snapshotParts rows < 2 ^ 16) (p : Nat) (hp : p < snapshotParts rows) :
      Sends (snapshotPart (UInt64.ofNat k) rows p)
  | heartbeat (k : Nat) (h : k ≤ f.incrementals.length) :
      Sends { kind := .heartbeat, seq := UInt64.ofNat k }
  | endOfFeed (snapSeq : UInt64) :
      Sends { kind := .endOfFeed, seq := UInt64.ofNat f.incrementals.length, snapSeq := snapSeq }

theorem map_succ {k : Nat} {es : List MdEntry} (h : f.incrementals[k]? = some es) :
    f.map (k + 1) = (f.map k).apply es := by
  unfold map
  rw [List.take_add_one, h, Option.toList_some, List.foldl_append]
  rfl

end Feed

namespace Publisher

/-- The incremental packets that the staged entries make up. -/
def stretches (es : List MdEntry) : List (List MdEntry) :=
  (List.range (packetsFor es.length)).map (stretch es)

/-- A snapshot follows the staged packets. -/
def due (p : Publisher) : Prop :=
  p.flushStaged.1.every ≠ 0 ∧ p.flushStaged.1.every ≤ p.flushStaged.1.sinceSnapshot

inductive Call where
  | level (symbol : SymbolId) (side : Side) (px : Price) (qty : Qty)
  | trade (symbol : SymbolId) (aggressor : Side) (px : Price) (qty : Qty)
  | flush (rows : List Row) (now : UInt64)
  | heartbeat (now interval : UInt64)

def call (p : Publisher) : Call → Publisher × List Packet
  | .level symbol side px qty => (p.level symbol side px qty, [])
  | .trade symbol aggressor px qty => (p.trade symbol aggressor px qty, [])
  | .flush rows now => p.flush rows now
  | .heartbeat now interval => p.heartbeatIfIdle now interval

/-- What a call adds to the incremental packets. -/
def added (p : Publisher) : Call → List (List MdEntry)
  | .flush _ _ => stretches p.staged
  | _ => []

/-- The snapshots of a run list the map of the packets before them, and `done` grows
to the incremental packets of the feed. -/
def Publishes (f : Feed) (p : Publisher) (done : List (List MdEntry)) : List Call → Prop
  | [] => done = f.incrementals
  | c :: cs =>
      (∀ rows now, c = .flush rows now → p.due →
        Lists rows (f.map (done ++ p.added c).length) ∧ snapshotParts rows < 2 ^ 16) ∧
      Publishes f (p.call c).1 (done ++ p.added c) cs

def runPackets (p : Publisher) : List Call → Publisher × List Packet
  | [] => (p, [])
  | c :: cs =>
      let r := p.call c
      let s := r.1.runPackets cs
      (s.1, r.2 ++ s.2)

theorem Publishes.isPrefix {f : Feed} {p : Publisher} {done : List (List MdEntry)} {cs : List Call}
    (h : Publishes f p done cs) : done <+: f.incrementals := by
  induction cs generalizing p done with
  | nil => exact (show done = f.incrementals from h) ▸ List.prefix_rfl
  | cons c cs ih => exact (List.prefix_append done _).trans (ih h.2)

private theorem flushStaged_sends {f : Feed} {p : Publisher} {done : List (List MdEntry)}
    (hseq : p.seq = UInt64.ofNat done.length)
    (pre : done ++ stretches p.staged <+: f.incrementals) :
    (∀ pkt ∈ p.flushStaged.2, f.Sends pkt) ∧
      p.flushStaged.1.seq = UInt64.ofNat (done ++ stretches p.staged).length := by
  constructor
  · intro pkt hpkt
    obtain ⟨j, hj, rfl⟩ := List.mem_map.mp hpkt
    have hj := List.mem_range.mp hj
    have hget : f.incrementals[done.length + j]? = some (stretch p.staged j) := by
      obtain ⟨rest, hrest⟩ := pre
      rw [← hrest, List.append_assoc, List.getElem?_append_right (by omega),
        Nat.add_sub_cancel_left, List.getElem?_append_left (by simpa [stretches] using hj)]
      simp [stretches, hj]
    rw [hseq, ← UInt64.ofNat_add, ← Nat.add_assoc]
    exact .incremental _ _ hget
  · simp [flushStaged, hseq, stretches, UInt64.ofNat_add]

private theorem snapshot_sends {f : Feed} {p : Publisher} {rows : List Row} {k : Nat}
    (hseq : p.seq = UInt64.ofNat k) (hk : k ≤ f.incrementals.length) (exact : Lists rows (f.map k))
    (small : snapshotParts rows < 2 ^ 16) : ∀ pkt ∈ (p.snapshot rows).2, f.Sends pkt := by
  intro pkt hpkt
  obtain ⟨i, hi, rfl⟩ := List.mem_map.mp hpkt
  rw [List.mem_range, UInt16.toNat_ofNat', Nat.mod_eq_of_lt small] at hi
  rw [hseq]
  exact .snapshot k hk rows exact small i hi

private theorem flush_sends {f : Feed} {p : Publisher} {done : List (List MdEntry)}
    {rows : List Row} {now : UInt64} (hseq : p.seq = UInt64.ofNat done.length)
    (pre : done ++ stretches p.staged <+: f.incrementals)
    (exact : p.due → Lists rows (f.map (done ++ stretches p.staged).length) ∧
      snapshotParts rows < 2 ^ 16) :
    (∀ pkt ∈ (p.flush rows now).2, f.Sends pkt) ∧
      (p.flush rows now).1.seq = UInt64.ofNat (done ++ stretches p.staged).length := by
  obtain ⟨hout, hseq'⟩ := flushStaged_sends hseq pre
  by_cases hdue : p.due
  · obtain ⟨hlist, small⟩ := exact hdue
    have hsnap := snapshot_sends hseq' pre.length_le hlist small
    have hflush : p.flush rows now =
        ({ (p.flushStaged.1.snapshot rows).1 with staged := [], lastSendNs := now },
          p.flushStaged.2 ++ (p.flushStaged.1.snapshot rows).2) := by
      unfold due at hdue
      simp only [flush, if_pos hdue]
    rw [hflush]
    refine ⟨fun pkt hpkt => ?_, hseq'⟩
    rcases List.mem_append.mp hpkt with h | h
    · exact hout pkt h
    · exact hsnap pkt h
  · have hflush : p.flush rows now =
        ({ p.flushStaged.1 with staged := [], lastSendNs := now }, p.flushStaged.2 ++ []) := by
      unfold due at hdue
      simp only [flush, if_neg hdue]
    rw [hflush]
    refine ⟨fun pkt hpkt => hout pkt (by simpa using hpkt), hseq'⟩

theorem run_sends {f : Feed} {p : Publisher} {done : List (List MdEntry)} {cs : List Call}
    (hseq : p.seq = UInt64.ofNat done.length) (h : Publishes f p done cs) :
    (∀ pkt ∈ (p.runPackets cs).2, f.Sends pkt) ∧
      ∀ rows, Lists rows (f.map f.incrementals.length) → snapshotParts rows < 2 ^ 16 →
        ∀ pkt ∈ ((p.runPackets cs).1.finish rows).2, f.Sends pkt := by
  induction cs generalizing p done with
  | nil =>
      obtain rfl : done = f.incrementals := h
      refine ⟨by simp [runPackets], fun rows hrows small pkt hpkt => ?_⟩
      rcases List.mem_append.mp hpkt with hs | he
      · exact snapshot_sends hseq (Nat.le_refl _) hrows small pkt hs
      · rw [(List.mem_replicate.mp he).2]
        change f.Sends { kind := .endOfFeed, seq := p.seq, snapSeq := p.seq }
        rw [hseq]
        exact .endOfFeed _
  | cons c cs ih =>
      have hpre := h.2.isPrefix
      have hcall : (∀ pkt ∈ (p.call c).2, f.Sends pkt) ∧
          (p.call c).1.seq = UInt64.ofNat (done ++ p.added c).length := by
        cases c with
        | level symbol side px qty =>
            exact ⟨by simp [call], by simpa [call, added, level] using hseq⟩
        | trade symbol aggressor px qty =>
            exact ⟨by simp [call], by simpa [call, added, trade] using hseq⟩
        | flush rows now => exact flush_sends hseq hpre (h.1 rows now rfl)
        | heartbeat now interval =>
            simp only [call, heartbeatIfIdle, added, List.append_nil]
            split
            · exact ⟨by simp, hseq⟩
            · refine ⟨fun pkt hpkt => ?_, hseq⟩
              rw [List.mem_singleton.mp hpkt, hseq]
              exact .heartbeat _ (by simpa [added] using hpre.length_le)
      obtain ⟨hrest, hfinish⟩ := ih hcall.2 h.2
      refine ⟨fun pkt hpkt => ?_, hfinish⟩
      rcases List.mem_append.mp hpkt with hc | hr
      · exact hcall.1 pkt hc
      · exact hrest pkt hr

end Publisher

end ExchangeSim.MarketData
