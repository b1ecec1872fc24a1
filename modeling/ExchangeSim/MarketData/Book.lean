/- digest: A subscriber's book: gap detection, snapshot reassembly and the buffered packets. -/

import ExchangeSim.MarketData.Feed

set_option autoImplicit false
set_option relaxedAutoImplicit false

namespace ExchangeSim.MarketData

open ExchangeSim.Lib

structure Sides where
  bids : SortedMap Price Qty := .empty
  asks : SortedMap Price Qty := .empty

def Sides.on (s : Sides) : Side → SortedMap Price Qty
  | .buy => s.bids
  | .sell => s.asks

def Sides.set (s : Sides) (side : Side) (m : SortedMap Price Qty) : Sides :=
  match side with
  | .buy => { s with bids := m }
  | .sell => { s with asks := m }

abbrev Books := SortedMap SymbolId Sides

namespace Books

def applyEntry (books : Books) (x : MdEntry) : Books :=
  match x.type with
  | .level =>
      let sides := (books.find? x.symbol).getD {}
      let m := sides.on x.side
      books.insert x.symbol
        (sides.set x.side (if x.qty = 0 then m.erase x.price else m.insert x.price x.qty))
  | _ => books

/-- Symbols whose sides are both empty are dropped in the end. -/
def apply (books : Books) (es : List MdEntry) : Books :=
  (es.foldl applyEntry books).filter fun _ s => ¬ (s.bids.entries = [] ∧ s.asks.entries = [])

/-- The level-2 map the books hold. -/
def l2 (books : Books) : L2 := fun symbol side px =>
  ((books.find? symbol).bind fun s => (s.on side).find? px).getD 0

def rowsOf (symbol : SymbolId) (s : Sides) : List Row :=
  (s.bids.entries.reverse.map fun l => ⟨symbol, .buy, l.1, l.2⟩) ++
    s.asks.entries.map fun l => ⟨symbol, .sell, l.1, l.2⟩

/-- The rows in the order in which `digest` visits them. -/
def listing (books : Books) : List Row := books.entries.flatMap fun e => rowsOf e.1 e.2

end Books

structure Book where
  synced : Bool := false
  ended : Bool := false
  endSeen : Bool := false
  seq : UInt64 := 0
  endSeq : UInt64 := 0
  snapId : UInt64 := 0xFFFFFFFFFFFFFFFF
  snapHave : Nat := 0
  books : Books := .empty
  pending : List (UInt64 × List MdEntry) := []
  snapParts : List (List MdEntry) := []

namespace Book

def digest (b : Book) : UInt64 := L2Digest.of b.books.listing

/-- A gap: the book is unknown. -/
def lose (b : Book) : Book := { b with synced := false, books := .empty }

def atEnd (b : Book) : Bool := b.endSeen && b.synced && decide (b.endSeq ≤ b.seq)

/-- The loop over the buffered packets that follow on. -/
def replay (books : Books) (seq : UInt64) :
    List (UInt64 × List MdEntry) → Books × UInt64 × List (UInt64 × List MdEntry)
  | [] => (books, seq, [])
  | (q, es) :: rest =>
      if q = seq + 1 then replay (books.apply es) q rest else (books, seq, (q, es) :: rest)

/-- All parts of the snapshot tagged `snapSeq` have arrived. -/
def complete (b : Book) (snapSeq : UInt64) : Book :=
  let r := replay (b.snapParts.foldl Books.apply .empty) snapSeq
    (b.pending.dropWhile fun e => e.1 ≤ snapSeq)
  let b := { b with books := r.1, seq := r.2.1, pending := r.2.2, synced := true }
  let b := if r.2.2 ≠ [] then b.lose else b
  { b with ended := b.atEnd }

/-- Reassembly starts over at part 0 and at another snapshot. -/
def restart (b : Book) (h : Packet) : Book :=
  if h.part = 0 ∨ h.snapSeq ≠ b.snapId then
    { b with snapId := h.snapSeq, snapParts := List.replicate h.parts.toNat [], snapHave := 0 }
  else b

/-- An empty book still counts as received. -/
def placed (es : List MdEntry) : List MdEntry := if es = [] then [{}] else es

def onSnapshotPart (b : Book) (h : Packet) : Book :=
  let b := b.restart h
  if b.snapParts.length ≤ h.part.toNat ∨ b.snapParts.getD h.part.toNat [] ≠ [] ∨
      (h.entries.length = 0 ∧ 1 < h.parts) then b
  else
    let b := { b with
      snapParts := b.snapParts.set h.part.toNat (placed h.entries)
      snapHave := b.snapHave + 1 }
    if b.snapHave < b.snapParts.length then b else b.complete h.snapSeq

def onPacket (b : Book) (h : Packet) : Book :=
  match h.kind with
  | .incremental =>
      if b.synced ∧ h.seq ≤ b.seq then b
      else if b.synced ∧ h.seq = b.seq + 1 then
        { b with books := b.books.apply h.entries, seq := h.seq }
      else
        let b := if b.synced then b.lose else b
        { b with pending := SortedMap.put h.seq h.entries b.pending }
  | .heartbeat =>
      let b := if b.synced ∧ b.seq < h.seq then b.lose else b
      { b with ended := b.atEnd }
  | .endOfFeed =>
      let b := if b.synced ∧ b.seq < h.seq then b.lose else b
      let b := { b with endSeq := h.seq, endSeen := true }
      { b with ended := b.atEnd }
  | .snapshot =>
      if b.synced then b
      else
        let b := b.onSnapshotPart h
        { b with ended := b.atEnd }

def receive (b : Book) (ps : List Packet) : Book := ps.foldl onPacket b

end Book

theorem Sides.on_set (s : Sides) (side other : Side) (m : SortedMap Price Qty) :
    (s.set side m).on other = if other = side then m else s.on other := by
  cases side <;> cases other <;> rfl

theorem Sides.find?_default (side : Side) (px : Price) :
    (({} : Sides).on side).find? px = none := by
  cases side <;> rfl

namespace Books

theorem l2_eq_of_find? {books : Books} {symbol : SymbolId} {s : Sides}
    (h : books.find? symbol = some s) (side : Side) (px : Price) :
    books.l2 symbol side px = ((s.on side).find? px).getD 0 := by
  simp [l2, h]

theorem l2_eq_getD (books : Books) (symbol : SymbolId) (side : Side) (px : Price) :
    books.l2 symbol side px = ((((books.find? symbol).getD {}).on side).find? px).getD 0 := by
  unfold l2
  cases books.find? symbol with
  | none => simp [Sides.find?_default]
  | some s => rfl

theorem l2_applyEntry (books : Books) (x : MdEntry) :
    (books.applyEntry x).l2 = books.l2.update x := by
  unfold applyEntry L2.update
  cases x.type with
  | none => rfl
  | trade => rfl
  | level =>
      funext symbol side px
      simp only [if_pos]
      rw [l2_eq_getD, SortedMap.find?_insert]
      by_cases hs : symbol = x.symbol
      · subst hs
        simp only [if_pos, Option.getD_some, Sides.on_set, true_and]
        by_cases hside : side = x.side
        · subst hside
          simp only [if_pos, true_and]
          by_cases hq : x.qty = 0
          · rw [if_pos hq, SortedMap.find?_erase, l2_eq_getD]
            split <;> simp [hq]
          · rw [if_neg hq, SortedMap.find?_insert, l2_eq_getD]
            split <;> simp
        · simp [hside, l2_eq_getD]
      · simp [hs, l2_eq_getD]

theorem l2_filter (books : Books) :
    l2 (books.filter fun _ s => ¬ (s.bids.entries = [] ∧ s.asks.entries = [])) = books.l2 := by
  funext symbol side px
  unfold l2
  rw [SortedMap.find?_filter]
  cases hf : books.find? symbol with
  | none => rfl
  | some s =>
      by_cases he : s.bids.entries = [] ∧ s.asks.entries = []
      · have hnone : (s.on side).find? px = none := by
          cases side
          · simp [Sides.on, SortedMap.find?, he.1]
          · simp [Sides.on, SortedMap.find?, he.2]
        simp [he.1, he.2, hnone, Option.filter]
      · simp [he, Option.filter]

theorem l2_apply (books : Books) (es : List MdEntry) : (books.apply es).l2 = books.l2.apply es := by
  rw [apply, l2_filter]
  induction es generalizing books with
  | nil => rfl
  | cons x es ih => rw [List.foldl_cons, ih, l2_applyEntry]; rfl

@[simp] theorem l2_empty : l2 .empty = L2.empty := rfl

theorem l2_foldl_apply (books : Books) (parts : List (List MdEntry)) :
    (parts.foldl Books.apply books).l2 = books.l2.apply parts.flatten := by
  induction parts generalizing books with
  | nil => rfl
  | cons es parts ih => rw [List.foldl_cons, ih, l2_apply, List.flatten_cons, L2.apply_append]

/-- No level is kept with a total of 0. -/
def NonZero (books : Books) : Prop :=
  ∀ symbol s, books.find? symbol = some s → ∀ side px q, (s.on side).find? px = some q → q ≠ 0

theorem nonZero_empty : NonZero .empty := by
  intro symbol s h
  simp at h

theorem NonZero.applyEntry {books : Books} (h : NonZero books) (x : MdEntry) :
    NonZero (books.applyEntry x) := by
  unfold Books.applyEntry
  cases x.type with
  | none => exact h
  | trade => exact h
  | level =>
      intro symbol s hs side px q hq
      simp only at hs
      rw [SortedMap.find?_insert] at hs
      split at hs
      · rename_i hsym
        obtain rfl := Option.some.inj hs
        have hold : ∀ side px q, (((books.find? x.symbol).getD {}).on side).find? px = some q →
            q ≠ 0 := by
          intro side px q hq
          cases hf : books.find? x.symbol with
          | none => simp [hf, Sides.find?_default] at hq
          | some s => exact h _ s hf side px q (by simpa [hf] using hq)
        rw [Sides.on_set] at hq
        split at hq
        · split at hq
          · rw [SortedMap.find?_erase] at hq
            split at hq
            · cases hq
            · exact hold _ px q hq
          · rename_i hne
            rw [SortedMap.find?_insert] at hq
            split at hq
            · obtain rfl := Option.some.inj hq
              exact hne
            · exact hold _ px q hq
        · exact hold side px q hq
      · exact h symbol s hs side px q hq

theorem NonZero.apply {books : Books} (h : NonZero books) (es : List MdEntry) :
    NonZero (books.apply es) := by
  have hfold : NonZero (es.foldl Books.applyEntry books) := by
    induction es generalizing books with
    | nil => exact h
    | cons x es ih => exact ih (h.applyEntry x)
  intro symbol s hs
  rw [Books.apply, SortedMap.find?_filter, Option.filter_eq_some_iff] at hs
  exact hfold symbol s hs.1

theorem NonZero.foldl_apply {books : Books} (h : NonZero books) (parts : List (List MdEntry)) :
    NonZero (parts.foldl Books.apply books) := by
  induction parts generalizing books with
  | nil => exact h
  | cons es parts ih => exact ih (h.apply es)

private theorem mem_rowsOf {symbol : SymbolId} {s : Sides} {r : Row} :
    r ∈ rowsOf symbol s ↔ r.symbol = symbol ∧ (s.on r.side).find? r.px = some r.qty := by
  obtain ⟨rsym, side, px, qty⟩ := r
  rw [SortedMap.find?_eq_some]
  cases side <;> simp [rowsOf, Sides.on, eq_comm] <;> tauto

private theorem rowsOf_sorted (symbol : SymbolId) (s : Sides) :
    (rowsOf symbol s).Pairwise Row.Before := by
  refine List.pairwise_append.mpr ⟨?_, ?_, ?_⟩
  · rw [List.pairwise_map, List.pairwise_reverse]
    exact s.bids.sorted.imp fun h => .inr ⟨rfl, .inr ⟨rfl, h⟩⟩
  · rw [List.pairwise_map]
    exact s.asks.sorted.imp fun h => .inr ⟨rfl, .inr ⟨rfl, h⟩⟩
  · intro a ha b hb
    obtain ⟨x, -, rfl⟩ := List.mem_map.mp ha
    obtain ⟨y, -, rfl⟩ := List.mem_map.mp hb
    exact .inr ⟨rfl, .inl ⟨rfl, rfl⟩⟩

theorem NonZero.lists {books : Books} (h : NonZero books) : Lists books.listing books.l2 where
  sorted := by
    rw [listing, List.pairwise_flatMap]
    refine ⟨fun e _ => rowsOf_sorted e.1 e.2, books.sorted.imp ?_⟩
    intro a b hab x hx y hy
    rw [mem_rowsOf] at hx hy
    exact .inl (by rw [hx.1, hy.1]; exact hab)
  exact r := by
    rw [listing, List.mem_flatMap]
    constructor
    · rintro ⟨e, he, hr⟩
      rw [mem_rowsOf] at hr
      have hf : books.find? r.symbol = some e.2 := by
        rw [SortedMap.find?_eq_some, hr.1]
        exact he
      refine ⟨by rw [l2_eq_of_find? hf, hr.2]; rfl, h _ _ hf _ _ _ hr.2⟩
    · rintro ⟨hq, hne⟩
      cases hf : books.find? r.symbol with
      | none =>
          rw [l2_eq_getD, hf] at hq
          simp [Sides.find?_default] at hq
          exact absurd hq.symm hne
      | some s =>
          refine ⟨(r.symbol, s), SortedMap.find?_eq_some.mp hf, mem_rowsOf.mpr ⟨rfl, ?_⟩⟩
          rw [l2_eq_of_find? hf] at hq
          cases hp : (s.on r.side).find? r.px with
          | none =>
              rw [hp] at hq
              exact absurd hq.symm hne
          | some q =>
              rw [hp] at hq
              exact congrArg some hq

end Books

end ExchangeSim.MarketData
