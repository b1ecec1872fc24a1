/- digest: Reductions on both sides before additions: a diff never trades and lands on its
   totals. -/

import ExchangeSim.Book.Audit
import ExchangeSim.Lib.Cells
import ExchangeSim.Mirror.LevelBook

set_option autoImplicit false
set_option relaxedAutoImplicit false

namespace ExchangeSim.Mirror

open ExchangeSim.Book ExchangeSim.Lib
open PriorityBook (Rules Ok inRange)
open OrderBook (Refines)

/-- The updates of a record in the order they are applied. -/
def Record.updates (r : Record) : List (Side × LevelUpdate) :=
  r.bids.map (Prod.mk .buy) ++ r.asks.map (Prod.mk .sell)

/-- No price twice on a side. -/
def Record.Distinct (r : Record) : Prop := ∀ S, ((r.levels S).map LevelUpdate.px).Nodup

namespace BookMirror

variable {σ : Type} [StoreLayout σ]

def rules (m : BookMirror σ) : Rules := ⟨0, m.cfg⟩

def entries (m : BookMirror σ) : Entries := fun k => m.slot k.1 k.2

structure Quietly (m m' : BookMirror σ) : Prop where
  minPx : m'.minPx = m.minPx
  n : m'.n = m.n
  maxOrders : m'.maxOrders = m.maxOrders
  bookFull : m'.bookFull = m.bookFull
  bidHorizon : m'.bidHorizon = m.bidHorizon
  askHorizon : m'.askHorizon = m.askHorizon
  events : ∃ evs, m'.sink.events = m.sink.events ++ evs ∧ evs.all quiet = true

/-- The engine's book holds exactly the entries. -/
def Mirrors (m : BookMirror σ) : Prop := ∃ A, Refines m.rules m.book A ∧ Holds m.rules m.entries A

structure Lands (m m' : BookMirror σ) (E : Entries) : Prop where
  quietly : Quietly m m'
  mirrors : Mirrors m'
  entries : m'.entries = E

section Frame

omit [StoreLayout σ]

variable {m m' m'' : BookMirror σ} {E E' : Entries}

theorem Quietly.refl (m : BookMirror σ) : Quietly m m :=
  ⟨rfl, rfl, rfl, rfl, rfl, rfl, [], by simp, rfl⟩

theorem Quietly.trans (h : Quietly m m') (h' : Quietly m' m'') : Quietly m m'' := by
  obtain ⟨evs, hev, hq⟩ := h.events
  obtain ⟨evs', hev', hq'⟩ := h'.events
  refine ⟨h'.minPx.trans h.minPx, h'.n.trans h.n, h'.maxOrders.trans h.maxOrders,
    h'.bookFull.trans h.bookFull,
    h'.bidHorizon.trans h.bidHorizon, h'.askHorizon.trans h.askHorizon, evs ++ evs', ?_, ?_⟩
  · rw [hev', hev, List.append_assoc]
  · rw [List.all_append, hq, hq']
    rfl

theorem Quietly.relOf (h : Quietly m m') (px : Price) : m'.relOf px = m.relOf px := by
  simp only [BookMirror.relOf, h.minPx, h.n]

variable [StoreLayout σ]

theorem Lands.refl (h : Mirrors m) : Lands m m m.entries := ⟨Quietly.refl m, h, rfl⟩

theorem Lands.after (h : Quietly m m') (h' : Lands m' m'' E) : Lands m m'' E :=
  ⟨h.trans h'.quietly, h'.mirrors, h'.entries⟩

omit [StoreLayout σ] in
theorem entries_setSlot (m : BookMirror σ) (S : Side) (i : Nat) (q : Qty) :
    (m.setSlot S i q).entries = Function.update m.entries (S, i) q := by
  funext ⟨T, j⟩
  by_cases hj : j = i
  · subst hj
    cases S <;> cases T <;> simp [entries, slot, setSlot, Function.update]
  · cases S <;> cases T <;> simp [entries, slot, setSlot, Function.update, hj]

end Frame

section SetLevel

variable {m : BookMirror σ} {S : Side} {u : LevelUpdate} {i : Nat}

/-- The book and the sink after a command for a level, with the entry written. -/
def written (m : BookMirror σ) (S : Side) (i : Nat) (q : Qty) (book : OrderBook σ)
    (sink : Sink) : BookMirror σ :=
  { m with updates := m.updates + 1, book := book, sink := sink }.setSlot S i q

omit [StoreLayout σ] in
theorem slot_counted (m : BookMirror σ) (S : Side) (i : Nat) (k : UInt64) :
    { m with updates := k }.slot S i = m.slot S i := by
  cases S <;> rfl

theorem lands_written {b : OrderBook σ} {sink : Sink} {A : PriorityBook}
    {evs : List Event} {q : Qty} (href : Refines m.rules b A)
    (hsend : OrderBook.Sends m.rules.cfg.maxOrders m.sink sink evs)
    (hholds : Holds m.rules (Function.update m.entries (S, i) q) A)
    (hquiet : evs.all quiet = true) :
    Lands m (m.written S i q b sink) (Function.update m.entries (S, i) q) := by
  have hent : (m.written S i q b sink).entries = Function.update m.entries (S, i) q :=
    entries_setSlot _ S i q
  cases S with
  | buy => exact ⟨⟨rfl, rfl, rfl, rfl, rfl, rfl, evs, hsend.events, hquiet⟩,
      ⟨A, href, by rw [hent]; exact hholds⟩, hent⟩
  | sell => exact ⟨⟨rfl, rfl, rfl, rfl, rfl, rfl, evs, hsend.events, hquiet⟩,
      ⟨A, href, by rw [hent]; exact hholds⟩, hent⟩

/-- What an addition needs: nothing in reach on the other side, and room for one more order. -/
def Fits (m : BookMirror σ) (S : Side) (i : Nat) : Prop :=
  Clear m.entries m.n S i ∧ live m.entries m.n .buy + live m.entries m.n .sell < m.maxOrders

/-- A level change lands: a removal or a change of a live level always, an addition when it fits. -/
theorem setLevel_lands (hn : m.n ≤ 2 ^ 30) (h : Mirrors m) (hrel : m.relOf u.px = some i)
    {allowAdd : Bool} (hadd : u.qty ≠ 0 → m.slot S i = 0 → allowAdd = true ∧ m.Fits S i) :
    ∃ m', m.setLevel S u allowAdd = some m' ∧
    Lands m m' (Function.update m.entries (S, i) u.qty) := by
  obtain ⟨A, href, hholds⟩ := h
  have ok := href.ok
  have hi : i < m.n := Rules.relOf_lt (R := m.rules) hrel
  simp only [setLevel, hrel, slot_counted]
  by_cases hq : u.qty = 0
  · rw [if_pos hq]
    by_cases hcur : m.slot S i = 0
    · -- nothing rests at the level and nothing is to rest there
      refine ⟨m.written S i u.qty m.book m.sink, ?_, ?_⟩
      · rw [if_neg (not_not.mpr hcur)]
        rfl
      · refine lands_written href (OrderBook.Sends.refl _ _) ?_ rfl
        rw [hq, Function.update_eq_iff.mpr ⟨hcur.symm, fun _ _ => rfl⟩]
        exact hholds
    · obtain ⟨b', sink', hrun, href', hsend⟩ := href.process (levelCommand .cancel i S u) m.sink
      obtain ⟨hholds', hquiet⟩ := hholds.cancels hn ok hi hcur (u := u) PriorityBook.fillableAgg
      refine ⟨m.written S i u.qty b' sink', ?_, ?_⟩
      · rw [if_pos hcur]
        simp only [OrderBook.process, levelCommand] at hrun ⊢
        rw [hrun]
        rfl
      · exact lands_written href' hsend (by rw [hq]; exact hholds') hquiet
  · rw [if_neg hq]
    by_cases hcur : m.slot S i = 0
    · obtain ⟨hallow, hclear, hroom⟩ := hadd hq hcur
      have hcount : PriorityBook.count A < m.rules.cfg.maxOrders := by
        rw [hholds.count_eq ok]
        exact hroom
      obtain ⟨b', sink', hrun, href', hsend⟩ := href.process (levelCommand .newOrder i S u) m.sink
      obtain ⟨hholds', hquiet⟩ :=
        hholds.adds hn ok hrel hcur hq hclear hcount PriorityBook.fillableAgg
      have hcontains : contains b' (idFor i S) = some true := by
        obtain ⟨e, _, _, _, hlook⟩ :=
          hholds'.lookup_some href'.ok hi (S := S) (by rw [Function.update_self]; exact hq)
        rcases href'.find (idFor i S) with ⟨_, hnone, _⟩ | ⟨s, hs, hfind, _⟩
        · rw [hlook] at hnone
          cases hnone
        · rw [contains, hfind]
          simp [hs]
      refine ⟨m.written S i u.qty b' sink', ?_, lands_written href' hsend hholds' hquiet⟩
      rw [if_pos hcur, hallow]
      simp only [OrderBook.process, levelCommand] at hrun ⊢
      simp only [hrun]
      simp [hcontains]
      rfl
    · obtain ⟨b', sink', hrun, href', hsend⟩ := href.process (levelCommand .modify i S u) m.sink
      obtain ⟨hholds', hquiet⟩ := hholds.modifies hn ok hrel hcur hq PriorityBook.fillableAgg
      refine ⟨m.written S i u.qty b' sink', ?_, lands_written href' hsend hholds' hquiet⟩
      rw [if_neg hcur]
      simp only [OrderBook.process, levelCommand] at hrun ⊢
      rw [hrun]
      rfl

end SetLevel

/-- The entry an update is for, if its price is in the band. -/
def key (m : BookMirror σ) (x : Side × LevelUpdate) : Option (Side × Nat) :=
  (m.relOf x.2.px).map (Prod.mk x.1)

section Passes

variable {m m' : BookMirror σ} {r : Record}

omit [StoreLayout σ] in
theorem eachLevel_eq (f : Side → LevelUpdate → BookMirror σ → Option (BookMirror σ)) :
    eachLevel f r m = r.updates.foldlM (fun m x => f x.1 x.2 m) m := by
  simp [eachLevel, Record.updates, List.foldlM_append, List.foldlM_map]

omit [StoreLayout σ] in
theorem Quietly.key (h : Quietly m m') : m'.key = m.key := by
  funext x
  rw [BookMirror.key, BookMirror.key, h.relOf]

theorem updates_land {f : Side → LevelUpdate → BookMirror σ → Option (BookMirror σ)}
    {g : Side × LevelUpdate → Qty → Qty} {I : Entries → Prop} {l : List (Side × LevelUpdate)}
    (hstep : ∀ m', Quietly m m' → Mirrors m' → I m'.entries → ∀ x ∈ l, ∃ m'',
      f x.1 x.2 m' = some m'' ∧
      Lands m' m'' (Cells.step m.key g m'.entries x) ∧ I m''.entries)
    (h : Mirrors m) (hinv : I m.entries) :
    ∃ m', l.foldlM (fun m x => f x.1 x.2 m) m = some m' ∧
    Lands m m' (l.foldl (Cells.step m.key g) m.entries) := by
  induction l generalizing m with
  | nil => exact ⟨m, rfl, Lands.refl h⟩
  | cons x xs ih =>
      obtain ⟨m₁, hrun, hland, hinv₁⟩ := hstep m (Quietly.refl m) h hinv x (by simp)
      obtain ⟨m', hrest, hlast⟩ := ih (m := m₁) (fun m₂ hq hm hi y hy => by
        rw [hland.quietly.key]
        exact hstep m₂ (hland.quietly.trans hq) hm hi y (by simp [hy])) hland.mirrors hinv₁
      rw [hland.quietly.key, hland.entries] at hlast
      refine ⟨m', ?_, hlast.after hland.quietly⟩
      rw [List.foldlM_cons, hrun]
      exact hrest

theorem lands_outOfBand (h : Mirrors m) (k : UInt64) :
    Lands m { m with outOfBand := k } m.entries :=
  ⟨⟨rfl, rfl, rfl, rfl, rfl, rfl, [], by simp, rfl⟩, h, rfl⟩

/-- What the two passes make of an entry. -/
def lower (x : Side × LevelUpdate) (v : Qty) : Qty := if x.2.qty < v then x.2.qty else v
def raise (x : Side × LevelUpdate) (v : Qty) : Qty := if x.2.qty < v then v else x.2.qty

theorem lower_raise (x : Side × LevelUpdate) (v : Qty) : raise x (lower x v) = x.2.qty := by
  by_cases h : x.2.qty < v
  · have hlow : lower x v = x.2.qty := if_pos h
    rw [hlow]
    exact if_neg (UInt64.lt_irrefl _)
  · have hlow : lower x v = v := if_neg h
    rw [hlow]
    exact if_neg h

theorem first_touch (hn : m.n ≤ 2 ^ 30) (h : Mirrors m) (x : Side × LevelUpdate) :
    ∃ m', m.touch x.1 x.2 0 0 = some m' ∧ Lands m m' (Cells.step m.key lower m.entries x) := by
  obtain ⟨S, u⟩ := x
  simp only [touch, ne_eq, not_true_eq_false, false_and, if_false, if_true, true_and]
  cases hrel : m.relOf u.px with
  | none =>
      rw [Cells.step_none (by simp [key, hrel])]
      exact ⟨_, rfl, lands_outOfBand h _⟩
  | some i =>
      rw [Cells.step_some (k := (S, i)) (by simp [key, hrel]), lower]
      simp only
      by_cases hlt : u.qty < m.slot S i
      · rw [if_pos hlt, if_pos (show u.qty < m.entries (S, i) from hlt)]
        refine setLevel_lands hn h hrel fun _ hcur => ?_
        rw [hcur] at hlt
        exact absurd hlt UInt64.not_lt_zero
      · refine ⟨m, ?_, ?_⟩
        · simp [hlt]
        · rw [if_neg (show ¬ u.qty < m.entries (S, i) from hlt), Function.update_eq_self]
          exact Lands.refl h

theorem second_touch (hn : m.n ≤ 2 ^ 30) (h : Mirrors m) (x : Side × LevelUpdate)
    (hfits : ∀ k, m.key x = some k → x.2.qty ≠ 0 → m.entries k = 0 → m.Fits k.1 k.2) :
    ∃ m', m.touch x.1 x.2 1 0 = some m' ∧ Lands m m' (Cells.step m.key raise m.entries x) := by
  obtain ⟨S, u⟩ := x
  simp only [touch, ne_eq, not_true_eq_false, false_and, if_false, one_ne_zero, true_and]
  cases hrel : m.relOf u.px with
  | none =>
      rw [Cells.step_none (by simp [key, hrel])]
      exact ⟨_, rfl, Lands.refl h⟩
  | some i =>
      have hkey : m.key (S, u) = some (S, i) := by simp [key, hrel]
      rw [Cells.step_some hkey, raise]
      simp only
      by_cases hlt : u.qty < m.slot S i
      · refine ⟨m, ?_, ?_⟩
        · simp [hlt]
        · rw [if_pos (show u.qty < m.entries (S, i) from hlt), Function.update_eq_self]
          exact Lands.refl h
      · rw [if_pos hlt, if_neg (show ¬ u.qty < m.entries (S, i) from hlt)]
        exact setLevel_lands hn h hrel fun hq hcur => ⟨rfl, hfits _ hkey hq hcur⟩

/-- Bids below asks. -/
def Uncrossed (F : Entries) (n : Nat) : Prop :=
  ∀ i j, i < n → j < n → F (.buy, i) ≠ 0 → F (.sell, j) ≠ 0 → i < j

structure Fit (F : Entries) (n maxOrders : Nat) : Prop where
  uncrossed : Uncrossed F n
  room : live F n .buy + live F n .sell ≤ maxOrders

section Room

variable {E F : Entries} {n : Nat} {S : Side} {i : Nat}

theorem live_le (h : ∀ i, i < n → E (S, i) ≠ 0 → F (S, i) ≠ 0) : live E n S ≤ live F n S :=
  List.countP_mono_left fun i hi hE => by simpa using h i (List.mem_range.mp hi) (by simpa using hE)

theorem live_lt (h : ∀ k, E k ≠ 0 → F k ≠ 0) (hi : i < n) (hE : E (S, i) = 0) (hF : F (S, i) ≠ 0) :
    live E n S < live F n S := by
  rw [live, live, List.countP_eq_length_filter, List.countP_eq_length_filter]
  have hsub : ((List.range n).filter fun j => E (S, j) ≠ 0).Sublist
      ((List.range n).filter fun j => F (S, j) ≠ 0) :=
    List.monotone_filter_right _ fun j hj => by simpa using h (S, j) (by simpa using hj)
  refine Nat.lt_of_le_of_ne hsub.length_le fun heq => ?_
  have hmem : i ∈ (List.range n).filter fun j => F (S, j) ≠ 0 := by simp [hi, hF]
  rw [← hsub.eq_of_length heq] at hmem
  simp [hE] at hmem

theorem Fit.fits {maxOrders : Nat} (hF : Fit F n maxOrders) (h : ∀ k, E k ≠ 0 → F k ≠ 0)
    (hi : i < n) (hE : E (S, i) = 0) (hq : F (S, i) ≠ 0) : Clear E n S i ∧
    live E n .buy + live E n .sell < maxOrders := by
  have hlt := live_lt h hi hE hq
  have hroom := hF.room
  cases S with
  | buy =>
      refine ⟨fun j hj hEj => ?_, ?_⟩
      · have := hF.uncrossed i j hi hj hq (h _ hEj)
        simp only [inRange, decide_eq_false_iff_not]
        omega
      · have := live_le (n := n) fun i _ => h (.sell, i)
        omega
  | sell =>
      refine ⟨fun j hj hEj => ?_, ?_⟩
      · have := hF.uncrossed j i hj hi (h _ hEj) hq
        simp only [inRange, decide_eq_false_iff_not]
        omega
      · have := live_le (n := n) fun i _ => h (.buy, i)
        omega

end Room

/-- The entries with every in-band update of the record written over them. -/
def overwritten (m : BookMirror σ) (r : Record) : Entries := fun k =>
  match (r.levels k.1).find? fun u => m.relOf u.px = some k.2 with
  | some u => u.qty
  | none => m.entries k

omit [StoreLayout σ] in
theorem relOf_inj {p q : Price} {i : Nat} (hp : m.relOf p = some i) (hq : m.relOf q = some i) :
    p = q := by
  rw [← Rules.priceOf_relOf (R := m.rules) hp, ← Rules.priceOf_relOf (R := m.rules) hq]

omit [StoreLayout σ] in
theorem key_eq_some {x : Side × LevelUpdate} {k : Side × Nat} :
    m.key x = some k ↔ x.1 = k.1 ∧ m.relOf x.2.px = some k.2 := by
  obtain ⟨S, i⟩ := k
  rw [key, Option.map_eq_some_iff]
  constructor
  · rintro ⟨j, hj, heq⟩
    cases heq
    exact ⟨rfl, hj⟩
  · rintro ⟨rfl, hj⟩
    exact ⟨i, hj, rfl⟩

omit [StoreLayout σ] in
theorem distinct_apart (h : r.Distinct) (m : BookMirror σ) : Cells.Apart m.key r.updates := by
  have hside : ∀ S, Cells.Apart m.key ((r.levels S).map (Prod.mk S)) := by
    intro S
    refine List.pairwise_map.mpr ((List.pairwise_map.mp (h S)).imp fun hne k hx hy => hne ?_)
    exact relOf_inj (key_eq_some.mp hx).2 (key_eq_some.mp hy).2
  refine List.pairwise_append.mpr ⟨hside .buy, hside .sell, fun x hx y hy k hkx hky => ?_⟩
  obtain ⟨u, _, rfl⟩ := List.mem_map.mp hx
  obtain ⟨v, _, rfl⟩ := List.mem_map.mp hy
  have hb := (key_eq_some.mp hkx).1
  have hs := (key_eq_some.mp hky).1
  rw [← hb] at hs
  cases hs

omit [StoreLayout σ] in
theorem find_updates (m : BookMirror σ) (r : Record) (k : Side × Nat) :
    (r.updates.find? fun x => m.key x = some k) =
      ((r.levels k.1).find? fun u => m.relOf u.px = some k.2).map (Prod.mk k.1) := by
  obtain ⟨S, i⟩ := k
  have hother : ∀ T, T ≠ S → ∀ l : List LevelUpdate, (l.map (Prod.mk T)).find?
      (fun x => m.key x = some (S, i)) = none := by
    intro T hT l
    rw [List.find?_eq_none]
    intro x hx hkey
    obtain ⟨u, _, rfl⟩ := List.mem_map.mp hx
    exact hT (key_eq_some.mp (of_decide_eq_true hkey)).1
  have hown : ∀ l : List LevelUpdate, (l.map (Prod.mk S)).find? (fun x => m.key x = some (S, i)) =
      (l.find? fun u => m.relOf u.px = some i).map (Prod.mk S) := by
    intro l
    rw [List.find?_map]
    congr 2
    funext u
    simp [key_eq_some]
  cases S with
  | buy =>
      rw [Record.updates, List.find?_append, hown, hother .sell (by decide)]
      simp [Record.levels]
  | sell =>
      rw [Record.updates, List.find?_append, hown, hother .buy (by decide)]
      simp [Record.levels]

omit [StoreLayout σ] in
theorem overwritten_eq (m : BookMirror σ) (r : Record) (k : Side × Nat) :
    m.overwritten r k = match r.updates.find? fun x => m.key x = some k with
      | some x => x.2.qty
      | none => m.entries k := by
  rw [overwritten, find_updates]
  cases (r.levels k.1).find? fun u => m.relOf u.px = some k.2 <;> rfl

theorem additions_land {f : Side → LevelUpdate → BookMirror σ → Option (BookMirror σ)}
    {g : Side × LevelUpdate → Qty → Qty} (hg : ∀ x v, g x v = v ∨ g x v = x.2.qty) {F : Entries}
    (hF : Fit F m.n m.maxOrders) {l : List (Side × LevelUpdate)}
    (htarget : ∀ x ∈ l, ∀ k, m.key x = some k → F k = x.2.qty)
    (hstep : ∀ m', Quietly m m' → Mirrors m' → ∀ x ∈ l,
      (∀ k, m'.key x = some k → x.2.qty ≠ 0 → m'.entries k = 0 → m'.Fits k.1 k.2) →
      ∃ m'', f x.1 x.2 m' = some m'' ∧ Lands m' m'' (Cells.step m'.key g m'.entries x))
    (h : Mirrors m) (hpart : ∀ k, m.entries k ≠ 0 → F k ≠ 0) :
    ∃ m', l.foldlM (fun m x => f x.1 x.2 m) m = some m' ∧
    Lands m m' (l.foldl (Cells.step m.key g) m.entries) := by
  refine updates_land (I := fun E => ∀ k, E k ≠ 0 → F k ≠ 0) (fun m' hq hm hinv x hx => ?_) h hpart
  have hfits : ∀ k, m'.key x = some k → x.2.qty ≠ 0 → m'.entries k = 0 → m'.Fits k.1 k.2 := by
    intro k hk hq0 hE
    rw [hq.key] at hk
    rw [Fits, hq.n, hq.maxOrders]
    exact hF.fits hinv (Rules.relOf_lt (R := m.rules) (key_eq_some.mp hk).2) hE
      (by rw [htarget x hx k hk]; exact hq0)
  obtain ⟨m'', hrun, hland⟩ := hstep m' hq hm x hx hfits
  rw [hq.key] at hland
  refine ⟨m'', hrun, hland, fun k hk => ?_⟩
  rw [hland.entries] at hk
  by_cases hkey : m.key x = some k
  · rw [Cells.step_some hkey, Function.update_self] at hk
    rcases hg x (m'.entries k) with heq | heq
    · exact hinv k (heq ▸ hk)
    · rw [htarget x hx k hkey]
      exact heq ▸ hk
  · rw [Cells.step_other hkey] at hk
    exact hinv k hk

theorem Mirrors.apply (h : Mirrors m) (hn : m.n ≤ 2 ^ 30) (hd : r.Distinct)
    (hF : Fit (m.overwritten r) m.n m.maxOrders) :
    ∃ m', m.apply r 0 = some m' ∧ Lands m m' (m.overwritten r) := by
  have hapart := distinct_apart hd m
  obtain ⟨m₁, hrun₁, hland₁⟩ :=
    updates_land (m := m) (f := fun S u m => m.touch S u 0 0) (g := lower)
    (I := fun _ => True) (l := r.updates) (fun m' hq hm _ x _ => by
      obtain ⟨m'', hrun, hland⟩ := first_touch (by rw [hq.n]; exact hn) hm x
      rw [hq.key] at hland
      exact ⟨m'', hrun, hland, trivial⟩) h trivial
  -- an entry left by the first pass is one of the result
  have hpart : ∀ k, m₁.entries k ≠ 0 → m.overwritten r k ≠ 0 := by
    intro k hk
    rw [hland₁.entries, Cells.foldl_eq hapart] at hk
    rw [overwritten_eq]
    cases hfind : r.updates.find? fun x => m.key x = some k with
    | none => simpa [hfind] using hk
    | some x =>
        simp only [hfind, lower] at hk ⊢
        intro h0
        rw [h0] at hk
        split at hk
        · exact hk rfl
        · rename_i hlt
          exact hlt (UInt64.pos_iff_ne_zero.mpr hk)
  have htarget : ∀ x ∈ r.updates, ∀ k, m₁.key x = some k → m.overwritten r k = x.2.qty := by
    intro x hx k hk
    rw [hland₁.quietly.key] at hk
    rw [overwritten_eq, hapart.find hx hk]
  have hraise : ∀ x v, raise x v = v ∨ raise x v = x.2.qty := by
    intro x v
    by_cases hlt : x.2.qty < v
    · exact .inl (if_pos hlt)
    · exact .inr (if_neg hlt)
  have hF₁ : Fit (m.overwritten r) m₁.n m₁.maxOrders := by
    rw [hland₁.quietly.n, hland₁.quietly.maxOrders]
    exact hF
  obtain ⟨m₂, hrun₂, hland₂⟩ :=
    additions_land (m := m₁) (f := fun S u m => m.touch S u 1 0) hraise hF₁ htarget
    (fun m' hq hm x _ hfits => by
      refine second_touch ?_ hm x hfits
      rw [hq.n, hland₁.quietly.n]
      exact hn) hland₁.mirrors hpart
  refine ⟨m₂, ?_, hland₁.quietly.trans hland₂.quietly, hland₂.mirrors, ?_⟩
  · rw [BookMirror.apply, eachLevel_eq, hrun₁, Option.bind_eq_bind, Option.bind_some,
      eachLevel_eq, hrun₂]
  · funext k
    rw [hland₂.entries, hland₁.quietly.key, Cells.foldl_eq hapart, overwritten_eq, hland₁.entries]
    cases hfind : r.updates.find? fun x => m.key x = some k with
    | none =>
        simp only
        rw [Cells.foldl_eq hapart, hfind]
    | some x =>
        simp only
        rw [Cells.foldl_eq hapart, hfind]
        exact lower_raise x _

end Passes

/-- One order for each non-zero entry of a side: price, id and quantity. -/
def levelOrders (m : BookMirror σ) (S : Side) : List (Price × OrderId × Qty) :=
  ((List.range m.n).filter fun i => m.slot S i ≠ 0).map fun i : Nat =>
    (m.minPx + Int64.ofInt i, idFor i S, m.slot S i)

/-- The engine's book holds exactly one order per non-zero entry. -/
def OnePerLevel (m : BookMirror σ) : Prop :=
  ∀ S, ∃ l, m.book.forEachOrder S = some l ∧ l.Perm (m.levelOrders S)

/-- The mirror's book is an engine book in a state that commands can bring it to. -/
def BookReached (hash : IndexHash) (m : BookMirror σ) : Prop :=
  ∃ cs outs, (OrderBook.make hash 0 m.cfg).run cs = some (m.book, outs)

section OnePerLevel

variable {m : BookMirror σ} {A : PriorityBook}

theorem Mirrors.onePerLevel (h : Mirrors m) : m.OnePerLevel := by
  obtain ⟨A, href, hholds⟩ := h
  refine fun S => ⟨_, href.forEachOrder S, ?_⟩
  have hmap : ((A S).map fun e => (m.rules.priceOf e.level, e.id, e.qty)) =
      ((A S).map Resting.level).map fun i :
      Nat => (m.minPx + Int64.ofInt i, idFor i S, m.slot S i) := by
    rw [List.map_map]
    refine List.map_congr_left fun e he => ?_
    simp only [Function.comp_apply, hholds.named S e he, hholds.total S e he]
    rfl
  rw [hmap]
  exact (hholds.levels_perm href.ok S).map _

theorem OnePerLevel.holds (h : m.OnePerLevel) (hn : m.n ≤ 2 ^ 30)
    (href : Refines m.rules m.book A) :
    Holds m.rules m.entries A := by
  have hlist : ∀ S x, x ∈ (A S).map (fun e => (m.rules.priceOf e.level, e.id, e.qty)) ↔
      x ∈ m.levelOrders S := by
    intro S x
    obtain ⟨l, hl, hperm⟩ := h S
    rw [href.forEachOrder S] at hl
    cases hl
    exact hperm.mem_iff
  have hentry : ∀ S, ∀ e ∈ A S, e.id = idFor e.level S ∧ e.qty = m.slot S e.level := by
    intro S e he
    obtain ⟨i, hi, heq⟩ := List.mem_map.mp ((hlist S _).mp (List.mem_map_of_mem he))
    obtain ⟨hpx, hid, hqty⟩ : m.rules.priceOf (i : Nat) = m.rules.priceOf e.level ∧
        idFor i S = e.id ∧ m.slot S i = e.qty := by
      simpa [Prod.ext_iff, Rules.priceOf, rules, cfg, bookConfig] using heq
    have hlt : i < m.n := by simpa using (List.mem_filter.mp hi).1
    have hlev := Rules.priceOf_inj (R := m.rules) hn hlt (href.ok.level_lt S e he) hpx
    rw [hlev] at hid hqty
    exact ⟨hid.symm, hqty.symm⟩
  refine ⟨fun S e he => (hentry S e he).1, fun S e he => (hentry S e he).2, fun S i hi hE => ?_⟩
  have hmem : (m.minPx + Int64.ofInt i, idFor i S, m.slot S i) ∈ m.levelOrders S :=
    List.mem_map.mpr ⟨i, by simpa using ⟨hi, hE⟩, rfl⟩
  obtain ⟨e, he, heq⟩ := List.mem_map.mp ((hlist S _).mpr hmem)
  exact ⟨e, he, Rules.priceOf_inj (R := m.rules) hn (href.ok.level_lt S e he) hi
    (Prod.mk.inj heq).1⟩

theorem BookReached.refines {hash : IndexHash} (h : m.BookReached hash) (ok : m.cfg.Accepted) :
    ∃ A, Refines m.rules m.book A := by
  obtain ⟨cs, outs, hrun⟩ := h
  obtain ⟨b', outs', hrun', href, _⟩ := (OrderBook.refines_make (σ := σ) hash 0 ok).run cs
  rw [hrun] at hrun'
  cases hrun'
  exact ⟨_, href⟩

end OnePerLevel

/-- A diff with distinct prices per side, whose in-band result is uncrossed and has room, is applied
without a trade, a rejection or a full book, and the engine's book then holds exactly one order per
entry of that result. -/
theorem apply_lands_on_diff (hash : IndexHash) (m : BookMirror σ) (ok : m.cfg.Accepted)
    (hreached : m.BookReached hash) (hone : m.OnePerLevel) (diff : Record)
    (hdistinct : diff.Distinct) (hfit : Fit (m.overwritten diff) m.n m.maxOrders) :
    ∃ m', m.apply diff 0 = some m' ∧
      (∃ evs, m'.sink.events = m.sink.events ++ evs ∧
        ∀ e ∈ evs, e.type ≠ .trade ∧ e.type ≠ .rejected ∧ e.reason ≠ .bookFull) ∧
      m'.bookFull = m.bookFull ∧ m'.OnePerLevel ∧ ∀ S i, i < m.n →
      m'.slot S i = m.overwritten diff (S, i) := by
  obtain ⟨A, href⟩ := hreached.refines ok
  have hmirrors : Mirrors m := ⟨A, href, hone.holds ok.levels_le href⟩
  obtain ⟨m', hrun, hland⟩ := hmirrors.apply ok.levels_le hdistinct hfit
  obtain ⟨evs, hevents, hquiet⟩ := hland.quietly.events
  refine ⟨m', hrun, ⟨evs, hevents, fun e he => ?_⟩, hland.quietly.bookFull,
    hland.mirrors.onePerLevel, ?_⟩
  · simpa [quiet, and_assoc] using List.all_eq_true.mp hquiet e he
  · intro S i _
    exact congrFun hland.entries (S, i)

/-- A mirror of the prices 0 to 63 with a bid of 100 at 30 and an ask of 100 at 34. -/
def twoLevels (book : OrderBook AosStore) : BookMirror AosStore where
  minPx := 0
  n := 64
  maxOrders := 4
  bidQty := fun i => if i = 30 then 100 else 0
  askQty := fun i => if i = 34 then 100 else 0
  book := book
  sink := {}

def twoLevelsBook : OrderBook AosStore := OrderBook.make scatterHash 0 (bookConfig 0 64 4)

def twoLevelsRun : List Command :=
  [levelCommand .newOrder 30 .buy ⟨30, 100⟩, levelCommand .newOrder 34 .sell ⟨34, 100⟩]

/-- The market rallies in one batch: the ask at 34 goes and a bid appears above it. -/
def rally : Record := ⟨[⟨36, 50⟩], [⟨34, 0⟩, ⟨38, 7⟩, ⟨90, 5⟩]⟩

theorem twoLevels_onePerLevel {b : OrderBook AosStore} {outs : List Sink}
    (hrun : twoLevelsBook.run twoLevelsRun = some (b, outs)) : (twoLevels b).OnePerLevel := by
  have hlist : ∀ S, (twoLevelsBook.run twoLevelsRun).map (fun p => p.1.forEachOrder S) =
      some (some ((twoLevels twoLevelsBook).levelOrders S)) := by
    intro S
    cases S <;> decide +kernel
  intro S
  have hS := hlist S
  rw [hrun, Option.map_some, Option.some.injEq] at hS
  exact ⟨_, hS, List.Perm.refl _⟩

theorem rally_overwritten (b : OrderBook AosStore) :
    (twoLevels b).overwritten rally = (twoLevels twoLevelsBook).overwritten rally := rfl

theorem rally_fit (b : OrderBook AosStore) : Fit ((twoLevels b).overwritten rally) 64 4 := by
  have hbids : ∀ i < 64, (twoLevels twoLevelsBook).overwritten rally (.buy, i) ≠ 0 → i ≤ 36 := by
    decide +kernel
  have hasks : ∀ j < 64, (twoLevels twoLevelsBook).overwritten rally (.sell, j) ≠ 0 → j = 38 := by
    decide +kernel
  have hroom : live ((twoLevels twoLevelsBook).overwritten rally) 64 .buy +
      live ((twoLevels twoLevelsBook).overwritten rally) 64 .sell ≤ 4 := by decide +kernel
  rw [rally_overwritten]
  refine ⟨fun i j hi hj hb hs => ?_, hroom⟩
  have := hbids i hi hb
  have := hasks j hj hs
  omega

theorem apply_lands_on_rally :
    ∃ b outs m', twoLevelsBook.run twoLevelsRun = some (b, outs) ∧
      (twoLevels b).apply rally 0 = some m' ∧ m'.OnePerLevel ∧ m'.slot .buy 36 = 50 ∧
      m'.slot .sell 34 = 0 := by
  have ok : (bookConfig 0 64 4).Accepted := by decide
  obtain ⟨b, outs, hrun, _⟩ :=
    (OrderBook.refines_make (σ := AosStore) scatterHash 0 ok).run twoLevelsRun
  obtain ⟨m', happly, _, _, hone, hslot⟩ := apply_lands_on_diff scatterHash (twoLevels b) ok
    ⟨twoLevelsRun, outs, hrun⟩ (twoLevels_onePerLevel hrun) rally
      (by intro S; cases S <;> decide) (rally_fit b)
  have hbid : (twoLevels twoLevelsBook).overwritten rally (.buy, 36) = 50 := by decide +kernel
  have hask : (twoLevels twoLevelsBook).overwritten rally (.sell, 34) = 0 := by decide +kernel
  rw [rally_overwritten] at hslot
  refine ⟨b, outs, m', hrun, happly, hone, ?_, ?_⟩
  · exact (hslot .buy 36 (show 36 < 64 by decide)).trans hbid
  · exact (hslot .sell 34 (show 34 < 64 by decide)).trans hask

end BookMirror
end ExchangeSim.Mirror
