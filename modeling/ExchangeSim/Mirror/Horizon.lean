/- digest: Inside the seeded depth the mirror is the exchange's book, however the market moves. -/

import ExchangeSim.Book.Priority
import ExchangeSim.Mirror.TwoPass

set_option autoImplicit false
set_option relaxedAutoImplicit false

namespace ExchangeSim.Mirror

open ExchangeSim.Book ExchangeSim.Lib
open PriorityBook (Rules Ok inRange)
open OrderBook (Refines)

/-- The exchange's book: the total of every price on each side. -/
abbrev Totals := Side → Price → Qty

structure SnapshotOf (T : Totals) (S : Side) (l : List LevelUpdate) : Prop where
  listed : ∀ u ∈ l, u.qty ≠ 0 ∧ u.qty = T S u.px
  sorted : l.Pairwise fun u v => Better S u.px v.px
  best : ∀ p, T S p ≠ 0 → (∃ u ∈ l, u.px = p) ∨ ∀ u ∈ l, Better S u.px p
  nonempty : l = [] → ∀ p, T S p = 0

/-- The diff from one book to the next: the new total of every level that changed, and maybe of
others. -/
structure DiffOf (T T' : Totals) (r : Record) : Prop where
  distinct : r.Distinct
  totals : ∀ S, ∀ u ∈ r.levels S, u.qty = T' S u.px
  changed : ∀ S p, T S p ≠ T' S p → ⟨p, T' S p⟩ ∈ r.levels S

namespace BookMirror

variable {σ : Type} [StoreLayout σ]

/-- The totals of the mirror's band. -/
def band (m : BookMirror σ) (T : Totals) : Entries := fun k => T k.1 (m.rules.priceOf k.2)

/-- The levels of the band from the best of a side on. -/
def ladder (n : Nat) : Side → List Nat
  | .buy => (List.range n).reverse
  | .sell => List.range n

/-- The in-band levels of a side within the horizon, best first. -/
def levelsWithin (m : BookMirror σ) (T : Totals) (S : Side) : List LevelUpdate :=
  ((ladder m.n S).filter fun i : Nat => T S (m.rules.priceOf i) ≠ 0 ∧
    ¬ m.beyond S (m.rules.priceOf i)).map
    fun i : Nat => ⟨m.rules.priceOf i, T S (m.rules.priceOf i)⟩

/-- A price whose offset the code can compute: signed overflow is undefined. -/
def PxDefined (m : BookMirror σ) (p : Price) : Prop :=
  -2 ^ 63 ≤ p.toInt - m.minPx.toInt ∧ p.toInt - m.minPx.toInt < 2 ^ 63

/-- An exchange whose book stays uncrossed, whose in-band levels fit and whose prices are
representable offsets. -/
structure Exchange (m : BookMirror σ) (T : Nat → Totals) : Prop where
  uncrossed : ∀ k p q, T k .buy p ≠ 0 → T k .sell q ≠ 0 → p < q
  room : ∀ k, live (m.band (T k)) m.n .buy + live (m.band (T k)) m.n .sell ≤ m.maxOrders
  defined : m.cfg.BandFits ∨ ∀ k S p, T k S p ≠ 0 → m.PxDefined p

/-- The mirror is seeded and then follows the diffs. -/
def follow (hash : IndexHash) (snap : Record) (diffs : List Record) (m : BookMirror σ) :
    Option (BookMirror σ) := do
  let m ← m.seed hash snap
  diffs.foldlM (fun m r => m.apply r 0) m

section Band

variable {m : BookMirror σ} {T : Totals}

omit [StoreLayout σ] in
theorem relOf_priceOf (hn : m.n ≤ 2 ^ 30) {i : Nat} (hi : i < m.n) :
    m.relOf (m.rules.priceOf i) = some i := by
  have hback : m.rules.priceOf i - m.minPx = Int64.ofInt i := by
    simp only [Rules.priceOf, rules, cfg, bookConfig]
    grind
  have hrel : (m.rules.priceOf i - m.minPx).toInt = i := by
    rw [hback, Int64.toInt_ofInt]
    simp only [Int.bmod, Int64.size]
    omega
  simp only [relOf, hrel]
  rw [if_neg (by omega)]
  simp

omit [StoreLayout σ] in
theorem Exchange.priceOf_toInt {T : Nat → Totals} (h : m.Exchange T) (hn : m.n ≤ 2 ^ 30) {k : Nat}
    {S : Side} {i : Nat} (hi : i < m.n) (hT : T k S (m.rules.priceOf i) ≠ 0) :
    (m.rules.priceOf i).toInt = m.minPx.toInt + i := by
  have hlo := Int64.le_toInt m.minPx
  have hwrap : (m.rules.priceOf i).toInt = (m.minPx.toInt + i).bmod (2 ^ 64) := by
    simp only [Rules.priceOf, rules, cfg, bookConfig, Int64.toInt_add, Int64.toInt_ofInt]
    simp only [Int.bmod, Int64.size]
    omega
  rcases h.defined with hband | hdef
  · simp only [BookConfig.BandFits, cfg, bookConfig] at hband
    rw [hwrap]
    simp only [Int.bmod]
    omega
  · obtain ⟨h1, h2⟩ := hdef k S _ hT
    rw [hwrap] at h1 h2 ⊢
    simp only [Int.bmod] at h1 h2 ⊢
    omega

omit [StoreLayout σ] in
/-- The in-band part of an uncrossed book that fits is one the mirror can hold, and so is every part
of it. -/
theorem Exchange.fit {T : Nat → Totals} (h : m.Exchange T) (hn : m.n ≤ 2 ^ 30)
    {k : Nat} {F : Entries} (hpart : ∀ S i, i < m.n → F (S, i) ≠ 0 →
      F (S, i) = T k S (m.rules.priceOf i)) : Fit F m.n m.maxOrders := by
  have hlive : ∀ S i, i < m.n → F (S, i) ≠ 0 → T k S (m.rules.priceOf i) ≠ 0 := by
    intro S i hi hF
    rw [← hpart S i hi hF]
    exact hF
  constructor
  · intro i j hi hj hb hs
    have hTb := hlive .buy i hi hb
    have hTs := hlive .sell j hj hs
    have hlt := Int64.lt_iff_toInt_lt.mp (h.uncrossed k _ _ hTb hTs)
    rw [h.priceOf_toInt hn hi hTb, h.priceOf_toInt hn hj hTs] at hlt
    omega
  · have hb : live F m.n .buy ≤ live (m.band (T k)) m.n .buy := live_le (hlive .buy)
    have hs : live F m.n .sell ≤ live (m.band (T k)) m.n .sell := live_le (hlive .sell)
    exact (Nat.add_le_add hb hs).trans (h.room k)

end Band

/-- What the mirror knows of the exchange's book: no live entry is wrong, and within the horizon
none is missing. -/
structure Tracks (m : BookMirror σ) (T : Totals) : Prop where
  mirrors : Mirrors m
  sound : ∀ S i, i < m.n → m.slot S i ≠ 0 → m.slot S i = T S (m.rules.priceOf i)
  complete : ∀ S i, i < m.n → m.beyond S (m.rules.priceOf i) = false →
    m.slot S i = T S (m.rules.priceOf i)
  untraded : ∀ e ∈ m.sink.events, e.type ≠ .trade

section Step

variable {m m' : BookMirror σ}

omit [StoreLayout σ] in
theorem Quietly.cfg (h : Quietly m m') : m'.cfg = m.cfg := by
  simp only [BookMirror.cfg, h.minPx, h.n, h.maxOrders]

omit [StoreLayout σ] in
theorem Quietly.rules (h : Quietly m m') : m'.rules = m.rules := by
  rw [BookMirror.rules, h.cfg, BookMirror.rules]

omit [StoreLayout σ] in
theorem Quietly.beyond (h : Quietly m m') : m'.beyond = m.beyond := by
  funext S p
  simp only [BookMirror.beyond, h.bidHorizon, h.askHorizon]

omit [StoreLayout σ] in
theorem Exchange.of_cfg {T : Nat → Totals} (ex : m.Exchange T)
    (h : m'.cfg = m.cfg) : m'.Exchange T := by
  have hmin : m'.minPx = m.minPx := congrArg BookConfig.minPrice h
  have hn : m'.n = m.n := congrArg BookConfig.numLevels h
  have hmax : m'.maxOrders = m.maxOrders := congrArg BookConfig.maxOrders h
  have hband : m'.band = m.band := by
    funext T k
    simp only [band, rules, h]
  refine ⟨ex.uncrossed, fun k => ?_, ?_⟩
  · simpa only [hband, hn, hmax] using ex.room k
  · simpa only [PxDefined, h, hmin] using ex.defined

omit [StoreLayout σ] in
/-- What a diff makes of an entry: the new total, or what it was where the total has not changed. -/
theorem overwritten_of_diff {T T' : Totals} {r : Record} (h : DiffOf T T' r) (hn : m.n ≤ 2 ^ 30)
    (S : Side) {i : Nat} (hi : i < m.n) : m.overwritten r (S, i) = T' S (m.rules.priceOf i) ∨
      (m.overwritten r (S, i) = m.slot S i ∧
        T S (m.rules.priceOf i) = T' S (m.rules.priceOf i)) := by
  rw [BookMirror.overwritten]
  cases hfind : (r.levels S).find? fun u => m.relOf u.px = some i with
  | some u =>
      have hrel : m.relOf u.px = some i := by simpa using List.find?_some hfind
      refine .inl ((h.totals S u (List.mem_of_find?_eq_some hfind)).trans ?_)
      rw [Rules.priceOf_relOf (R := m.rules) hrel]
  | none =>
      refine .inr ⟨rfl, ?_⟩
      by_contra hne
      have := List.find?_eq_none.mp hfind _ (h.changed S _ hne)
      simp [relOf_priceOf hn hi] at this

theorem Tracks.apply {T : Nat → Totals} {k : Nat} {r : Record} (h : m.Tracks (T k))
    (hn : m.n ≤ 2 ^ 30) (ex : m.Exchange T) (hd : DiffOf (T k) (T (k + 1)) r) :
    ∃ m', m.apply r 0 = some m' ∧ m'.Tracks (T (k + 1)) ∧ Quietly m m' := by
  have hsound : ∀ S i, i < m.n → m.overwritten r (S, i) ≠ 0 →
      m.overwritten r (S, i) = T (k + 1) S (m.rules.priceOf i) := by
    intro S i hi hF
    rcases overwritten_of_diff hd hn S hi with hnew | ⟨hold, hsame⟩
    · exact hnew
    · rw [hold] at hF ⊢
      rw [← hsame]
      exact h.sound S i hi hF
  obtain ⟨m', hrun, hland⟩ := h.mirrors.apply hn hd.distinct (ex.fit hn hsound)
  have hslot : ∀ S i, m'.slot S i = m.overwritten r (S, i) :=
    fun S i => congrFun hland.entries (S, i)
  have hq := hland.quietly
  refine ⟨m', hrun, ⟨hland.mirrors, fun S i hi hne => ?_, fun S i hi hin => ?_, fun e he => ?_⟩, hq⟩
  · rw [hslot] at hne ⊢
    rw [hq.rules]
    exact hsound S i (hq.n ▸ hi) hne
  · rw [hq.n] at hi
    rw [hq.rules, hq.beyond] at hin
    rw [hslot, hq.rules]
    rcases overwritten_of_diff hd hn S hi with hnew | ⟨hold, hsame⟩
    · exact hnew
    · rw [hold, ← hsame]
      exact h.complete S i hi hin
  · obtain ⟨evs, hev, hquiet⟩ := hq.events
    rw [hev] at he
    rcases List.mem_append.mp he with he | he
    · exact h.untraded e he
    · have := List.all_eq_true.mp hquiet e he
      simp only [quiet, Bool.and_eq_true, decide_eq_true_eq] at this
      exact this.1.1

end Step

section Seed

variable {m : BookMirror σ} {T : Nat → Totals} {snap : Record}

omit [StoreLayout σ] in
theorem better_ne {S : Side} {p q : Price} (h : Better S p q) : p ≠ q := by
  rintro rfl
  cases S <;> simp [Better] at h

omit [StoreLayout σ] in
theorem seed_entries {T : Totals} (hsnap : ∀ S, SnapshotOf T S (snap.levels S))
    (hempty : ∀ k, m.entries k = 0) (S : Side) (i : Nat) (hF : m.overwritten snap (S, i) ≠ 0) :
    m.overwritten snap (S, i) = T S (m.rules.priceOf i) := by
  rw [overwritten] at hF ⊢
  cases hfind : (snap.levels S).find? fun u => m.relOf u.px = some i with
  | none =>
      simp only [hfind] at hF
      exact absurd (hempty _) hF
  | some u =>
      have hrel : m.relOf u.px = some i := by simpa using List.find?_some hfind
      refine ((hsnap S).listed u (List.mem_of_find?_eq_some hfind)).2.trans ?_
      rw [Rules.priceOf_relOf (R := m.rules) hrel]

theorem seed_lands {k : Nat} (h : Mirrors m) (hn : m.n ≤ 2 ^ 30) (ex : m.Exchange T)
    (hsnap : ∀ S, SnapshotOf (T k) S (snap.levels S)) (hempty : ∀ k, m.entries k = 0) :
    ∃ m', eachLevel (fun S u m => m.setLevel S u true) snap m = some m' ∧
    Lands m m' (m.overwritten snap) := by
  have hdistinct : snap.Distinct :=
    fun S => List.pairwise_map.mpr ((hsnap S).sorted.imp fun hb => better_ne hb)
  have hapart := distinct_apart hdistinct m
  obtain ⟨m', hrun, hland⟩ := additions_land (m := m) (f := fun S u m => m.setLevel S u true)
    (g := fun x _ => x.2.qty) (F := m.overwritten snap) (l := snap.updates) (fun _ _ => .inr rfl)
    (ex.fit hn fun S i _ => seed_entries hsnap hempty S i)
    (fun x hx k hk => by rw [overwritten_eq, hapart.find hx hk])
    (fun m' hq hm x _ hfits => by
      obtain ⟨S, u⟩ := x
      cases hrel : m'.relOf u.px with
      | none =>
          rw [Cells.step_none (by simp [key, hrel])]
          exact ⟨{ m' with outOfBand := m'.outOfBand + 1 }, by simp only [setLevel, hrel],
            lands_outOfBand hm _⟩
      | some i =>
          have hkey : m'.key (S, u) = some (S, i) := by simp [key, hrel]
          rw [Cells.step_some hkey]
          exact setLevel_lands (hq.n ▸ hn) hm hrel fun hq0 hcur => ⟨rfl, hfits _ hkey hq0 hcur⟩)
    h (fun k hk => absurd (hempty k) hk)
  refine ⟨m', by rw [eachLevel_eq, hrun], hland.quietly, hland.mirrors, ?_⟩
  funext k
  rw [hland.entries, Cells.foldl_eq hapart, overwritten_eq]
  cases snap.updates.find? fun x => m.key x = some k <;> rfl

omit [StoreLayout σ] in
theorem beyond_of_unlisted {T : Totals} {S : Side} (h : SnapshotOf T S (snap.levels S)) {p : Price}
    (hT : T S p ≠ 0) (hbest : ∀ u ∈ snap.levels S, Better S u.px p)
    (hbid : m.bidHorizon = (snap.bids.getLast?.map LevelUpdate.px).getD m.minPx)
    (hask : m.askHorizon = (snap.asks.getLast?.map LevelUpdate.px).getD
      (m.minPx + Int64.ofNat m.n)) :
    m.beyond S p = true := by
  have hne : snap.levels S ≠ [] := fun hnil => hT (h.nonempty hnil p)
  have hlast := hbest _ (List.getLast_mem hne)
  cases S with
  | buy =>
      change snap.bids ≠ [] at hne
      simp only [BookMirror.beyond, hbid, List.getLast?_eq_getLast_of_ne_nil hne, Option.map_some,
        Option.getD_some]
      exact decide_eq_true hlast
  | sell =>
      change snap.asks ≠ [] at hne
      simp only [BookMirror.beyond, hask, List.getLast?_eq_getLast_of_ne_nil hne, Option.map_some,
        Option.getD_some]
      exact decide_eq_true hlast

theorem mirrors_reset (hash : IndexHash) (ok : m.cfg.Accepted) :
    Mirrors (resetBook hash { m with bidQty := fun _ => 0, askQty := fun _ => 0 }) := by
  refine ⟨PriorityBook.empty, OrderBook.refines_make hash 0 ok, fun S e he => ?_, fun S e he => ?_,
    fun S i _ hE => ?_⟩
  · cases he
  · cases he
  · cases S <;> exact absurd rfl hE

theorem seed_tracks (hash : IndexHash) (ok : m.cfg.Accepted) (ex : m.Exchange T)
    (hsnap : ∀ S, SnapshotOf (T 0) S (snap.levels S)) :
    ∃ m', m.seed hash snap = some m' ∧ m'.Tracks (T 0) ∧ m'.cfg = m.cfg := by
  obtain ⟨m₀, hm₀⟩ :
    ∃ m₀, m₀ = resetBook hash { m with bidQty := fun _ => 0, askQty := fun _ => 0 } := ⟨_, rfl⟩
  have hcfg : m₀.cfg = m.cfg := by rw [hm₀]; rfl
  have hempty : ∀ k, m₀.entries k = 0 := by
    rintro ⟨S, i⟩
    rw [hm₀]
    cases S <;> rfl
  have hmirrors : Mirrors m₀ := hm₀ ▸ mirrors_reset hash ok
  have hn : m₀.n ≤ 2 ^ 30 := by
    rw [hm₀]
    exact ok.levels_le
  obtain ⟨m₁, hrun, hland⟩ := seed_lands hmirrors hn (ex.of_cfg hcfg) hsnap hempty
  have hq := hland.quietly
  obtain ⟨m', hseed, hcfg', hslot, hsink, hmir, hbid, hask⟩ : ∃ m', m.seed hash snap = some m' ∧
    m'.cfg = m₁.cfg ∧
      m'.slot = m₁.slot ∧ m'.sink = m₁.sink ∧ Mirrors m' ∧
      m'.bidHorizon = (snap.bids.getLast?.map LevelUpdate.px).getD m'.minPx ∧
      m'.askHorizon = (snap.asks.getLast?.map LevelUpdate.px).getD
        (m'.minPx + Int64.ofNat m'.n) := by
    simp only [seed, ← hm₀, hrun]
    exact ⟨_, rfl, rfl, rfl, rfl, hland.mirrors, rfl, rfl⟩
  have hrules : m'.rules = m₀.rules := by rw [rules, hcfg', hq.cfg, rules]
  have hn' : m'.n = m₀.n := congrArg BookConfig.numLevels (hcfg'.trans hq.cfg)
  have hval : ∀ S i, m'.slot S i = m₀.overwritten snap (S, i) := by
    intro S i
    rw [hslot]
    exact congrFun hland.entries (S, i)
  have hsound : ∀ S i, i < m'.n → m'.slot S i ≠ 0 → m'.slot S i = T 0 S (m'.rules.priceOf i) := by
    intro S i _ hne
    rw [hval] at hne ⊢
    rw [hrules]
    exact seed_entries hsnap hempty S i hne
  refine ⟨m', hseed, ⟨hmir, hsound, fun S i hi hin => ?_, fun e he => ?_⟩,
    (hcfg'.trans hq.cfg).trans hcfg⟩
  · by_cases hT : T 0 S (m'.rules.priceOf i) = 0
    · by_contra hne
      have hlive : m'.slot S i ≠ 0 := fun h0 => hne (h0.trans hT.symm)
      exact hne (hsound S i hi hlive)
    · rcases (hsnap S).best _ hT with ⟨u, hu, hpx⟩ | hbest
      · -- the level is listed, so the snapshot has written its total
        have hrel : m₀.relOf u.px = some i := by
          rw [hpx, hrules]
          exact relOf_priceOf hn (hn' ▸ hi)
        have hmem : (S, u) ∈ snap.updates := by
          cases S <;> simp only [Record.levels] at hu <;> simp [Record.updates, hu]
        have hdistinct : snap.Distinct :=
          fun S => List.pairwise_map.mpr ((hsnap S).sorted.imp fun hb => better_ne hb)
        rw [hval, overwritten_eq, (distinct_apart hdistinct m₀).find hmem (k := (S, i)) (by
          simp [key, hrel])]
        exact ((hsnap S).listed u hu).2.trans (by rw [hpx])
      · rw [beyond_of_unlisted (hsnap S) hT hbest hbid hask] at hin
        cases hin
  · obtain ⟨evs, hev, hquiet⟩ := hq.events
    rw [hsink, hev, show m₀.sink.events = [] by rw [hm₀]; rfl, List.nil_append] at he
    have := List.all_eq_true.mp hquiet e he
    simp only [quiet, Bool.and_eq_true, decide_eq_true_eq] at this
    exact this.1.1

end Seed

section Top

variable {m : BookMirror σ}

theorem top_fold (out : Price → Bool) (n : Nat) {l : List (Price × OrderId × Qty)}
    (hl : (l.map Prod.fst).Nodup) (acc : List LevelUpdate) (hacc : ∀ u ∈ acc, ∀ x ∈ l, u.px ≠ x.1) :
    l.foldl (fun acc x =>
      if out x.1 then acc
      else if (acc.getLast?.map LevelUpdate.px) = some x.1 then
        acc.modifyLast fun last => { last with qty := last.qty + x.2.2 }
      else if acc.length < n then acc ++ [⟨x.1, x.2.2⟩]
      else acc) acc =
      acc ++ ((l.filter fun x => !out x.1).map fun x => (⟨x.1, x.2.2⟩ : LevelUpdate)).take
        (n - acc.length) := by
  induction l generalizing acc with
  | nil => simp
  | cons x xs ih =>
      obtain ⟨hx, hxs⟩ := List.nodup_cons.mp hl
      have hrest : ∀ u ∈ acc, ∀ y ∈ xs, u.px ≠ y.1 := fun u hu y hy => hacc u hu y (by simp [hy])
      rw [List.foldl_cons]
      by_cases hout : out x.1 = true
      · rw [if_pos hout, ih hxs acc hrest, List.filter_cons_of_neg (by simp [hout])]
      · have hlast : acc.getLast?.map LevelUpdate.px ≠ some x.1 := by
          intro heq
          obtain ⟨u, hu, hpx⟩ := Option.map_eq_some_iff.mp heq
          exact hacc u (List.mem_of_getLast? hu) x (by simp) hpx
        rw [if_neg hout, if_neg hlast, List.filter_cons_of_pos (by simp [hout]), List.map_cons]
        by_cases hlen : acc.length < n
        · have hnew : ∀ u ∈ acc ++ [⟨x.1, x.2.2⟩], ∀ y ∈ xs, u.px ≠ y.1 := by
            intro u hu y hy
            rcases List.mem_append.mp hu with hu | hu
            · exact hrest u hu y hy
            · rw [List.mem_singleton.mp hu]
              exact fun heq => hx (List.mem_map.mpr ⟨y, hy, heq.symm⟩)
          rw [if_pos hlen, ih hxs _ hnew, show n - acc.length = (n - (acc.length + 1)) + 1 by omega,
            List.take_succ_cons]
          simp
        · rw [if_neg hlen, ih hxs acc hrest, show n - acc.length = 0 by omega]
          simp

theorem levels_eq_ladder {R : Rules} {E : Entries} {A : PriorityBook} (h : Holds R E A)
    (ok : Ok R A) (S : Side) :
    (A S).map Resting.level = (ladder R.cfg.numLevels S).filter fun i => E (S, i) ≠ 0 := by
  have hperm :
      ((A S).map Resting.level).Perm ((ladder R.cfg.numLevels S).filter fun i => E (S, i) ≠ 0) := by
    refine (h.levels_perm ok S).trans (List.Perm.filter _ ?_)
    cases S with
    | buy => exact (List.reverse_perm _).symm
    | sell => exact List.Perm.refl _
  refine @List.Perm.eq_of_pairwise _ (fun a b => PriorityBook.ahead S a b = true) _ _
    (fun a b _ _ hab hba => ?_)
    (List.pairwise_map.mpr (ok.sorted S)) (List.Pairwise.filter _ ?_) hperm
  · cases S <;> simp only [PriorityBook.ahead, decide_eq_true_eq] at hab hba <;> omega
  · cases S with
    | buy =>
        refine List.pairwise_reverse.mpr (List.pairwise_lt_range.imp fun hlt => ?_)
        simp only [PriorityBook.ahead, decide_eq_true_eq]
        omega
    | sell =>
        refine List.pairwise_lt_range.imp fun hlt => ?_
        simp only [PriorityBook.ahead, decide_eq_true_eq]
        omega

theorem Tracks.top {T : Totals} (h : m.Tracks T) (hn : m.n ≤ 2 ^ 30) (S : Side) (n : Nat) :
    m.top S n true = some ((m.levelsWithin T S).take n) := by
  obtain ⟨A, href, hholds⟩ := h.mirrors
  have ok := href.ok
  have hlist : ((A S).map fun e => (m.rules.priceOf e.level, e.id, e.qty)) =
      ((ladder m.n S).filter fun i => m.slot S i ≠ 0).map fun i : Nat =>
        (m.rules.priceOf i, idFor i S, m.slot S i) := by
    have hlevels : (A S).map Resting.level = (ladder m.n S).filter fun i => m.slot S i ≠ 0 :=
      levels_eq_ladder hholds ok S
    rw [← hlevels, List.map_map]
    refine List.map_congr_left fun e he => ?_
    simp only [Function.comp_apply, hholds.named S e he, hholds.total S e he]
    rfl
  have hmem : ∀ i ∈ ladder m.n S, i < m.n := by
    intro i hi
    cases S <;> simpa [ladder] using hi
  have hnodup : (ladder m.n S).Nodup := by
    cases S with
    | buy => exact List.nodup_reverse.mpr List.nodup_range
    | sell => exact List.nodup_range
  have hprices : ((((ladder m.n S).filter fun i => m.slot S i ≠ 0).map fun i : Nat =>
      (m.rules.priceOf i, idFor i S, m.slot S i)).map Prod.fst).Nodup := by
    rw [List.map_map]
    refine (hnodup.filter _).map_on fun i hi j hj heq => ?_
    exact Rules.priceOf_inj (R := m.rules) hn (hmem i (List.mem_filter.mp hi).1)
      (hmem j (List.mem_filter.mp hj).1) heq
  have hfold := top_fold (m.beyond S) n hprices [] (by simp)
  rw [BookMirror.top, href.forEachOrder S, hlist]
  simp only [true_and, Option.bind_eq_bind, Option.bind_some]
  refine congrArg some (hfold.trans ?_)
  rw [List.nil_append, List.length_nil, Nat.sub_zero, levelsWithin, List.filter_map, List.map_map,
    List.filter_filter]
  refine congrArg (List.take n) ?_
  have hin : ∀ i ∈ ladder m.n S, m.beyond S (m.rules.priceOf i) = false →
      m.slot S i = T S (m.rules.priceOf i) :=
    fun i hi => h.complete S i (hmem i hi)
  have hfilter :
    (ladder m.n S).filter (fun i : Nat =>
      !m.beyond S (m.rules.priceOf i) && decide (m.slot S i ≠ 0)) =
      (ladder m.n S).filter fun i : Nat => T S (m.rules.priceOf i) ≠ 0 ∧
      ¬ m.beyond S (m.rules.priceOf i) := by
    refine List.filter_congr fun i hi => ?_
    cases hb : m.beyond S (m.rules.priceOf i) with
    | false => simp [hin i hi hb]
    | true => simp
  refine (congrArg (List.map _) hfilter).trans (List.map_congr_left fun i hi => ?_)
  obtain ⟨hi, hcond⟩ := List.mem_filter.mp hi
  have hb : m.beyond S (m.rules.priceOf i) = false := by simpa using (of_decide_eq_true hcond).2
  simp only [Function.comp_apply, hin i hi hb]

end Top

section Follow

variable {m : BookMirror σ} {T : Nat → Totals}

theorem Tracks.run {k : Nat} (h : m.Tracks (T k)) (hn : m.n ≤ 2 ^ 30) (ex : m.Exchange T)
    {diff : Nat → Record} (hdiff : ∀ i, DiffOf (T i) (T (i + 1)) (diff (i + 1))) (j : Nat) :
    ∃ m', ((List.range j).map fun i => diff (k + i + 1)).foldlM
      (fun m r => m.apply r 0) m = some m' ∧
      m'.Tracks (T (k + j)) ∧ Quietly m m' := by
  induction j with
  | zero => exact ⟨m, rfl, h, Quietly.refl m⟩
  | succ j ih =>
      obtain ⟨m₁, hrun, htracks, hq⟩ := ih
      obtain ⟨m', happly, htracks', hq'⟩ :=
        htracks.apply (hq.n ▸ hn) (ex.of_cfg hq.cfg) (hdiff (k + j))
      refine ⟨m', ?_, htracks', hq.trans hq'⟩
      rw [List.range_succ, List.map_append, List.foldlM_append, hrun]
      simpa using happly

omit [StoreLayout σ] in
theorem countP_trade_zero {evs : List Event} (h : ∀ e ∈ evs, e.type ≠ .trade) :
    evs.countP (fun e => e.type = .trade) = 0 :=
  List.countP_eq_zero.mpr fun e he => by simpa using h e he

/-- Seeded with the best levels of the exchange's book and fed its diffs, the mirror is complete
within the horizon of the seed after every diff, lists the exchange's own best levels there, and has
not traded. -/
theorem complete_within_horizon (hash : IndexHash) (m : BookMirror σ) (ok : m.cfg.Accepted)
    (T : Nat → Totals) (ex : m.Exchange T) (snap : Record)
    (hsnap : ∀ S, SnapshotOf (T 0) S (snap.levels S)) (diff : Nat → Record)
    (hdiff : ∀ i, DiffOf (T i) (T (i + 1)) (diff (i + 1))) (k : Nat) :
    ∃ m', m.follow hash snap ((List.range k).map fun i => diff (i + 1)) = some m' ∧
      (∀ p, m'.relOf p ≠ none → m'.bidHorizon ≤ p → m'.qtyAt .buy p = T k .buy p) ∧
      (∀ p, m'.relOf p ≠ none → p ≤ m'.askHorizon → m'.qtyAt .sell p = T k .sell p) ∧
      (∀ S n, m'.top S n true = some ((m'.levelsWithin (T k) S).take n)) ∧
      m'.phantomTrades = 0 := by
  obtain ⟨m₀, hseed, htracks₀, hcfg⟩ := seed_tracks hash ok ex hsnap
  have hn₀ : m₀.n ≤ 2 ^ 30 := by
    have : m₀.cfg.numLevels ≤ 2 ^ 30 := hcfg ▸ ok.levels_le
    exact this
  obtain ⟨m', hrun, htracks, hq⟩ := htracks₀.run (k := 0) hn₀ (ex.of_cfg hcfg) hdiff k
  simp only [Nat.zero_add] at hrun htracks
  have hn : m'.n ≤ 2 ^ 30 := hq.n ▸ hn₀
  have hat : ∀ S p, m'.relOf p ≠ none → m'.beyond S p = false → m'.qtyAt S p = T k S p := by
    intro S p hband hin
    obtain ⟨i, hi⟩ := Option.ne_none_iff_exists'.mp hband
    have hpx := Rules.priceOf_relOf (R := m'.rules) hi
    rw [← hpx] at hin
    simp only [qtyAt, hi]
    rw [htracks.complete S i (Rules.relOf_lt (R := m'.rules) hi) hin, hpx]
  refine ⟨m', ?_, fun p hband hp => hat .buy p hband ?_, fun p hband hp => hat .sell p hband ?_,
    htracks.top hn, ?_⟩
  · rw [follow, hseed]
    exact hrun
  · simpa [beyond] using hp
  · simpa [beyond] using hp
  · rw [phantomTrades, countP_trade_zero htracks.untraded]
    rfl

end Follow

/-- A book with a bid below the snapshot's last one that rallies in the first diff and then stands
still. -/
def rallying (k : Nat) : Totals
  | .buy, p => if p = 30 then 100 else if p = 29 then 7 else if p = 36 ∧ k ≠ 0 then 50 else 0
  | .sell, p => if p = 34 ∧ k = 0 then 100 else if p = 38 ∧ k ≠ 0 then 7 else 0

def rallyDiff (i : Nat) : Record := if i = 1 then ⟨[⟨36, 50⟩], [⟨34, 0⟩, ⟨38, 7⟩]⟩ else ⟨[], []⟩

def smallMirror : BookMirror AosStore := make scatterHash 32 64 4

theorem rallying_buy {k : Nat} {p : Price} (h : rallying k .buy p ≠ 0) :
    p = 30 ∨ p = 29 ∨ p = 36 ∧ k ≠ 0 := by
  simp only [rallying] at h
  split at h
  · exact .inl ‹_›
  · split at h
    · exact .inr (.inl ‹_›)
    · split at h
      · exact .inr (.inr ‹_›)
      · exact absurd rfl h

theorem rallying_sell {k : Nat} {p : Price} (h : rallying k .sell p ≠ 0) :
    p = 34 ∧ k = 0 ∨ p = 38 ∧ k ≠ 0 := by
  simp only [rallying] at h
  split at h
  · exact .inl ‹_›
  · split at h
    · exact .inr ‹_›
    · exact absurd rfl h

theorem rallying_exchange : smallMirror.Exchange rallying where
  uncrossed k p q hb hs := by
    rcases rallying_buy hb with rfl | rfl | ⟨rfl, hk⟩
    · rcases rallying_sell hs with ⟨rfl, _⟩ | ⟨rfl, _⟩ <;> decide
    · rcases rallying_sell hs with ⟨rfl, _⟩ | ⟨rfl, _⟩ <;> decide
    · rcases rallying_sell hs with ⟨_, h0⟩ | ⟨rfl, _⟩
      · exact absurd h0 hk
      · decide
  room k := by
    cases k with
    | zero => decide +kernel
    | succ k =>
        have hsame : rallying (k + 1) = rallying 1 := by
          funext S p
          cases S <;> simp [rallying]
        rw [hsame]
        decide +kernel
  defined := .inl (by decide +kernel)

theorem rallying_snapshot (S : Side) :
    SnapshotOf (rallying 0) S ((Record.mk [⟨30, 100⟩] [⟨34, 100⟩]).levels S) := by
  cases S with
  | buy =>
      refine ⟨by decide, List.pairwise_singleton .., fun p hp => ?_, by simp [Record.levels]⟩
      rcases rallying_buy hp with rfl | rfl | ⟨_, h0⟩
      · exact .inl ⟨_, List.mem_singleton.mpr rfl, rfl⟩
      · refine .inr fun u hu => ?_
        rw [List.mem_singleton.mp hu]
        exact (by decide : (29 : Price) < 30)
      · exact absurd rfl h0
  | sell =>
      refine ⟨by decide, List.pairwise_singleton .., fun p hp => ?_, by simp [Record.levels]⟩
      rcases rallying_sell hp with ⟨rfl, _⟩ | ⟨_, h0⟩
      · exact .inl ⟨_, List.mem_singleton.mpr rfl, rfl⟩
      · exact absurd rfl h0

theorem rallying_diff (i : Nat) : DiffOf (rallying i) (rallying (i + 1)) (rallyDiff (i + 1)) := by
  cases i with
  | zero =>
      refine ⟨fun S => by cases S <;> decide, fun S => by cases S <;> decide, fun S p hne => ?_⟩
      cases S with
      | buy =>
          have hp : p = 36 := by
            by_contra hp
            exact hne (by simp [rallying, hp])
          rw [hp]
          decide
      | sell =>
          have hp : p = 34 ∨ p = 38 := by
            by_contra hp
            rw [not_or] at hp
            exact hne (by simp [rallying, hp])
          rcases hp with rfl | rfl <;> decide
  | succ i =>
      have hnil : ∀ S, (rallyDiff (i + 1 + 1)).levels S = [] := by
        intro S
        rw [rallyDiff, if_neg (by omega)]
        cases S <;> rfl
      refine ⟨fun S => ?_, fun S u hu => ?_, fun S p hne => absurd ?_ hne⟩
      · rw [hnil]
        exact List.nodup_nil
      · rw [hnil] at hu
        cases hu
      · cases S <;> simp [rallying]

/-- After the rally the mirror has the new bid and the old one, and has not traded. -/
theorem complete_within_horizon_rally :
    ∃ m', smallMirror.follow scatterHash ⟨[⟨30, 100⟩], [⟨34, 100⟩]⟩
      ((List.range 1).map fun i => rallyDiff (i + 1)) = some m' ∧
      m'.qtyAt .buy 36 = 50 ∧ m'.qtyAt .buy 30 = 100 ∧ m'.phantomTrades = 0 := by
  obtain ⟨m', hrun, hbids, _, _, htrades⟩ :=
    complete_within_horizon scatterHash smallMirror (by decide +kernel) rallying
    rallying_exchange ⟨[⟨30, 100⟩], [⟨34, 100⟩]⟩ rallying_snapshot rallyDiff rallying_diff 1
  have hhorizon : (smallMirror.follow scatterHash ⟨[⟨30, 100⟩], [⟨34, 100⟩]⟩
      ((List.range 1).map fun i => rallyDiff (i + 1))).any (fun m => m.bidHorizon = 30 ∧
          m.minPx = 0 ∧ m.n = 64) = true := by
    decide +kernel
  rw [hrun, Option.any_some] at hhorizon
  obtain ⟨hbid, hmin, hn⟩ := of_decide_eq_true hhorizon
  have hband : m'.relOf 36 ≠ none ∧ m'.relOf 30 ≠ none := by
    simp only [relOf, hmin, hn]
    decide
  refine ⟨m', hrun, ?_, ?_, htrades⟩
  · rw [hbids 36 hband.1 (by rw [hbid]; decide)]
    rfl
  · rw [hbids 30 hband.2 (by rw [hbid]; decide)]
    rfl

end BookMirror
end ExchangeSim.Mirror
