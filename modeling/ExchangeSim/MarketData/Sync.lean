/- digest: When a subscriber's book is declared in sync with its feed, and that it then is. -/

import ExchangeSim.MarketData.Book

set_option autoImplicit false
set_option relaxedAutoImplicit false

namespace ExchangeSim.MarketData

open ExchangeSim.Lib

namespace Feed

variable (f : Feed)

/-- `es` is the incremental packet numbered `q`. -/
def Numbered (q : UInt64) (es : List MdEntry) : Prop :=
  ∃ k, f.incrementals[k]? = some es ∧ q = UInt64.ofNat (k + 1)

/-- The book shows the map the feed had after the packet numbered `seq`. -/
def Shown (b : Book) : Prop :=
  ∃ k, k ≤ f.incrementals.length ∧ b.seq = UInt64.ofNat k ∧ b.books.l2 = f.map k ∧ b.books.NonZero

variable {f}

theorem lt_of_getElem? {k : Nat} {es : List MdEntry} (h : f.incrementals[k]? = some es) :
    k < f.incrementals.length := (List.getElem?_eq_some_iff.mp h).1

theorem Numbered.ne_zero {q : UInt64} {es : List MdEntry} (h : f.Numbered q es) : q ≠ 0 := by
  obtain ⟨k, hk, rfl⟩ := h
  have hlt := lt_of_getElem? hk
  have := f.numbered
  intro he
  have := congrArg UInt64.toNat he
  rw [UInt64.toNat_ofNat', Nat.mod_eq_of_lt (by omega)] at this
  simp at this

theorem ofNat_inj {j k : Nat} (hj : j ≤ f.incrementals.length) (hk : k ≤ f.incrementals.length)
    (h : UInt64.ofNat j = UInt64.ofNat k) : j = k := by
  have hn := f.numbered
  have := congrArg UInt64.toNat h
  rwa [UInt64.toNat_ofNat', UInt64.toNat_ofNat', Nat.mod_eq_of_lt (by omega),
    Nat.mod_eq_of_lt (by omega)] at this

theorem ofNat_succ (k : Nat) : UInt64.ofNat k + 1 = UInt64.ofNat (k + 1) :=
  (UInt64.ofNat_add k 1).symm

theorem Numbered.next {k : Nat} {es : List MdEntry} (hk : k ≤ f.incrementals.length)
    (h : f.Numbered (UInt64.ofNat k + 1) es) : f.incrementals[k]? = some es := by
  obtain ⟨j, hj, he⟩ := h
  have hlt := lt_of_getElem? hj
  have hn := f.numbered
  rw [ofNat_succ] at he
  have hnat := congrArg UInt64.toNat he
  rw [UInt64.toNat_ofNat', UInt64.toNat_ofNat'] at hnat
  obtain rfl : k = j := by omega
  exact hj

end Feed

namespace Book

variable {f : Feed}

private theorem apply_placed (S : L2) (es : List MdEntry) : S.apply (placed es) = S.apply es := by
  unfold placed
  split
  · rename_i h
    subst h
    rfl
  · rfl

private theorem apply_flatten_placed (S : L2) (ps : List (List MdEntry)) :
    S.apply (ps.map placed).flatten = S.apply ps.flatten := by
  induction ps generalizing S with
  | nil => rfl
  | cons es ps ih =>
      rw [List.map_cons, List.flatten_cons, List.flatten_cons, L2.apply_append, L2.apply_append,
        apply_placed, ih]

/-- The parts of a snapshot as the book keeps them. -/
def partsOf (rows : List Row) : List (List MdEntry) :=
  ((List.range (snapshotParts rows)).map (stretch (rows.map Row.entry))).map placed

@[simp] theorem length_partsOf (rows : List Row) : (partsOf rows).length = snapshotParts rows := by
  simp [partsOf]

theorem l2_partsOf {rows : List Row} {S : L2} (h : Lists rows S) :
    ((partsOf rows).foldl Books.apply .empty).l2 = S := by
  rw [Books.l2_foldl_apply, partsOf, apply_flatten_placed, flatten_snapshotParts, Books.l2_empty,
    h.apply_empty]

/-- What a snapshot of the `k`-th map and the packets behind it up to the `m`-th make up. -/
def build (f : Feed) (rows : List Row) (k m : Nat) : Books :=
  ((f.incrementals.take m).drop k).foldl Books.apply ((partsOf rows).foldl Books.apply .empty)

theorem build_self (f : Feed) (rows : List Row) (k : Nat) :
    build f rows k k = (partsOf rows).foldl Books.apply .empty := by
  rw [build, List.drop_eq_nil_of_le (by rw [List.length_take]; omega)]
  rfl

theorem build_succ {rows : List Row} {k m : Nat} {es : List MdEntry} (hkm : k ≤ m)
    (hget : f.incrementals[m]? = some es) :
    build f rows k (m + 1) = (build f rows k m).apply es := by
  have hlt := Feed.lt_of_getElem? hget
  rw [build, List.take_add_one, hget, Option.toList_some,
    List.drop_append_of_le_length (by rw [List.length_take]; omega), List.foldl_append]
  rfl

theorem nonZero_build (f : Feed) (rows : List Row) (k m : Nat) : (build f rows k m).NonZero :=
  (Books.nonZero_empty.foldl_apply _).foldl_apply _

theorem l2_build {rows : List Row} {k m : Nat} (exact : Lists rows (f.map k)) (hkm : k ≤ m)
    (hm : m ≤ f.incrementals.length) : (build f rows k m).l2 = f.map m := by
  induction m, hkm using Nat.le_induction with
  | base =>
      rw [build_self]
      exact l2_partsOf exact
  | succ m hkm ih =>
      have hget := List.getElem?_eq_getElem (show m < f.incrementals.length by omega)
      rw [build_succ hkm hget, Books.l2_apply, ih (by omega), f.map_succ hget]

theorem replay_built (snapSeq : UInt64) (rows : List Row) {k m : Nat} (hkm : k ≤ m)
    (hm : m ≤ f.incrementals.length) (hle : snapSeq.toNat ≤ m)
    {pending : List (UInt64 × List MdEntry)} (hnonzero : ∀ e ∈ pending, e.1 ≠ 0)
    (hpend : ∀ e ∈ pending, snapSeq < e.1 → f.Numbered e.1 e.2) :
    ∃ m', m ≤ m' ∧ m' ≤ f.incrementals.length ∧
      (replay (build f rows k m) (UInt64.ofNat m) pending).2.1 = UInt64.ofNat m' ∧
      (replay (build f rows k m) (UInt64.ofNat m) pending).1 = build f rows k m' ∧
      ∀ n, m ≤ n → n < m' → ∃ es, f.incrementals[n]? = some es ∧
      (UInt64.ofNat (n + 1), es) ∈ pending := by
  induction pending generalizing m with
  | nil => exact ⟨m, le_rfl, hm, rfl, rfl, fun n h₁ h₂ => by omega⟩
  | cons e pending ih =>
      obtain ⟨q, es⟩ := e
      rw [replay]
      split
      · rename_i hq
        subst hq
        have hn := f.numbered
        have hne := hnonzero _ List.mem_cons_self
        have hsmall : m + 1 < 2 ^ 64 := by
          by_contra hbig
          have hwrap : m + 1 = 2 ^ 64 := by omega
          apply hne
          rw [Feed.ofNat_succ, hwrap]
          rfl
        have hgt : snapSeq < UInt64.ofNat m + 1 := by
          rw [Feed.ofNat_succ, UInt64.lt_iff_toNat_lt, UInt64.toNat_ofNat', Nat.mod_eq_of_lt hsmall]
          omega
        have hget := (hpend _ List.mem_cons_self hgt).next hm
        have hlt := Feed.lt_of_getElem? hget
        rw [Feed.ofNat_succ, ← build_succ hkm hget]
        obtain ⟨m', hmm, hm', hseq, hbooks, hfrom⟩ :=
          ih (m := m + 1) (by omega) (by omega) (by omega)
          (fun e he => hnonzero e (List.mem_cons_of_mem _ he))
          (fun e he => hpend e (List.mem_cons_of_mem _ he))
        refine ⟨m', by omega, hm', hseq, hbooks, fun n h₁ h₂ => ?_⟩
        rcases Nat.eq_or_lt_of_le h₁ with rfl | h₁
        · exact ⟨es, hget, List.mem_cons_self⟩
        · obtain ⟨es', hes', hmem⟩ := hfrom n h₁ h₂
          exact ⟨es', hes', List.mem_cons_of_mem _ hmem⟩
      · exact ⟨m, le_rfl, hm, rfl, rfl, fun n h₁ h₂ => by omega⟩

/-- No buffered packet has some number between `lo` and `hi`. -/
def Gap (lo hi : UInt64) (pending : List (UInt64 × List MdEntry)) : Prop :=
  ∃ q, lo < q ∧ q < hi ∧ ∀ e ∈ pending, e.1 ≠ q

theorem not_gap_of_replay {l : List (UInt64 × List MdEntry)} {books : Books} {seq : UInt64}
    (hempty : (replay books seq l).2.2 = []) (hnonzero : ∀ e ∈ l, e.1 ≠ 0)
    {e : UInt64 × List MdEntry} (he : e ∈ l) : ¬ Gap seq e.1 l := by
  induction l generalizing books seq with
  | nil => cases he
  | cons a l ih =>
      rintro ⟨q, hlow, hhigh, hnone⟩
      obtain ⟨q₀, es⟩ := a
      rw [replay] at hempty
      split at hempty
      · rename_i hq₀
        subst hq₀
        have hne : seq + 1 ≠ q := hnone _ List.mem_cons_self
        have hzero : seq + 1 ≠ 0 := hnonzero _ List.mem_cons_self
        have hnext : seq + 1 < q := by
          have hstep : (seq + 1).toNat = seq.toNat + 1 := by
            have h1 : (1 : UInt64).toNat = 1 := rfl
            have hwrap : (seq + 1).toNat ≠ 0 := fun h => hzero (UInt64.toNat_inj.mp h)
            rw [UInt64.toNat_add, h1] at hwrap ⊢
            have := seq.toNat_lt
            omega
          have hneNat : (seq + 1).toNat ≠ q.toNat := fun h => hne (UInt64.toNat_inj.mp h)
          rw [UInt64.lt_iff_toNat_lt] at hlow ⊢
          omega
        rcases List.mem_cons.mp he with rfl | he
        · exact absurd (Std.lt_trans hnext hhigh) Std.lt_irrefl
        · exact ih hempty (fun e he => hnonzero e (List.mem_cons_of_mem _ he)) he
            ⟨q, hnext, hhigh, fun e he => hnone e (List.mem_cons_of_mem _ he)⟩
      · cases hempty

/-- A snapshot that was put together from one feed makes a book in sync one of that feed, if what is
buffered of another feed stands behind a gap. -/
theorem complete_built {b : Book} {k : Nat} (hk : k ≤ f.incrementals.length) {rows : List Row}
    (hparts : b.snapParts = partsOf rows) (hnonzero : ∀ e ∈ b.pending, e.1 ≠ 0)
    (hpend : ∀ e ∈ b.pending, UInt64.ofNat k < e.1 →
      f.Numbered e.1 e.2 ∨ Gap (UInt64.ofNat k) e.1 b.pending)
    (hsync : (b.complete (UInt64.ofNat k)).synced = true) :
    ∃ m, k ≤ m ∧ m ≤ f.incrementals.length ∧ (b.complete (UInt64.ofNat k)).seq = UInt64.ofNat m ∧
      (b.complete (UInt64.ofNat k)).books = build f rows k m ∧
      ∀ n, k ≤ n → n < m → ∃ es, f.incrementals[n]? = some es ∧
      (UInt64.ofNat (n + 1), es) ∈ b.pending := by
  have hn := f.numbered
  have hsub : ∀ e ∈ b.pending.dropWhile (fun e => e.1 ≤ UInt64.ofNat k), e ∈ b.pending :=
    fun e he => (List.dropWhile_sublist _).mem he
  have hnonzero' := fun e he => hnonzero e (hsub e he)
  unfold complete at hsync ⊢
  simp only at hsync ⊢
  split at hsync
  · simp [lose] at hsync
  · rename_i hempty
    simp only [if_neg hempty]
    have hmine : ∀ e ∈ b.pending.dropWhile (fun e => e.1 ≤ UInt64.ofNat k), UInt64.ofNat k < e.1 →
        f.Numbered e.1 e.2 := by
      intro e he hgt
      refine (hpend e (hsub e he) hgt).resolve_right ?_
      rintro ⟨q, hlow, hhigh, hnone⟩
      exact not_gap_of_replay (not_not.mp hempty) hnonzero' he
        ⟨q, hlow, hhigh, fun e he => hnone e (hsub e he)⟩
    obtain ⟨m, hkm, hm, hseq, hbooks, hfrom⟩ :=
      replay_built (f := f) (UInt64.ofNat k) rows le_rfl hk
        (Nat.le_of_eq (by rw [UInt64.toNat_ofNat', Nat.mod_eq_of_lt (by omega)])) hnonzero' hmine
    rw [build_self, ← hparts] at hseq hbooks
    refine ⟨m, hkm, hm, hseq, hbooks, fun n h₁ h₂ => ?_⟩
    obtain ⟨es, hes, hmem⟩ := hfrom n h₁ h₂
    exact ⟨es, hes, hsub _ hmem⟩

structure Holds (rows : List Row) (parts : List (List MdEntry)) : Prop where
  length : parts.length = snapshotParts rows
  part : ∀ i es, parts[i]? = some es → es = [] ∨ es = placed (stretch (rows.map Row.entry) i)

/-- `snap_have_` counts the parts that have arrived. -/
def Counted (b : Book) : Prop := b.snapHave = b.snapParts.countP (· ≠ [])

theorem placed_ne_nil (es : List MdEntry) : placed es ≠ [] := by
  unfold placed
  split
  · simp
  · assumption

theorem holds_replicate (rows : List Row) :
    Holds rows (List.replicate (snapshotParts rows) []) where
  length := List.length_replicate
  part _ _ h := .inl (List.mem_replicate.mp (List.mem_of_getElem? h)).2

theorem Holds.set {rows : List Row} {parts : List (List MdEntry)} (h : Holds rows parts) (p : Nat) :
    Holds rows (parts.set p (placed (stretch (rows.map Row.entry) p))) where
  length := by rw [List.length_set]; exact h.length
  part i es hi := by
    rw [List.getElem?_set] at hi
    split at hi
    · rename_i heq
      subst heq
      split at hi
      · exact .inr (Option.some.inj hi).symm
      · cases hi
    · exact h.part i es hi

theorem Holds.all {rows : List Row} {parts : List (List MdEntry)} (h : Holds rows parts)
    (full : parts.length ≤ parts.countP (· ≠ [])) : parts = partsOf rows := by
  have hall : ∀ es ∈ parts, es ≠ [] := by
    have := List.countP_eq_length.mp (Nat.le_antisymm List.countP_le_length full)
    intro es hes
    simpa using this es hes
  apply List.ext_getElem?
  intro i
  by_cases hi : i < parts.length
  · have hget := List.getElem?_eq_getElem hi
    have hne := hall _ (List.getElem_mem hi)
    rw [hget, (h.part i _ hget).resolve_left hne]
    have hlt : i < snapshotParts rows := by rw [← h.length]; exact hi
    simp [partsOf, hlt]
  · rw [List.getElem?_eq_none (by omega), List.getElem?_eq_none]
    rw [length_partsOf, ← h.length]
    omega

/-- The book after a part was put in its place. -/
def store (b : Book) (h : Packet) : Book :=
  { b with
    snapParts := b.snapParts.set h.part.toNat (placed h.entries)
    snapHave := b.snapHave + 1 }

theorem onSnapshotPart_cases (b : Book) (h : Packet) :
    b.onSnapshotPart h = b.restart h ∨
      (h.part.toNat < (b.restart h).snapParts.length ∧
        (b.restart h).snapParts.getD h.part.toNat [] = [] ∧
        (b.onSnapshotPart h = (b.restart h).store h ∨
          ((b.restart h).snapParts.length ≤ (b.restart h).snapHave + 1 ∧
            b.onSnapshotPart h = ((b.restart h).store h).complete h.snapSeq))) := by
  unfold onSnapshotPart
  simp only
  split
  · exact .inl rfl
  · rename_i hskip
    simp only [not_or, Nat.not_le, not_not] at hskip
    refine .inr ⟨hskip.1, hskip.2.1, ?_⟩
    split
    · exact .inl rfl
    · rename_i hfull
      refine .inr ⟨?_, rfl⟩
      simpa using hfull

theorem Counted.restart {b : Book} (h : b.Counted) (p : Packet) : (b.restart p).Counted := by
  unfold Book.restart
  split
  · have hnone : (List.replicate p.parts.toNat ([] : List MdEntry)).countP (· ≠ []) = 0 :=
      List.countP_eq_zero.mpr fun es hes => by simp [(List.mem_replicate.mp hes).2]
    exact hnone.symm
  · exact h

theorem Counted.store {b : Book} (h : b.Counted) {p : Packet}
    (hlt : p.part.toNat < b.snapParts.length) (hfree : b.snapParts.getD p.part.toNat [] = []) :
    (b.store p).Counted := by
  have hget : b.snapParts[p.part.toNat] = [] := by
    simpa [List.getD, hlt] using hfree
  have hne := placed_ne_nil p.entries
  unfold Counted Book.store
  simp only
  rw [List.countP_set hlt, hget, h]
  simp [hne]

theorem complete_pending (b : Book) (snapSeq : UInt64) :
    (b.complete snapSeq).pending.Sublist b.pending := by
  have hreplay : ∀ (l : List (UInt64 × List MdEntry)) (books : Books) (seq : UInt64),
      (replay books seq l).2.2.Sublist l := by
    intro l
    induction l with
    | nil => exact fun _ _ => List.Sublist.refl _
    | cons a l ih =>
        intro books seq
        obtain ⟨q, es⟩ := a
        rw [replay]
        split
        · exact (ih _ _).cons _
        · exact List.Sublist.refl _
  have hrest := (hreplay (b.pending.dropWhile fun e => e.1 ≤ snapSeq)
    (b.snapParts.foldl Books.apply .empty) snapSeq).trans (List.dropWhile_sublist _)
  unfold complete
  simp only
  split <;> exact hrest

theorem complete_drained {b : Book} {snapSeq : UInt64}
    (hsync : (b.complete snapSeq).synced = true) :
    (b.complete snapSeq).pending = [] := by
  unfold complete at hsync ⊢
  simp only at hsync ⊢
  split at hsync
  · simp [lose] at hsync
  · rename_i hempty
    simp only [if_neg hempty]
    exact not_not.mp hempty

theorem complete_frame (b : Book) (snapSeq : UInt64) :
    (b.complete snapSeq).snapParts = b.snapParts ∧ (b.complete snapSeq).snapId = b.snapId ∧
      (b.complete snapSeq).snapHave = b.snapHave ∧ (b.complete snapSeq).endSeen = b.endSeen ∧
      (b.complete snapSeq).endSeq = b.endSeq := by
  unfold complete
  simp only
  split <;> exact ⟨rfl, rfl, rfl, rfl, rfl⟩

structure PartStep (f : Feed) (rows : List Row) (k p : Nat) (b b' : Book) : Prop where
  built : b'.synced = true → b'.snapParts = partsOf rows ∧ ∃ m, k ≤ m ∧ m ≤ f.incrementals.length ∧
    b'.seq = UInt64.ofNat m ∧ b'.books = build f rows k m ∧
    ∀ n, k ≤ n → n < m → ∃ es, f.incrementals[n]? = some es ∧ (UInt64.ofNat (n + 1), es) ∈ b.pending
  counted : b'.Counted
  pending : b'.pending.Sublist b.pending
  drained : b'.synced = true → b'.pending = []
  endSeen : b'.endSeen = b.endSeen
  endSeq : b'.endSeq = b.endSeq
  parts : b'.snapParts = [] ∨ b'.snapId = UInt64.ofNat k ∧ Holds rows b'.snapParts
  held : ∀ i es, b'.snapParts[i]? = some es → es ≠ [] → i = p ∨
    ((snapshotPart (UInt64.ofNat k) rows p).part ≠ 0 ∧ UInt64.ofNat k = b.snapId ∧
      b.snapParts[i]? = some es)

theorem PartStep.shown {rows : List Row} {k p : Nat} {b b' : Book} (h : PartStep f rows k p b b')
    (exact : Lists rows (f.map k)) (hsync : b'.synced = true) : f.Shown b' := by
  obtain ⟨-, m, hkm, hm, hseq, hbooks, -⟩ := h.built hsync
  refine ⟨m, hm, hseq, ?_, ?_⟩
  · rw [hbooks]
    exact l2_build exact hkm hm
  · rw [hbooks]
    exact nonZero_build f rows k m

theorem restart_frame (b : Book) (h : Packet) :
    (b.restart h).synced = b.synced ∧ (b.restart h).pending = b.pending ∧
      (b.restart h).endSeen = b.endSeen ∧ (b.restart h).endSeq = b.endSeq := by
  unfold restart
  split <;> exact ⟨rfl, rfl, rfl, rfl⟩

theorem toNat_part {rows : List Row} (small : snapshotParts rows < 2 ^ 16) {p : Nat}
    (hp : p < snapshotParts rows) : (UInt16.ofNat p).toNat = p := by
  rw [UInt16.toNat_ofNat', Nat.mod_eq_of_lt (by omega)]

theorem restart_holds {b : Book} {k : Nat} {rows : List Row} (small : snapshotParts rows < 2 ^ 16)
    (p : Nat)
    (held : (snapshotPart (UInt64.ofNat k) rows p).part ≠ 0 → UInt64.ofNat k = b.snapId →
      b.snapParts = [] ∨ Holds rows b.snapParts) :
    (b.restart (snapshotPart (UInt64.ofNat k) rows p) = b ∧ b.snapParts = []) ∨
      ((b.restart (snapshotPart (UInt64.ofNat k) rows p)).snapId = UInt64.ofNat k ∧
        Holds rows (b.restart (snapshotPart (UInt64.ofNat k) rows p)).snapParts) := by
  unfold restart
  split
  · refine .inr ⟨rfl, ?_⟩
    have hparts : (snapshotPart (UInt64.ofNat k) rows p).parts.toNat = snapshotParts rows := by
      change (UInt16.ofNat (snapshotParts rows)).toNat = _
      rw [UInt16.toNat_ofNat', Nat.mod_eq_of_lt small]
    simp only [hparts]
    exact holds_replicate rows
  · rename_i hno
    simp only [not_or, not_not] at hno
    rcases held hno.1 hno.2 with he | hh
    · exact .inl ⟨rfl, he⟩
    · exact .inr ⟨hno.2.symm, hh⟩

theorem restart_parts {b : Book} {h : Packet} {i : Nat} {es : List MdEntry}
    (hget : (b.restart h).snapParts[i]? = some es) (hne : es ≠ []) :
    h.part ≠ 0 ∧ h.snapSeq = b.snapId ∧ b.snapParts[i]? = some es := by
  unfold restart at hget
  split at hget
  · exact absurd (List.mem_replicate.mp (List.mem_of_getElem? hget)).2 hne
  · rename_i hno
    rw [not_or, not_not] at hno
    exact ⟨hno.1, hno.2, hget⟩

theorem partStep {b : Book} (unsynced : b.synced = false) {k : Nat}
    (hk : k ≤ f.incrementals.length) {rows : List Row}
    (small : snapshotParts rows < 2 ^ 16) {p : Nat} (hp : p < snapshotParts rows)
    (held : (snapshotPart (UInt64.ofNat k) rows p).part ≠ 0 → UInt64.ofNat k = b.snapId →
      b.snapParts = [] ∨ Holds rows b.snapParts)
    (counted : b.Counted) (hnonzero : ∀ e ∈ b.pending, e.1 ≠ 0)
    (hpend : ∀ e ∈ b.pending, UInt64.ofNat k < e.1 →
      f.Numbered e.1 e.2 ∨ Gap (UInt64.ofNat k) e.1 b.pending) :
    PartStep f rows k p b (b.onSnapshotPart (snapshotPart (UInt64.ofNat k) rows p)) := by
  have hpart : (snapshotPart (UInt64.ofNat k) rows p).part.toNat = p := toNat_part small hp
  obtain ⟨hsync, hpending, hseen, hend⟩ := restart_frame b (snapshotPart (UInt64.ofNat k) rows p)
  have hcount := counted.restart (snapshotPart (UInt64.ofNat k) rows p)
  have hholds := restart_holds small p held
  rcases onSnapshotPart_cases b (snapshotPart (UInt64.ofNat k) rows p) with
    he | ⟨hlt, hfree, hstore⟩
  · rw [he]
    refine ⟨by simp [hsync, unsynced], hcount, by rw [hpending], by simp [hsync, unsynced],
      hseen, hend, ?_, fun i es hget hne => .inr (restart_parts hget hne)⟩
    rcases hholds with ⟨hsame, hnil⟩ | hh
    · rw [hsame]
      exact .inl hnil
    · exact .inr hh
  · obtain ⟨hid, hh⟩ : (b.restart (snapshotPart (UInt64.ofNat k) rows p)).snapId = UInt64.ofNat k ∧
        Holds rows (b.restart (snapshotPart (UInt64.ofNat k) rows p)).snapParts := by
      rcases hholds with ⟨hsame, hnil⟩ | hh
      · rw [hsame, hnil] at hlt
        simp at hlt
      · exact hh
    have hcount' := hcount.store hlt hfree
    have hh' : Holds rows ((b.restart (snapshotPart (UInt64.ofNat k) rows p)).store
        (snapshotPart (UInt64.ofNat k) rows p)).snapParts := by
      change Holds rows (List.set _ (snapshotPart (UInt64.ofNat k) rows p).part.toNat _)
      rw [hpart]
      exact hh.set p
    have hheld : ∀ i es, ((b.restart (snapshotPart (UInt64.ofNat k) rows p)).store
        (snapshotPart (UInt64.ofNat k) rows p)).snapParts[i]? = some es → es ≠ [] → i = p ∨
          ((snapshotPart (UInt64.ofNat k) rows p).part ≠ 0 ∧ UInt64.ofNat k = b.snapId ∧
            b.snapParts[i]? = some es) := by
      intro i es hget hne
      change (List.set _ (snapshotPart (UInt64.ofNat k) rows p).part.toNat _)[i]? = some es at hget
      rw [hpart] at hget
      by_cases hi : i = p
      · exact .inl hi
      · rw [List.getElem?_set_ne (Ne.symm hi)] at hget
        exact .inr (restart_parts hget hne)
    generalize hb₁ : (b.restart (snapshotPart (UInt64.ofNat k) rows p)).store
      (snapshotPart (UInt64.ofNat k) rows p) = b₁ at hstore hcount' hh' hheld
    have hid₁ : b₁.snapId = UInt64.ofNat k := by rw [← hb₁]; exact hid
    have hsync₁ : b₁.synced = false := by rw [← hb₁]; exact hsync.trans unsynced
    have hpend₁ : b₁.pending = b.pending := by rw [← hb₁]; exact hpending
    have hseen₁ : b₁.endSeen = b.endSeen := by rw [← hb₁]; exact hseen
    have hend₁ : b₁.endSeq = b.endSeq := by rw [← hb₁]; exact hend
    rcases hstore with he | ⟨hfull, he⟩
    · rw [he]
      exact ⟨by simp [hsync₁], hcount', by rw [hpend₁], by simp [hsync₁], hseen₁, hend₁,
        .inr ⟨hid₁, hh'⟩, hheld⟩
    · change b.onSnapshotPart _ = b₁.complete (UInt64.ofNat k) at he
      have hall : b₁.snapParts = partsOf rows := by
        apply hh'.all
        have hlen : b₁.snapParts.length =
            (b.restart (snapshotPart (UInt64.ofNat k) rows p)).snapParts.length := by
          rw [← hb₁]
          exact List.length_set
        have hhave :
            b₁.snapHave = (b.restart (snapshotPart (UInt64.ofNat k) rows p)).snapHave + 1 := by
          rw [← hb₁]
          rfl
        rw [← hcount', hlen, hhave]
        exact hfull
      obtain ⟨fparts, fid, fhave, fseen, fend⟩ := complete_frame b₁ (UInt64.ofNat k)
      rw [he]
      refine ⟨fun hs => ⟨fparts.trans hall, ?_⟩, ?_, ?_, complete_drained, fseen.trans hseen₁,
        fend.trans hend₁, .inr ⟨fid.trans hid₁, ?_⟩, ?_⟩
      · rw [← hpend₁] at hnonzero hpend ⊢
        exact complete_built hk hall hnonzero hpend hs
      · rw [Counted, fhave, fparts]
        exact hcount'
      · rw [← hpend₁]
        exact complete_pending b₁ _
      · rw [fparts]
        exact hh'
      · rw [fparts]
        exact hheld

theorem onPacket_incremental (b : Book) (q : UInt64) (es : List MdEntry) :
    (b.synced = true ∧ q ≤ b.seq ∧ b.onPacket (Publisher.incremental q es) = b) ∨
      (b.synced = true ∧ q = b.seq + 1 ∧
        b.onPacket (Publisher.incremental q es) = { b with books := b.books.apply es, seq := q }) ∨
      ∃ b₀, (b.synced = false ∧ b₀ = b ∨ b.synced = true ∧ ¬ q ≤ b.seq ∧
        q ≠ b.seq + 1 ∧ b₀ = b.lose) ∧
        b.onPacket (Publisher.incremental q es) =
          { b₀ with pending := SortedMap.put q es b₀.pending } := by
  have hdef : b.onPacket (Publisher.incremental q es) =
      if b.synced = true ∧ q ≤ b.seq then b
      else if b.synced = true ∧ q = b.seq + 1 then { b with books := b.books.apply es, seq := q }
      else { (if b.synced = true then b.lose else b) with
        pending := SortedMap.put q es (if b.synced = true then b.lose else b).pending } := rfl
  rw [hdef]
  by_cases hold : b.synced = true ∧ q ≤ b.seq
  · exact .inl ⟨hold.1, hold.2, if_pos hold⟩
  rw [if_neg hold]
  by_cases hnext : b.synced = true ∧ q = b.seq + 1
  · exact .inr (.inl ⟨hnext.1, hnext.2, if_pos hnext⟩)
  rw [if_neg hnext]
  refine .inr (.inr ?_)
  cases hs : b.synced with
  | false => exact ⟨b, .inl ⟨rfl, rfl⟩, by simp⟩
  | true => exact ⟨b.lose, .inr ⟨rfl, fun hle => hold ⟨hs, hle⟩, fun hq => hnext ⟨hs, hq⟩, rfl⟩, by
      simp⟩

/-- A number above the book's is a gap for a book in sync. -/
def notice (b : Book) (q : UInt64) : Book := if b.synced ∧ b.seq < q then b.lose else b

theorem notice_cases (b : Book) (q : UInt64) :
    (¬ (b.synced = true ∧ b.seq < q) ∧ b.notice q = b) ∨
    (b.synced = true ∧ b.seq < q ∧ b.notice q = b.lose) := by
  unfold notice
  by_cases h : b.synced = true ∧ b.seq < q
  · exact .inr ⟨h.1, h.2, if_pos h⟩
  · exact .inl ⟨h, if_neg h⟩

theorem onPacket_heartbeat (b : Book) (q : UInt64) :
    b.onPacket { kind := .heartbeat, seq := q } = { b.notice q with ended := (b.notice q).atEnd } :=
  rfl

theorem onPacket_endOfFeed (b : Book) (q snapSeq : UInt64) :
    b.onPacket { kind := .endOfFeed, seq := q, snapSeq := snapSeq } =
      { b.notice q with
        endSeq := q
        endSeen := true
        ended := ({ b.notice q with endSeq := q, endSeen := true } : Book).atEnd } := rfl

theorem onPacket_snapshot {b : Book} {h : Packet} (kind : h.kind = .snapshot) :
    (b.synced = true ∧ b.onPacket h = b) ∨
      (b.synced = false ∧
        b.onPacket h = { b.onSnapshotPart h with ended := (b.onSnapshotPart h).atEnd }) := by
  unfold Book.onPacket
  rw [kind]
  cases hs : b.synced with
  | false => exact .inr ⟨rfl, by simp⟩
  | true => exact .inl ⟨rfl, by simp⟩

structure Follows (f : Feed) (b : Book) : Prop where
  shown : b.synced = true → f.Shown b
  pending : ∀ e ∈ b.pending, f.Numbered e.1 e.2
  parts : b.snapParts = [] ∨ ∃ k rows, k ≤ f.incrementals.length ∧ Lists rows (f.map k) ∧
    b.snapId = UInt64.ofNat k ∧ Holds rows b.snapParts
  counted : b.Counted
  endSeq : b.endSeen = true → b.endSeq = UInt64.ofNat f.incrementals.length
  ended : b.ended = true →
    b.endSeen = true ∧ b.synced = true ∧ b.seq = UInt64.ofNat f.incrementals.length

theorem follows_fresh (f : Feed) : Follows f {} :=
  ⟨by simp, by simp, .inl rfl, rfl, by simp, by simp⟩

theorem seq_of_atEnd {b : Book} (shown : b.synced = true → f.Shown b)
    (endSeq : b.endSeen = true → b.endSeq = UInt64.ofNat f.incrementals.length)
    (h : b.atEnd = true) :
    b.endSeen = true ∧ b.synced = true ∧ b.seq = UInt64.ofNat f.incrementals.length := by
  simp only [atEnd, Bool.and_eq_true, decide_eq_true_eq] at h
  obtain ⟨⟨hseen, hsync⟩, hle⟩ := h
  obtain ⟨k, hk, hseq, -⟩ := shown hsync
  have hn := f.numbered
  rw [endSeq hseen, hseq, UInt64.le_iff_toNat_le, UInt64.toNat_ofNat', UInt64.toNat_ofNat',
    Nat.mod_eq_of_lt hn, Nat.mod_eq_of_lt (by omega)] at hle
  obtain rfl : k = f.incrementals.length := by omega
  exact ⟨hseen, hsync, hseq⟩

theorem Follows.lose {b : Book} (h : Follows f b) (running : b.ended = false) :
    Follows f b.lose :=
  ⟨by simp [Book.lose], h.pending, h.parts, h.counted, h.endSeq, by simp [Book.lose, running]⟩

theorem Follows.running {b : Book} (h : Follows f b) {k : Nat} (hk : k ≤ f.incrementals.length)
    (new : b.synced = true → b.seq < UInt64.ofNat k) : b.ended = false := by
  have hn := f.numbered
  cases he : b.ended with
  | false => rfl
  | true =>
      obtain ⟨-, hsync, hseq⟩ := h.ended he
      have hlt := new hsync
      rw [hseq, UInt64.lt_iff_toNat_lt, UInt64.toNat_ofNat', UInt64.toNat_ofNat',
        Nat.mod_eq_of_lt hn, Nat.mod_eq_of_lt (by omega)] at hlt
      omega

theorem Follows.notice {b : Book} (h : Follows f b) {k : Nat} (hk : k ≤ f.incrementals.length) :
    Follows f (b.notice (UInt64.ofNat k)) := by
  rcases b.notice_cases (UInt64.ofNat k) with ⟨-, he⟩ | ⟨-, hlt, he⟩
  · rwa [he]
  · rw [he]
    exact h.lose (h.running hk fun _ => hlt)

theorem Follows.incremental {b : Book} (h : Follows f b) {k : Nat} {es : List MdEntry}
    (hget : f.incrementals[k]? = some es) :
    Follows f (b.onPacket (Publisher.incremental (UInt64.ofNat (k + 1)) es)) := by
  have hlt := Feed.lt_of_getElem? hget
  rcases b.onPacket_incremental (UInt64.ofNat (k + 1)) es with
    ⟨-, -, he⟩ | ⟨hsync, hnext, he⟩ | ⟨b₀, hb₀, he⟩
  · rwa [he]
  · rw [he]
    obtain ⟨m, hm, hseq, hl2, hnz⟩ := h.shown hsync
    have hnum : f.Numbered (UInt64.ofNat m + 1) es := ⟨k, hget, by rw [← hseq]; exact hnext.symm⟩
    have hget' := hnum.next hm
    have hmlt := Feed.lt_of_getElem? hget'
    have hseq' : UInt64.ofNat (k + 1) = UInt64.ofNat (m + 1) := by
      rw [hnext, hseq, Feed.ofNat_succ]
    have running : b.ended = false := by
      refine h.running (k := m + 1) hmlt fun _ => ?_
      have hn := f.numbered
      rw [hseq, UInt64.lt_iff_toNat_lt, UInt64.toNat_ofNat', UInt64.toNat_ofNat',
        Nat.mod_eq_of_lt (by omega), Nat.mod_eq_of_lt (by omega)]
      omega
    refine ⟨fun _ => ⟨m + 1, hmlt, hseq', ?_, hnz.apply es⟩, h.pending, h.parts, h.counted,
      h.endSeq, by simp [running]⟩
    rw [Books.l2_apply, hl2, f.map_succ hget']
  · rw [he]
    have hlost : Follows f b₀ ∧ b₀.synced = false := by
      rcases hb₀ with ⟨hs, rfl⟩ | ⟨-, hnew, -, rfl⟩
      · exact ⟨h, hs⟩
      · exact ⟨h.lose (h.running (k := k + 1) hlt fun _ => Std.not_le.mp hnew), rfl⟩
    refine ⟨by simp [hlost.2], ?_, hlost.1.parts, hlost.1.counted, hlost.1.endSeq, hlost.1.ended⟩
    intro e hmem
    rcases SortedMap.mem_put_subset hmem with rfl | hm
    · exact ⟨k, hget, rfl⟩
    · exact hlost.1.pending e hm

theorem Follows.snapshot {b : Book} (h : Follows f b) {k : Nat} (hk : k ≤ f.incrementals.length)
    {rows : List Row} (exact : Lists rows (f.map k)) (small : snapshotParts rows < 2 ^ 16) {p : Nat}
    (hp : p < snapshotParts rows) :
    Follows f (b.onPacket (snapshotPart (UInt64.ofNat k) rows p)) := by
  rcases onPacket_snapshot (b := b) (h := snapshotPart (UInt64.ofNat k) rows p) rfl with
    ⟨-, he⟩ | ⟨hsync, he⟩
  · rwa [he]
  rw [he]
  have hstep : PartStep f rows k p b (b.onSnapshotPart (snapshotPart (UInt64.ofNat k) rows p)) := by
    refine partStep hsync hk small hp ?_ h.counted
      (fun e he => (h.pending e he).ne_zero) (fun e he _ => .inl (h.pending e he))
    intro _ hid
    rcases h.parts with hnil | ⟨j, rows', hj, exact', hid', hh⟩
    · exact .inl hnil
    · obtain rfl := Feed.ofNat_inj hk hj (hid.trans hid')
      rw [exact.unique exact']
      exact .inr hh
  generalize b.onSnapshotPart (snapshotPart (UInt64.ofNat k) rows p) = b' at hstep
  have hend : b'.endSeen = true → b'.endSeq = UInt64.ofNat f.incrementals.length := by
    rw [hstep.endSeen, hstep.endSeq]
    exact h.endSeq
  have hshown : b'.synced = true → f.Shown b' := fun hs => hstep.shown exact hs
  refine ⟨hshown, fun e he => h.pending e (hstep.pending.subset he), ?_, hstep.counted, hend,
    fun he => seq_of_atEnd hshown hend he⟩
  rcases hstep.parts with hnil | ⟨hid, hh⟩
  · exact .inl hnil
  · exact .inr ⟨k, rows, hk, exact, hid, hh⟩

theorem Follows.onPacket {b : Book} (h : Follows f b) {p : Packet} (hp : f.Sends p) :
    Follows f (b.onPacket p) := by
  cases hp with
  | incremental k es hget => exact h.incremental hget
  | snapshot k hk rows exact small p hp => exact h.snapshot hk exact small hp
  | heartbeat k hk =>
      rw [onPacket_heartbeat]
      have hq := h.notice hk
      exact ⟨hq.shown, hq.pending, hq.parts, hq.counted, hq.endSeq,
        fun he => seq_of_atEnd hq.shown hq.endSeq he⟩
  | endOfFeed snapSeq =>
      rw [onPacket_endOfFeed]
      have hq := h.notice (k := f.incrementals.length) (Nat.le_refl _)
      refine ⟨hq.shown, hq.pending, hq.parts, hq.counted, fun _ => rfl, fun he => ?_⟩
      exact seq_of_atEnd (f := f) (b := { b.notice (UInt64.ofNat f.incrementals.length) with
        endSeq := UInt64.ofNat f.incrementals.length, endSeen := true }) hq.shown (fun _ => rfl) he

theorem Follows.receive {b : Book} (h : Follows f b) {ps : List Packet}
    (sent : ∀ p ∈ ps, f.Sends p) :
    Follows f (b.receive ps) := by
  induction ps generalizing b with
  | nil => exact h
  | cons p ps ih =>
      exact ih (h.onPacket (sent p List.mem_cons_self)) fun q hq =>
        sent q (List.mem_cons_of_mem p hq)

/-- A synced subscriber's book is right, and so is its digest at the end. -/
theorem synced_book_is_right (f : Feed) (ps : List Packet) (sent : ∀ p ∈ ps, f.Sends p) :
    ((receive {} ps).synced = true →
      (receive {} ps).seq.toNat ≤ f.incrementals.length ∧
        (receive {} ps).books.l2 = f.map (receive {} ps).seq.toNat) ∧
    ((receive {} ps).ended = true →
      (receive {} ps).books.l2 = f.map f.incrementals.length ∧
        ∀ rows, Lists rows (f.map f.incrementals.length) →
          (receive {} ps).digest = L2Digest.of rows) := by
  have h := (follows_fresh f).receive sent
  generalize receive {} ps = b at h
  have hn := f.numbered
  have hshown : b.synced = true → b.seq.toNat ≤ f.incrementals.length ∧
      b.books.l2 = f.map b.seq.toNat ∧ b.books.NonZero := by
    intro hs
    obtain ⟨k, hk, hseq, hl2, hnz⟩ := h.shown hs
    have hnat : b.seq.toNat = k := by
      rw [hseq, UInt64.toNat_ofNat', Nat.mod_eq_of_lt (by omega)]
    rw [hnat]
    exact ⟨hk, hl2, hnz⟩
  refine ⟨fun hs => ⟨(hshown hs).1, (hshown hs).2.1⟩, fun he => ?_⟩
  obtain ⟨-, hs, hseq⟩ := h.ended he
  obtain ⟨-, hl2, hnz⟩ := hshown hs
  rw [hseq, UInt64.toNat_ofNat', Nat.mod_eq_of_lt hn] at hl2
  refine ⟨hl2, fun rows hrows => ?_⟩
  have hlist := hnz.lists
  rw [hl2] at hlist
  rw [digest, hlist.unique hrows]

end Book

def firstRow : Row := ⟨0, .buy, 10, 5⟩

/-- A feed of one packet, over an empty book. -/
def smallFeed : Feed := ⟨L2.empty, [[firstRow.entry]], by decide⟩

theorem lists_smallFeed : Lists [firstRow] (smallFeed.map 1) :=
  lists_apply (List.pairwise_singleton _ _) (by simp [firstRow])

theorem smallFeed_sends_snapshot : smallFeed.Sends (snapshotPart 1 [firstRow] 0) :=
  .snapshot 1 (by decide) [firstRow] lists_smallFeed (by decide) 0 (by decide)

/-- More levels than one packet holds. -/
def wideRows : List Row := (List.range 61).map fun i => ⟨0, .sell, Int64.ofNat (i + 1), 5⟩

/-- The lowest of them grows. -/
def wideFeed : Feed :=
  ⟨L2.empty.apply (wideRows.map Row.entry), [[Row.entry ⟨0, .sell, 1, 9⟩]], by decide⟩

theorem lists_wideFeed : Lists wideRows (wideFeed.map 0) := by
  have hprices : ∀ i ∈ List.range 61, ∀ j ∈ List.range 61, i < j →
      Int64.ofNat (i + 1) < Int64.ofNat (j + 1) := by
    decide +kernel
  have hsorted : (List.range 61).Pairwise fun i j => Int64.ofNat (i + 1) < Int64.ofNat (j + 1) :=
    List.pairwise_lt_range.imp_of_mem fun hi hj hlt => hprices _ hi _ hj hlt
  refine lists_apply (List.pairwise_map.mpr (hsorted.imp fun hlt => ?_)) (by decide +kernel)
  exact .inr ⟨rfl, .inr ⟨rfl, hlt⟩⟩

theorem wideFeed_sends_snapshot {p : Nat} (hp : p < 2) :
    wideFeed.Sends (snapshotPart 0 wideRows p) :=
  .snapshot 0 (by decide) wideRows lists_wideFeed (by decide +kernel) p
    (Nat.lt_of_lt_of_eq hp (by decide +kernel))

/-- A snapshot of two parts with the packet that follows it between them, then the end. -/
def joining : List Packet :=
  [snapshotPart 0 wideRows 0, Publisher.incremental 1 [Row.entry ⟨0, .sell, 1, 9⟩],
    snapshotPart 0 wideRows 1,
    { kind := .endOfFeed, seq := 1 }]

theorem Book.synced_book_is_right_joined :
    (Book.receive {} (joining.take 2)).pending = [(1, [Row.entry ⟨0, .sell, 1, 9⟩])] ∧
      (Book.receive {} joining).ended = true ∧
      (Book.receive {} joining).books.l2 = wideFeed.map 1 := by
  have hsent : ∀ p ∈ joining, wideFeed.Sends p := by
    intro p hp
    simp only [joining, List.mem_cons, List.not_mem_nil, or_false] at hp
    rcases hp with rfl | rfl | rfl | rfl
    · exact wideFeed_sends_snapshot (by decide)
    · exact .incremental 0 _ rfl
    · exact wideFeed_sends_snapshot (by decide)
    · exact .endOfFeed 0
  have hend : (Book.receive {} joining).ended = true := by decide +kernel
  exact ⟨by decide +kernel, hend, ((Book.synced_book_is_right wideFeed joining hsent).2 hend).1⟩

end ExchangeSim.MarketData
