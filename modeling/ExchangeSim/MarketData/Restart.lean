/- digest: One subscriber and several incarnations of the publisher on one group. -/

import ExchangeSim.MarketData.Sync
import Mathlib.Data.List.Induction

set_option autoImplicit false
set_option relaxedAutoImplicit false

namespace ExchangeSim.MarketData

open ExchangeSim.Lib

/-- A packet with the incarnation that sent it. The packet itself does not say. -/
abbrev Heard := Nat × Packet

/-- A book that stands at `n` sees from the packet that it has missed some. -/
def Packet.Announces (n : UInt64) (z : Packet) : Prop :=
  match z.kind with
  | .incremental => n < z.seq ∧ z.seq ≠ n + 1
  | .heartbeat | .endOfFeed => n < z.seq
  | .snapshot => False

namespace Book

/-- The packets `new` of a restarted server have put the book out of sync, if it was in sync
before. -/
def Missed (b : Book) (new : List Packet) : Prop := b.synced = true → ∃ z ∈ new, z.Announces b.seq

/-- They have started the reassembly of a snapshot again. -/
def Reassembles (b : Book) (new : List Packet) : Prop :=
  ∃ front z rest, new = front ++ z :: rest ∧ b.Missed front ∧ z.kind = .snapshot ∧
    (z.part = 0 ∨ z.snapSeq ≠ b.snapId)

/-- Nothing that the book has kept from before a restart fits the packet `p`, which arrives behind
the packets `new` of the restarted server: an incremental packet does not follow on, a part of a
snapshot does not belong to the reassembly that was under way, and in front of what was buffered
above the snapshot's tag a number is missing. -/
structure Clear (b : Book) (new : List Packet) (p : Packet) : Prop where
  follows : p.kind = .incremental → p.seq = b.seq + 1 → b.Missed new
  joins : p.kind = .snapshot → b.Missed new → p.part ≠ 0 → p.snapSeq = b.snapId → b.snapParts ≠ [] →
    b.Reassembles new
  buffered : p.kind = .snapshot → ∀ e ∈ b.pending, p.snapSeq < e.1 →
    (∀ z ∈ new, z.kind = .incremental → z.seq ≠ e.1) → ∃ q, p.snapSeq < q ∧ q < e.1 ∧
    (∀ e' ∈ b.pending, e'.1 ≠ q) ∧ ∀ z ∈ new, z.kind = .incremental → z.seq ≠ q

/-- The book shows the feed's map after its last packet, and is made of a snapshot and the
incremental packets behind it, every one of which was heard. -/
structure MadeOf (f : Feed) (heard : Packet → Prop) (b : Book) : Prop where
  made : ∃ k m rows, k ≤ m ∧ m ≤ f.incrementals.length ∧ Lists rows (f.map k) ∧
    b.seq = UInt64.ofNat m ∧ b.books = build f rows k m ∧
    (∀ p, p < snapshotParts rows → heard (snapshotPart (UInt64.ofNat k) rows p)) ∧
    ∀ n, k ≤ n → n < m → ∃ es, f.incrementals[n]? = some es ∧
      heard (Publisher.incremental (UInt64.ofNat (n + 1)) es)

variable {f : Feed} {b b₀ : Book} {new : List Packet}

theorem MadeOf.mono {heard heard' : Packet → Prop} (h : MadeOf f heard b)
    (hsub : ∀ p, heard p → heard' p) :
    MadeOf f heard' b := by
  obtain ⟨k, m, rows, hkm, hm, exact, hseq, hbooks, hparts, hpackets⟩ := h.made
  refine ⟨k, m, rows, hkm, hm, exact, hseq, hbooks, fun p hp => hsub _ (hparts p hp),
    fun n h₁ h₂ => ?_⟩
  obtain ⟨es, hes, hheard⟩ := hpackets n h₁ h₂
  exact ⟨es, hes, hsub _ hheard⟩

theorem MadeOf.of_eq {heard : Packet → Prop} {b' : Book} (h : MadeOf f heard b)
    (hseq : b'.seq = b.seq) (hbooks : b'.books = b.books) : MadeOf f heard b' := by
  obtain ⟨k, m, rows, hkm, hm, exact, hseq', hbooks', hrest⟩ := h.made
  exact ⟨k, m, rows, hkm, hm, exact, hseq.trans hseq', hbooks.trans hbooks', hrest⟩

theorem MadeOf.shown {heard : Packet → Prop} (h : MadeOf f heard b) :
    b.seq.toNat ≤ f.incrementals.length ∧ b.books.l2 = f.map b.seq.toNat := by
  obtain ⟨k, m, rows, hkm, hm, exact, hseq, hbooks, -⟩ := h.made
  have hn := f.numbered
  rw [hseq, hbooks, UInt64.toNat_ofNat', Nat.mod_eq_of_lt (by omega)]
  exact ⟨hm, l2_build exact hkm hm⟩

theorem Missed.append (h : b.Missed new) (more : List Packet) : b.Missed (new ++ more) := by
  intro hs
  obtain ⟨z, hz, hann⟩ := h hs
  exact ⟨z, List.mem_append_left _ hz, hann⟩

theorem Reassembles.append (h : b.Reassembles new) (more : List Packet) :
    b.Reassembles (new ++ more) := by
  obtain ⟨front, z, rest, rfl, hmissed, hz⟩ := h
  exact ⟨front, z, rest ++ more, by simp, hmissed, hz⟩

theorem Reassembles.missed (h : b.Reassembles new) : b.Missed new := by
  obtain ⟨front, z, rest, rfl, hmissed, -⟩ := h
  exact hmissed.append _

theorem missed_concat {z : Packet} (h : b.Missed (new ++ [z])) (hz : ¬ z.Announces b.seq) :
    b.Missed new := by
  intro hs
  obtain ⟨y, hy, hann⟩ := h hs
  rcases List.mem_append.mp hy with hy | hy
  · exact ⟨y, hy, hann⟩
  · rw [List.mem_singleton.mp hy] at hann
    exact absurd hann hz

theorem reassembles_concat {z : Packet} (h : b.Reassembles (new ++ [z])) :
    b.Reassembles new ∨ (b.Missed new ∧ z.kind = .snapshot ∧
      (z.part = 0 ∨ z.snapSeq ≠ b.snapId)) := by
  obtain ⟨front, y, rest, hsplit, hmissed, hy⟩ := h
  rcases List.eq_nil_or_concat rest with rfl | ⟨rest, w, rfl⟩
  · obtain ⟨rfl, hlast⟩ := List.append_inj' hsplit rfl
    obtain rfl : z = y := by simpa using hlast
    exact .inr ⟨hmissed, hy⟩
  · rw [List.concat_eq_append, ← List.cons_append, ← List.append_assoc] at hsplit
    obtain ⟨rfl, -⟩ := List.append_inj' hsplit rfl
    exact .inl ⟨front, y, rest, rfl, hmissed, hy⟩

/-- The parts that are held belong to one snapshot of the feed, and each of them was heard. -/
def HoldsPartsOf (f : Feed) (new : List Packet) (b : Book) : Prop :=
  b.snapParts = [] ∨ ∃ k rows, k ≤ f.incrementals.length ∧ Lists rows (f.map k) ∧
    b.snapId = UInt64.ofNat k ∧ Holds rows b.snapParts ∧
    ∀ i es, b.snapParts[i]? = some es → es ≠ [] → snapshotPart (UInt64.ofNat k) rows i ∈ new

structure Since (f : Feed) (b₀ : Book) (new : List Packet) (b : Book) : Prop where
  kept : ¬ b₀.Missed new → b.synced = true ∧ b.seq = b₀.seq ∧ b.books = b₀.books
  parts : ¬ b₀.Reassembles new → b.snapParts = b₀.snapParts ∧ b.snapId = b₀.snapId
  again : b₀.Missed new → b.synced = true → b₀.Reassembles new
  made : b₀.Missed new → b.synced = true → MadeOf f (· ∈ new) b
  pending : ∀ e ∈ b.pending, (e ∈ b₀.pending ∧ ∀ z ∈ new, z.kind = .incremental → z.seq ≠ e.1) ∨
    Publisher.incremental e.1 e.2 ∈ new
  sorted : b.pending.Pairwise fun x y => x.1 < y.1
  drained : b.synced = true → b.pending = []
  nonzero : ∀ e ∈ b.pending, e.1 ≠ 0
  held : b₀.Reassembles new → HoldsPartsOf f new b
  counted : b.Counted

theorem numbered_of_sends {q : UInt64} {es : List MdEntry}
    (h : f.Sends (Publisher.incremental q es)) :
    f.Numbered q es := by
  generalize hp : Publisher.incremental q es = p at h
  cases h with
  | incremental k es' hget =>
      simp only [Publisher.incremental, Packet.mk.injEq] at hp
      obtain ⟨-, rfl, -, -, -, rfl⟩ := hp
      exact ⟨k, hget, rfl⟩
  | snapshot => simp [Publisher.incremental, snapshotPart] at hp
  | heartbeat => simp [Publisher.incremental] at hp
  | endOfFeed => simp [Publisher.incremental] at hp

theorem since_restart (hcounted : b₀.Counted) (hnonzero : ∀ e ∈ b₀.pending, e.1 ≠ 0)
    (hsorted : b₀.pending.Pairwise fun x y => x.1 < y.1)
    (hdrained : b₀.synced = true → b₀.pending = []) :
    Since f b₀ [] b₀ where
  kept h := by
    refine ⟨?_, rfl, rfl⟩
    by_contra hs
    exact h fun hs' => absurd hs' hs
  parts _ := ⟨rfl, rfl⟩
  again h hs := by
    obtain ⟨z, hz, -⟩ := h hs
    cases hz
  made h hs := by
    obtain ⟨z, hz, -⟩ := h hs
    cases hz
  pending e he := .inl ⟨he, fun z hz => nomatch hz⟩
  sorted := hsorted
  drained := hdrained
  nonzero := hnonzero
  held h := by
    obtain ⟨front, z, rest, hsplit, -⟩ := h
    simp at hsplit
  counted := hcounted

section Step

variable {p : Packet} {b' : Book}

theorem reassembles_other (kind : p.kind ≠ .snapshot) (h : b₀.Reassembles (new ++ [p])) :
    b₀.Reassembles new :=
  (reassembles_concat h).resolve_right fun hx => kind hx.2.1

theorem HoldsPartsOf.append (h : HoldsPartsOf f new b) (more : List Packet) :
    HoldsPartsOf f (new ++ more) b := by
  rcases h with hnil | ⟨k, rows, hk, exact, hid, hh, hheard⟩
  · exact .inl hnil
  · exact .inr ⟨k, rows, hk, exact, hid, hh, fun i es hi hne =>
      List.mem_append_left _ (hheard i es hi hne)⟩

theorem HoldsPartsOf.of_eq (h : HoldsPartsOf f new b) (hparts : b'.snapParts = b.snapParts)
    (hid : b'.snapId = b.snapId) : HoldsPartsOf f new b' := by
  unfold HoldsPartsOf
  rw [hparts, hid]
  exact h

theorem Since.pending_append (h : Since f b₀ new b) {e : UInt64 × List MdEntry}
    (he : e ∈ b.pending) (hother : p.kind = .incremental → p.seq ≠ e.1) :
    (e ∈ b₀.pending ∧ ∀ z ∈ new ++ [p], z.kind = .incremental → z.seq ≠ e.1) ∨
      Publisher.incremental e.1 e.2 ∈ new ++ [p] := by
  rcases h.pending e he with ⟨hold, hnone⟩ | hnew
  · refine .inl ⟨hold, fun z hz hkind => ?_⟩
    rcases List.mem_append.mp hz with hz | hz
    · exact hnone z hz hkind
    · rw [List.mem_singleton.mp hz] at hkind ⊢
      exact hother hkind
  · exact .inr (List.mem_append_left _ hnew)

theorem Since.ignored (h : Since f b₀ new b) (hsync : b'.synced = b.synced) (hseq : b'.seq = b.seq)
    (hbooks : b'.books = b.books) (hpend : b'.pending = b.pending)
    (hparts : b'.snapParts = b.snapParts) (hid : b'.snapId = b.snapId)
    (hhave : b'.snapHave = b.snapHave) (hold : p.kind = .incremental → b.synced = true)
    (hquiet : b.synced = true → ¬ p.Announces b.seq)
    (hre : b₀.Reassembles (new ++ [p]) → b₀.Reassembles new) : Since f b₀ (new ++ [p]) b' := by
  have hmissed : b₀.Missed (new ++ [p]) → b₀.Missed new := by
    intro hm
    by_contra hno
    obtain ⟨hs, hsame, -⟩ := h.kept hno
    exact hno (missed_concat hm (by rw [← hsame]; exact hquiet hs))
  refine ⟨fun hno => ?_, fun hno => ?_, fun hm hs => ?_, fun hm hs => ?_, ?_, ?_, ?_, ?_,
    fun hr => ?_, ?_⟩
  · obtain ⟨h₁, h₂, h₃⟩ := h.kept fun hm => hno (hm.append _)
    exact ⟨hsync.trans h₁, hseq.trans h₂, hbooks.trans h₃⟩
  · rw [hparts, hid]
    exact h.parts fun hr => hno (hr.append _)
  · exact (h.again (hmissed hm) (hsync.symm.trans hs)).append _
  · exact ((h.made (hmissed hm) (hsync.symm.trans hs)).of_eq hseq hbooks).mono fun z hz =>
      List.mem_append_left _ hz
  · rw [hpend]
    refine fun e he => h.pending_append he fun hkind => ?_
    rw [h.drained (hold hkind)] at he
    cases he
  · rw [hpend]
    exact h.sorted
  · rw [hsync, hpend]
    exact h.drained
  · rw [hpend]
    exact h.nonzero
  · exact ((h.held (hre hr)).append _).of_eq hparts hid
  · rw [Counted, hhave, hparts]
    exact h.counted

theorem Since.lost (h : Since f b₀ new b) (kind : p.kind ≠ .snapshot) (hs : b'.synced = false)
    (hmissed : b₀.Missed (new ++ [p])) (hparts : b'.snapParts = b.snapParts)
    (hid : b'.snapId = b.snapId) (hhave : b'.snapHave = b.snapHave)
    (hpend : ∀ e ∈ b'.pending, (e ∈ b.pending ∧ (p.kind = .incremental → p.seq ≠ e.1)) ∨
      (p = Publisher.incremental e.1 e.2 ∧ e.1 ≠ 0))
    (hsorted : b'.pending.Pairwise fun x y => x.1 < y.1) : Since f b₀ (new ++ [p]) b' := by
  have hout : b'.synced ≠ true := by simp [hs]
  refine ⟨fun hno => absurd hmissed hno, fun hno => ?_, fun _ hx => absurd hx hout,
    fun _ hx => absurd hx hout,
    fun e he => ?_, hsorted, fun hx => absurd hx hout, fun e he => ?_, fun hr => ?_, ?_⟩
  · rw [hparts, hid]
    exact h.parts fun hr => hno (hr.append _)
  · rcases hpend e he with ⟨he, hother⟩ | ⟨rfl, -⟩
    · exact h.pending_append he hother
    · exact .inr (by simp)
  · rcases hpend e he with ⟨he, -⟩ | ⟨-, hne⟩
    · exact h.nonzero e he
    · exact hne
  · exact ((h.held (reassembles_other kind hr)).append _).of_eq hparts hid
  · rw [Counted, hhave, hparts]
    exact h.counted

theorem Since.missed (h : Since f b₀ new b) (hann : b.synced = true → p.Announces b.seq) :
    b₀.Missed (new ++ [p]) := by
  by_cases hm : b₀.Missed new
  · exact hm.append _
  · obtain ⟨hs, hseq, -⟩ := h.kept hm
    exact fun _ => ⟨p, by simp, by rw [← hseq]; exact hann hs⟩

theorem Since.incremental (h : Since f b₀ new b) {k : Nat} {es : List MdEntry}
    (hget : f.incrementals[k]? = some es)
    (clear : b₀.Clear new (Publisher.incremental (UInt64.ofNat (k + 1)) es)) :
    Since f b₀ (new ++ [Publisher.incremental (UInt64.ofNat (k + 1)) es])
      (b.onPacket (Publisher.incremental (UInt64.ofNat (k + 1)) es)) := by
  have kind : (Publisher.incremental (UInt64.ofNat (k + 1)) es).kind ≠ .snapshot := by
    simp [Publisher.incremental]
  have hzero : UInt64.ofNat (k + 1) ≠ 0 := Feed.Numbered.ne_zero (f := f) ⟨k, hget, rfl⟩
  rcases b.onPacket_incremental (UInt64.ofNat (k + 1)) es with
    ⟨hsync, hold, he⟩ | ⟨hsync, hnext, he⟩ | ⟨b₁, hb₁, he⟩
  · rw [he]
    exact h.ignored rfl rfl rfl rfl rfl rfl rfl (fun _ => hsync)
      (fun _ hann => absurd hold (Std.not_le.mpr hann.1)) (reassembles_other kind)
  · -- a book that is still that of the restart does not take it
    have hmissed : b₀.Missed new := by
      by_contra hno
      obtain ⟨-, hseq, -⟩ := h.kept hno
      exact hno (clear.follows rfl (by rw [← hseq]; exact hnext))
    rw [he]
    refine ⟨fun hno => absurd (hmissed.append _) hno,
      fun hno => h.parts fun hr => hno (hr.append _),
      fun _ _ => (h.again hmissed hsync).append _, fun _ _ => ?_, fun e he => ?_, h.sorted,
      h.drained, h.nonzero, fun hr => ?_, h.counted⟩
    · obtain ⟨j, m, rows, hjm, hm, exact, hseq, hbooks, hparts, hpackets⟩ :=
        (h.made hmissed hsync).made
      have hnum : f.Numbered (UInt64.ofNat m + 1) es := ⟨k, hget, by rw [← hseq]; exact hnext.symm⟩
      have hget' := hnum.next hm
      have hlast : UInt64.ofNat (k + 1) = UInt64.ofNat (m + 1) := by
        rw [hnext, hseq, Feed.ofNat_succ]
      refine ⟨j, m + 1, rows, by omega, Feed.lt_of_getElem? hget', exact, hlast, ?_,
        fun p hp => List.mem_append_left _ (hparts p hp), fun n h₁ h₂ => ?_⟩
      · rw [build_succ hjm hget', ← hbooks]
      · rcases Nat.lt_succ_iff_lt_or_eq.mp h₂ with h₂ | rfl
        · obtain ⟨es', hes', hheard⟩ := hpackets n h₁ h₂
          exact ⟨es', hes', List.mem_append_left _ hheard⟩
        · exact ⟨es, hget', by rw [hlast]; simp⟩
    · have he : e ∈ b.pending := he
      rw [h.drained hsync] at he
      cases he
    · exact (h.held (reassembles_other kind hr)).append _
  · rw [he]
    have hframe : b₁.synced = false ∧ b₁.pending = b.pending ∧ b₁.snapParts = b.snapParts ∧
        b₁.snapId = b.snapId ∧ b₁.snapHave = b.snapHave := by
      rcases hb₁ with ⟨hs, rfl⟩ | ⟨-, -, -, rfl⟩
      · exact ⟨hs, rfl, rfl, rfl, rfl⟩
      · exact ⟨rfl, rfl, rfl, rfl, rfl⟩
    obtain ⟨fsync, fpend, fparts, fid, fhave⟩ := hframe
    have hsorted : b₁.pending.Pairwise fun x y => x.1 < y.1 := by
      rw [fpend]
      exact h.sorted
    refine h.lost kind fsync (h.missed fun hs => ?_) fparts fid fhave (fun e hmem => ?_)
      (SortedMap.put_sorted _ _ hsorted)
    · rcases hb₁ with ⟨hs', -⟩ | ⟨-, hnew, hgap, -⟩
      · rw [hs] at hs'
        cases hs'
      · exact ⟨Std.not_le.mp hnew, hgap⟩
    · rcases (SortedMap.mem_put hsorted e.1 e.2).mp hmem with ⟨hkey, hval⟩ | ⟨hne, hm⟩
      · exact .inr ⟨by rw [hkey, hval], by rw [hkey]; exact hzero⟩
      · rw [fpend] at hm
        exact .inl ⟨hm, fun _ => Ne.symm hne⟩

theorem Since.notice (h : Since f b₀ new b) {q : UInt64} (kind : p.kind ≠ .snapshot)
    (kind' : p.kind ≠ .incremental) (hann : p.Announces b.seq ↔ b.seq < q)
    (he : ∃ e s t, b.onPacket p = { b.notice q with ended := e, endSeen := s, endSeq := t }) :
    Since f b₀ (new ++ [p]) (b.onPacket p) := by
  obtain ⟨e, s, t, he⟩ := he
  rw [he]
  rcases b.notice_cases q with ⟨hstay, hn⟩ | ⟨hsync, hlt, hn⟩
  · rw [hn]
    exact h.ignored rfl rfl rfl rfl rfl rfl rfl (fun hk => absurd hk kind')
      (fun hs hx => hstay ⟨hs, hann.mp hx⟩) (reassembles_other kind)
  · rw [hn]
    exact h.lost kind rfl (h.missed fun _ => hann.mpr hlt) rfl rfl rfl
      (fun e he => .inl ⟨he, fun hk => absurd hk kind'⟩) h.sorted

theorem Since.snapshot (h : Since f b₀ new b) (sent : ∀ z ∈ new, f.Sends z) {k : Nat}
    (hk : k ≤ f.incrementals.length) {rows : List Row} (exact : Lists rows (f.map k))
    (small : snapshotParts rows < 2 ^ 16) {p : Nat} (hp : p < snapshotParts rows)
    (clear : b₀.Clear new (snapshotPart (UInt64.ofNat k) rows p)) :
    Since f b₀ (new ++ [snapshotPart (UInt64.ofNat k) rows p])
      (b.onPacket (snapshotPart (UInt64.ofNat k) rows p)) := by
  rcases onPacket_snapshot (b := b) (h := snapshotPart (UInt64.ofNat k) rows p) rfl with
    ⟨hsync, he⟩ | ⟨hsync, he⟩
  · rw [he]
    refine h.ignored rfl rfl rfl rfl rfl rfl rfl nofun (fun _ hann => hann) fun hr => ?_
    rcases reassembles_concat hr with hr | ⟨hm, -⟩
    · exact hr
    · exact h.again hm hsync
  have hmissed : b₀.Missed new := by
    by_contra hno
    rw [(h.kept hno).1] at hsync
    cases hsync
  rw [he]
  -- the parts that the new one joins are the new server's
  have hjoins : (snapshotPart (UInt64.ofNat k) rows p).part ≠ 0 → UInt64.ofNat k = b.snapId →
      b.snapParts = [] ∨ (Holds rows b.snapParts ∧ ∀ i es, b.snapParts[i]? = some es → es ≠ [] →
        snapshotPart (UInt64.ofNat k) rows i ∈ new) := by
    intro hpart hid
    by_cases hr : b₀.Reassembles new
    · rcases h.held hr with hnil | ⟨j, rows', hj, exact', hid', hh, hheard⟩
      · exact .inl hnil
      · obtain rfl := Feed.ofNat_inj hk hj (hid.trans hid')
        rw [exact.unique exact']
        exact .inr ⟨hh, hheard⟩
    · obtain ⟨hparts, hid'⟩ := h.parts hr
      rw [hparts]
      by_contra hne
      exact hr (clear.joins rfl hmissed hpart (hid.trans hid') fun hnil => hne (.inl hnil))
  -- what was buffered before the restart stands behind a gap
  have hpend : ∀ e ∈ b.pending, UInt64.ofNat k < e.1 →
      Publisher.incremental e.1 e.2 ∈ new ∨ Gap (UInt64.ofNat k) e.1 b.pending := by
    intro e hmem hgt
    rcases h.pending e hmem with ⟨hold, hother⟩ | hnew
    · obtain ⟨q, hlow, hhigh, hnone, hnone'⟩ := clear.buffered rfl e hold hgt hother
      refine .inr ⟨q, hlow, hhigh, fun e' he' => ?_⟩
      rcases h.pending e' he' with ⟨hold', -⟩ | hnew'
      · exact hnone e' hold'
      · exact hnone' _ hnew' rfl
    · exact .inl hnew
  have hstep : PartStep f rows k p b (b.onSnapshotPart (snapshotPart (UInt64.ofNat k) rows p)) :=
    partStep hsync hk small hp (fun h₁ h₂ => (hjoins h₁ h₂).imp_right And.left) h.counted h.nonzero
      fun e he hgt => (hpend e he hgt).imp_left fun hnew => numbered_of_sends (sent _ hnew)
  have hheard :
    ∀ i es, (b.onSnapshotPart (snapshotPart (UInt64.ofNat k) rows p)).snapParts[i]? = some es →
      es ≠ [] →
      snapshotPart (UInt64.ofNat k) rows i ∈ new ++ [snapshotPart (UInt64.ofNat k) rows p] := by
    intro i es hi hne
    rcases hstep.held i es hi hne with rfl | ⟨hpart, hid, hbefore⟩
    · simp
    · rcases hjoins hpart hid with hnil | ⟨-, hheard⟩
      · rw [hnil] at hbefore
        cases hbefore
      · exact List.mem_append_left _ (hheard i es hbefore hne)
  -- a part that starts no reassembly, where none is under way, is ignored
  have hidle : ¬ b₀.Reassembles (new ++ [snapshotPart (UInt64.ofNat k) rows p]) →
      b₀.snapParts = [] ∧ b.onSnapshotPart (snapshotPart (UInt64.ofNat k) rows p) = b := by
    intro hno
    have hr : ¬ b₀.Reassembles new := fun hr => hno (hr.append _)
    have hstays : (snapshotPart (UInt64.ofNat k) rows p).part ≠ 0 ∧ UInt64.ofNat k = b₀.snapId := by
      by_contra hx
      refine hno ⟨new, _, [], rfl, hmissed, rfl, ?_⟩
      by_cases h0 : (snapshotPart (UInt64.ofNat k) rows p).part = 0
      · exact .inl h0
      · exact .inr fun hid => hx ⟨h0, hid⟩
    obtain ⟨hparts, hid⟩ := h.parts hr
    have hnil : b₀.snapParts = [] := by
      by_contra hne
      exact hr (clear.joins rfl hmissed hstays.1 hstays.2 hne)
    have hrestart : b.restart (snapshotPart (UInt64.ofNat k) rows p) = b := by
      unfold restart
      exact if_neg (not_or.mpr ⟨hstays.1, not_not.mpr (hstays.2.trans hid.symm)⟩)
    refine ⟨hnil, ?_⟩
    rcases onSnapshotPart_cases b (snapshotPart (UInt64.ofNat k) rows p) with heq | ⟨hlt, -⟩
    · rw [heq, hrestart]
    · rw [hrestart, hparts, hnil] at hlt
      exact absurd hlt (Nat.not_lt_zero _)
  refine ⟨fun hno => absurd (hmissed.append _) hno, fun hno => ?_, fun _ hs => ?_, fun _ hs => ?_,
    fun e he => h.pending_append (hstep.pending.subset he) nofun,
    h.sorted.sublist hstep.pending, hstep.drained,
    fun e he => h.nonzero e (hstep.pending.subset he), fun _ => ?_, hstep.counted⟩
  · simp only [(hidle hno).2]
    exact h.parts fun hr => hno (hr.append _)
  · by_contra hno
    have hsync' : (b.onSnapshotPart (snapshotPart (UInt64.ofNat k) rows p)).synced = true := hs
    rw [(hidle hno).2, hsync] at hsync'
    cases hsync'
  · obtain ⟨hall, m, hkm, hm, hseq, hbooks, hfrom⟩ := hstep.built hs
    refine ⟨k, m, rows, hkm, hm, exact, hseq, hbooks, fun i hi => ?_, fun n h₁ h₂ => ?_⟩
    · obtain ⟨es, hes⟩ : ∃ es, (partsOf rows)[i]? = some es :=
        ⟨_, List.getElem?_eq_getElem (by rw [length_partsOf]; exact hi)⟩
      obtain ⟨es', -, rfl⟩ := List.mem_map.mp (List.mem_of_getElem? hes)
      exact hheard i _ (by rw [hall]; exact hes) (placed_ne_nil es')
    · obtain ⟨es, hes, hmem⟩ := hfrom n h₁ h₂
      refine ⟨es, hes, List.mem_append_left _ ?_⟩
      have hn := f.numbered
      have hsmall : ∀ r, r ≤ m → (UInt64.ofNat r).toNat = r := fun r hr => by
        rw [UInt64.toNat_ofNat', Nat.mod_eq_of_lt (by omega)]
      refine (hpend _ hmem ?_).resolve_right ?_
      · rw [UInt64.lt_iff_toNat_lt, hsmall k (by omega), hsmall (n + 1) (by omega)]
        omega
      · -- every number up to that one was buffered
        rintro ⟨q, hlow, hhigh, hnone⟩
        rw [UInt64.lt_iff_toNat_lt, hsmall k (by omega)] at hlow
        rw [UInt64.lt_iff_toNat_lt, hsmall (n + 1) (by omega)] at hhigh
        obtain ⟨es', -, hmem'⟩ := hfrom (q.toNat - 1) (by omega) (by omega)
        refine hnone _ hmem' (UInt64.toNat_inj.mp ?_)
        rw [hsmall _ (by omega)]
        omega
  · rcases hstep.parts with hnil | ⟨hid, hh⟩
    · exact .inl hnil
    · exact .inr ⟨k, rows, hk, exact, hid, hh, hheard⟩

theorem Since.onPacket (h : Since f b₀ new b) (sent : ∀ z ∈ new, f.Sends z) (hp : f.Sends p)
    (clear : b₀.Clear new p) : Since f b₀ (new ++ [p]) (b.onPacket p) := by
  cases hp with
  | incremental k es hget => exact h.incremental hget clear
  | snapshot k hk rows exact small p hp => exact h.snapshot sent hk exact small hp clear
  | heartbeat k hk =>
      exact h.notice (q := UInt64.ofNat k) nofun nofun Iff.rfl ⟨_, _, _, b.onPacket_heartbeat _⟩
  | endOfFeed snapSeq =>
      exact h.notice (q := UInt64.ofNat f.incrementals.length) nofun nofun Iff.rfl
        ⟨_, _, _, b.onPacket_endOfFeed _ _⟩

end Step

/-! ### Successive incarnations -/

/-- What was heard of one incarnation. -/
def heardOf (xs : List Heard) (i : Nat) : List Packet := (xs.filter fun x => x.1 = i).map Prod.snd

/-- What was heard of the others. -/
def heardElse (xs : List Heard) (i : Nat) : List Packet := (xs.filter fun x => x.1 ≠ i).map Prod.snd

/-- No packet fits what the book has kept from before the restart that its server came with. -/
def AllClear (xs : List Heard) : Prop :=
  ∀ front x rest, xs = front ++ x :: rest →
    Clear (receive {} (heardElse front x.1)) (heardOf front x.1) x.2

/-- What was heard is `old` of earlier incarnations and `new` of the last one. -/
structure Track (feeds : Nat → Feed) (xs old new : List Heard) (i : Nat) : Prop where
  split : xs = old ++ new
  earlier : ∀ y ∈ old, y.1 < i
  last : ∀ y ∈ new, y.1 = i
  since : Since (feeds i) (receive {} (old.map Prod.snd)) (new.map Prod.snd)
    (receive {} (xs.map Prod.snd))
  before : (receive {} (old.map Prod.snd)).synced = true →
    ∃ j, MadeOf (feeds j) (fun p => (j, p) ∈ old) (receive {} (old.map Prod.snd))

section Runs

variable {feeds : Nat → Feed} {xs old new' : List Heard} {i : Nat}

theorem Track.made (h : Track feeds xs old new' i)
    (synced : (receive {} (xs.map Prod.snd)).synced = true) :
    ∃ j, MadeOf (feeds j) (fun p => (j, p) ∈ xs) (receive {} (xs.map Prod.snd)) := by
  by_cases hm : (receive {} (old.map Prod.snd)).Missed (new'.map Prod.snd)
  · refine ⟨i, (h.since.made hm synced).mono fun p hp => ?_⟩
    obtain ⟨y, hy, rfl⟩ := List.mem_map.mp hp
    rw [h.split, ← h.last y hy]
    exact List.mem_append_right _ hy
  · obtain ⟨hs, hseq, hbooks⟩ := h.since.kept hm
    have hold : (receive {} (old.map Prod.snd)).synced = true := by
      by_contra hno
      exact hm fun hs => absurd hs hno
    obtain ⟨j, hmade⟩ := h.before hold
    refine ⟨j, (hmade.of_eq hseq hbooks).mono fun p hp => ?_⟩
    rw [h.split]
    exact List.mem_append_left _ hp

theorem Track.restart (h : Track feeds xs old new' i) {j : Nat} (hj : ∀ y ∈ xs, y.1 < j) :
    Track feeds xs xs [] j where
  split := (List.append_nil xs).symm
  earlier := hj
  last _ hy := nomatch hy
  since := since_restart h.since.counted h.since.nonzero h.since.sorted h.since.drained
  before := h.made

theorem Track.hear (h : Track feeds xs old new' i) {x : Heard} (hx : x.1 = i)
    (sent : ∀ y ∈ xs ++ [x], (feeds y.1).Sends y.2)
    (clear : Clear (receive {} (heardElse xs x.1)) (heardOf xs x.1) x.2) :
    Track feeds (xs ++ [x]) old (new' ++ [x]) i := by
  have hold : heardElse xs x.1 = old.map Prod.snd ∧ heardOf xs x.1 = new'.map Prod.snd := by
    rw [heardElse, heardOf, h.split, List.filter_append, List.filter_append,
      List.filter_eq_self.mpr fun y hy => by simp [hx, Nat.ne_of_lt (h.earlier y hy)],
      List.filter_eq_nil_iff.mpr fun y hy => by simp [hx, h.last y hy],
      List.filter_eq_nil_iff.mpr fun y hy => by simp [hx, Nat.ne_of_lt (h.earlier y hy)],
      List.filter_eq_self.mpr fun y hy => by simp [hx, h.last y hy], List.append_nil,
      List.nil_append]
    exact ⟨rfl, rfl⟩
  rw [hold.1, hold.2] at clear
  have hnew : ∀ z ∈ new'.map Prod.snd, (feeds i).Sends z := by
    intro z hz
    obtain ⟨y, hy, rfl⟩ := List.mem_map.mp hz
    rw [← h.last y hy]
    exact sent y (by rw [h.split]; simp [hy])
  have hmine : (feeds i).Sends x.2 := by
    rw [← hx]
    exact sent x (by simp)
  refine ⟨by rw [h.split, List.append_assoc], h.earlier, fun y hy => ?_, ?_, h.before⟩
  · rcases List.mem_append.mp hy with hy | hy
    · exact h.last y hy
    · rw [List.mem_singleton.mp hy]
      exact hx
  · have hstep := h.since.onPacket hnew hmine clear
    have hreceive :
        receive {} ((xs ++ [x]).map Prod.snd) = (receive {} (xs.map Prod.snd)).onPacket x.2 := by
      rw [receive, List.map_append, List.foldl_append]
      rfl
    rw [hreceive, List.map_append]
    exact hstep

theorem track_all (sent : ∀ x ∈ xs, (feeds x.1).Sends x.2)
    (successive : xs.Pairwise fun x y => x.1 ≤ y.1) (clear : AllClear xs) : ∃ old new i,
    Track feeds xs old new i ∧ (∀ y ∈ xs, y.1 ≤ i) ∧ (xs = [] ∨ new ≠ []) := by
  induction xs using List.reverseRecOn with
  | nil =>
      have hfresh : Since (feeds 0) {} [] {} :=
        since_restart rfl (by simp) List.Pairwise.nil fun _ => rfl
      exact ⟨[], [], 0, ⟨rfl, by simp, by simp, hfresh, by simp [receive]⟩, by simp, .inl rfl⟩
  | append_singleton xs x ih =>
      obtain ⟨hbefore, -, hle⟩ := List.pairwise_append.mp successive
      obtain ⟨old, new, i, htrack, hi, hnew⟩ :=
        ih (fun y hy => sent y (List.mem_append_left _ hy)) hbefore
        fun front y rest hsplit => clear front y (rest ++ [x])
          (by rw [hsplit, List.append_assoc, List.cons_append])
      have hlast := clear xs x [] rfl
      have hx : ∀ y ∈ xs, y.1 ≤ x.1 := fun y hy => hle y hy x (by simp)
      have hall : ∀ y ∈ xs ++ [x], y.1 ≤ x.1 := by
        intro y hy
        rcases List.mem_append.mp hy with hy | hy
        · exact hx y hy
        · rw [List.mem_singleton.mp hy]
      by_cases hsame : ∀ y ∈ xs, y.1 < x.1
      · exact ⟨xs, [] ++ [x], x.1, (htrack.restart hsame).hear rfl sent hlast, hall, .inr (by simp)⟩
      · obtain ⟨y, hy, heq⟩ : ∃ y ∈ xs, x.1 ≤ y.1 := by
          by_contra hno
          exact hsame fun y hy => by
            by_contra hlt
            exact hno ⟨y, hy, by omega⟩
        have hxi : x.1 = i := by
          refine Nat.le_antisymm (Nat.le_trans heq (hi y hy)) ?_
          rcases hnew with rfl | hne
          · cases hy
          · obtain ⟨z, hz⟩ := List.exists_mem_of_ne_nil new hne
            rw [← htrack.last z hz]
            exact hx z (by rw [htrack.split]; exact List.mem_append_right _ hz)
        refine ⟨old, new ++ [x], i, htrack.hear hxi sent hlast, ?_, .inr (by simp)⟩
        rw [← hxi]
        exact hall

/-- A subscriber hears successive incarnations of a server, and no packet fits what it has kept from
before the last restart: then a synced book shows the map that a single incarnation had after its
packet `last_seq()`, and is made of packets that were heard of that incarnation. -/
theorem synced_with_one_incarnation (feeds : Nat → Feed) (xs : List Heard)
    (sent : ∀ x ∈ xs, (feeds x.1).Sends x.2) (successive : xs.Pairwise fun x y => x.1 ≤ y.1)
    (clear : AllClear xs) (synced : (receive {} (xs.map Prod.snd)).synced = true) :
    ∃ i, (receive {} (xs.map Prod.snd)).seq.toNat ≤ (feeds i).incrementals.length ∧
      (receive {} (xs.map Prod.snd)).books.l2 = (feeds i).map
        (receive {} (xs.map Prod.snd)).seq.toNat ∧
      MadeOf (feeds i) (fun p => (i, p) ∈ xs) (receive {} (xs.map Prod.snd)) := by
  obtain ⟨old, new, _, htrack, -⟩ := track_all sent successive clear
  obtain ⟨i, hmade⟩ := htrack.made synced
  obtain ⟨hle, hl2⟩ := hmade.shown
  exact ⟨i, hle, hl2, hmade⟩

end Runs

end Book

/-- The restarted server starts from the book of the first one. -/
def restarted : Feed :=
  ⟨smallFeed.map 1, [[Row.entry ⟨0, .sell, 11, 7⟩], [Row.entry ⟨0, .sell, 12, 9⟩]], by decide⟩

def twoRuns : Nat → Feed := fun i => if i = 0 then smallFeed else restarted

theorem restarted_sends_snapshot :
    restarted.Sends (snapshotPart 1 [firstRow, ⟨0, .sell, 11, 7⟩] 0) := by
  refine .snapshot 1 (by decide) _ ?_ (by decide) 0 (by decide)
  have hlist : Lists [firstRow, ⟨0, .sell, 11, 7⟩]
      (L2.empty.apply ([firstRow, ⟨0, .sell, 11, 7⟩].map Row.entry)) :=
    lists_apply (by simp [firstRow, Row.Before]) (by simp [firstRow])
  exact hlist

/-- The first server's snapshot; then the second one's heartbeat, which shows that packets are
missing, its snapshot and its second packet. -/
def rejoined : List Heard :=
  [(0, snapshotPart 1 [firstRow] 0), (1, { kind := .heartbeat, seq := 2 }),
    (1, snapshotPart 1 [firstRow, ⟨0, .sell, 11, 7⟩] 0),
    (1, Publisher.incremental 2 [Row.entry ⟨0, .sell, 12, 9⟩])]

namespace Book

theorem rejoined_clear : AllClear rejoined := by
  intro front x rest hsplit
  rcases front with _ | ⟨a, _ | ⟨b, _ | ⟨c, _ | ⟨d, front⟩⟩⟩⟩
  all_goals simp only [rejoined, List.nil_append, List.cons_append, List.cons.injEq] at hsplit
  · obtain ⟨rfl, -⟩ := hsplit
    exact ⟨nofun, fun _ _ hpart => absurd rfl hpart, nofun⟩
  · obtain ⟨-, rfl, -⟩ := hsplit
    exact ⟨nofun, nofun, nofun⟩
  · obtain ⟨rfl, rfl, rfl, -⟩ := hsplit
    have hpend : (receive {} [snapshotPart 1 [firstRow] 0]).pending = [] := by decide +kernel
    refine ⟨nofun, fun _ _ hpart => absurd rfl hpart, fun _ e he => ?_⟩
    have he : e ∈ (receive {} [snapshotPart 1 [firstRow] 0]).pending := he
    rw [hpend] at he
    cases he
  · obtain ⟨rfl, rfl, rfl, rfl, -⟩ := hsplit
    have hseq : (receive {} [snapshotPart 1 [firstRow] 0]).seq < 2 := by decide +kernel
    exact ⟨fun _ _ _ => ⟨{ kind := .heartbeat, seq := 2 }, List.mem_cons_self, hseq⟩, nofun, nofun⟩
  · obtain ⟨-, -, -, -, hnil⟩ := hsplit
    cases front <;> cases hnil

theorem synced_with_one_incarnation_rejoined :
    (receive {} (rejoined.map Prod.snd)).synced = true ∧
    (receive {} (rejoined.map Prod.snd)).seq = 2 ∧
      ∃ i, (receive {} (rejoined.map Prod.snd)).books.l2 = (twoRuns i).map 2 ∧
        MadeOf (twoRuns i) (fun p => (i, p) ∈ rejoined) (receive {} (rejoined.map Prod.snd)) := by
  have hsync : (receive {} (rejoined.map Prod.snd)).synced = true := by decide +kernel
  have hseq : (receive {} (rejoined.map Prod.snd)).seq = 2 := by decide +kernel
  refine ⟨hsync, hseq, ?_⟩
  have hsent : ∀ x ∈ rejoined, (twoRuns x.1).Sends x.2 := by
    intro x hx
    simp only [rejoined, List.mem_cons, List.not_mem_nil, or_false] at hx
    rcases hx with rfl | rfl | rfl | rfl
    · exact smallFeed_sends_snapshot
    · exact .heartbeat 2 (by decide)
    · exact restarted_sends_snapshot
    · exact .incremental 1 _ rfl
  obtain ⟨i, -, hl2, hmade⟩ := synced_with_one_incarnation twoRuns rejoined hsent
    (by simp [rejoined]) rejoined_clear hsync
  rw [hseq] at hl2
  exact ⟨i, hl2, hmade⟩

end Book

/-- The snapshot of the first server, then both packets of the restarted one. -/
def acrossRestart : List Heard :=
  [(0, snapshotPart 1 [firstRow] 0), (1, Publisher.incremental 1 [Row.entry ⟨0, .sell, 11, 7⟩]),
    (1, Publisher.incremental 2 [Row.entry ⟨0, .sell, 12, 9⟩])]

theorem acrossRestart_sent : ∀ x ∈ acrossRestart, (twoRuns x.1).Sends x.2 := by
  intro x hx
  simp only [acrossRestart, List.mem_cons, List.not_mem_nil, or_false] at hx
  rcases hx with rfl | rfl | rfl
  · exact smallFeed_sends_snapshot
  · exact .incremental 0 _ rfl
  · exact .incremental 1 _ rfl

/-- The first packet after the restart is taken for a duplicate and the second for
the next one: the book has the levels of both servers and is declared synced. -/
theorem Book.synced_across_restart :
    (∀ x ∈ acrossRestart, (twoRuns x.1).Sends x.2) ∧ (acrossRestart.Pairwise fun x y => x.1 ≤ y.1) ∧
      (receive {} (acrossRestart.map Prod.snd)).synced = true ∧
      ¬ ∃ i, (receive {} (acrossRestart.map Prod.snd)).seq.toNat ≤ (twoRuns i).incrementals.length ∧
          (receive {} (acrossRestart.map Prod.snd)).books.l2 =
            (twoRuns i).map (receive {} (acrossRestart.map Prod.snd)).seq.toNat := by
  refine ⟨acrossRestart_sent, by simp [acrossRestart], by decide, ?_⟩
  rintro ⟨i, hle, hl2⟩
  have hseq : (receive {} (acrossRestart.map Prod.snd)).seq.toNat = 2 := by decide
  rw [hseq] at hle hl2
  by_cases hi : i = 0
  · subst hi
    exact absurd hle (by decide)
  · have hlevel := congrFun (congrFun (congrFun hl2 0) .sell) 11
    rw [show twoRuns i = restarted from if_neg hi] at hlevel
    exact absurd hlevel (by decide)

end ExchangeSim.MarketData
