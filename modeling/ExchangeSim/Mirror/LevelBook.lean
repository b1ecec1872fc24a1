/- digest: A book with one order per price level, and what a change of one level does to it. -/

import ExchangeSim.Mirror.BookMirror
import ExchangeSim.Book.Simulation

set_option autoImplicit false
set_option relaxedAutoImplicit false

namespace ExchangeSim.Mirror

open ExchangeSim.Book
open PriorityBook (Rules Ok lookup inRange enter process FokCheck count join eraseId setQty
    mem_erased mem_join)
open BookMirror (idFor levelCommand)

/-- The total of every level of both sides. -/
abbrev Entries := Side × Nat → Qty

theorem idFor_toNat {i : Nat} (hi : i < 2 ^ 30) (S : Side) :
    (idFor i S).toNat = 2 * i + (if S = .sell then 1 else 0) + 1 := by
  have hshift : (UInt64.ofNat i <<< 1).toNat = i <<< 1 := by
    rw [UInt64.toNat_shiftLeft, UInt64.toNat_ofNat_of_lt' (by simp only [UInt64.size]; omega)]
    simp only [Nat.shiftLeft_eq]
    have : ((1 : UInt64).toNat % 64) = 1 := rfl
    rw [this]
    omega
  cases S with
  | buy =>
      simp only [idFor, UInt64.toNat_add, UInt64.toNat_or, hshift, Nat.shiftLeft_eq]
      simp
      omega
  | sell =>
      have hor : i <<< 1 ||| 1 = i <<< 1 + 1 := (Nat.shiftLeft_add_eq_or_of_lt (by decide) i).symm
      simp only [idFor, UInt64.toNat_add, UInt64.toNat_or, hshift]
      rw [show (1 : UInt64).toNat = 1 from rfl, hor, Nat.shiftLeft_eq]
      simp
      omega

theorem idFor_inj {i j : Nat} (hi : i < 2 ^ 30) (hj : j < 2 ^ 30) {S T : Side}
    (h : idFor i S = idFor j T) :
    i = j ∧ S = T := by
  have := congrArg UInt64.toNat h
  rw [idFor_toNat hi, idFor_toNat hj] at this
  cases S <;> cases T <;> simp at this ⊢ <;> omega

theorem idFor_ne_zero {i : Nat} (hi : i < 2 ^ 30) (S : Side) : idFor i S ≠ 0 := by
  intro h
  have := congrArg UInt64.toNat h
  rw [idFor_toNat hi] at this
  simp at this

structure Holds (R : Rules) (E : Entries) (A : PriorityBook) : Prop where
  named : ∀ S, ∀ e ∈ A S, e.id = idFor e.level S
  total : ∀ S, ∀ e ∈ A S, e.qty = E (S, e.level)
  present : ∀ S i, i < R.cfg.numLevels → E (S, i) ≠ 0 → ∃ e ∈ A S, e.level = i

variable {R : Rules} {E : Entries} {A : PriorityBook}

theorem Holds.unique (h : Holds R E A) (hsmall : R.cfg.numLevels ≤ 2 ^ 30) (ok : Ok R A)
    {S T : Side} {i : Nat} (hi : i < R.cfg.numLevels) {e : Resting} (he : e ∈ A T)
    (hid : e.id = idFor i S) : T = S ∧ e.level = i := by
  have hlt := ok.level_lt T e he
  rw [h.named T e he] at hid
  obtain ⟨hlev, hside⟩ := idFor_inj (by omega) (by omega) hid
  exact ⟨hside, hlev⟩

theorem Holds.lookup_some (h : Holds R E A) (ok : Ok R A) {S : Side} {i : Nat}
    (hi : i < R.cfg.numLevels) (hE : E (S, i) ≠ 0) : ∃ e ∈ A S, e.level = i ∧ e.qty = E (S, i) ∧
    lookup A (idFor i S) = some (S, e) := by
  obtain ⟨e, he, rfl⟩ := h.present S i hi hE
  refine ⟨e, he, rfl, h.total S e he, ?_⟩
  rw [← h.named S e he]
  exact ok.ids.lookup_eq he

theorem Holds.lookup_none (h : Holds R E A) (hsmall : R.cfg.numLevels ≤ 2 ^ 30) (ok : Ok R A)
    {S : Side} {i : Nat} (hi : i < R.cfg.numLevels) (hE : E (S, i) = 0) :
    lookup A (idFor i S) = none := by
  cases hl : lookup A (idFor i S) with
  | none => rfl
  | some p =>
      obtain ⟨T, e⟩ := p
      obtain ⟨he, hid⟩ := PriorityBook.lookup_mem hl
      obtain ⟨hT, hlev⟩ := h.unique hsmall ok hi he hid
      rw [← hT, ← hlev, ← h.total T e he] at hE
      exact absurd hE (ok.positive T e he)

theorem Holds.erase (h : Holds R E A) (hsmall : R.cfg.numLevels ≤ 2 ^ 30) (ok : Ok R A)
    (S : Side) {i : Nat} (hi : i < R.cfg.numLevels) :
    Holds R (Function.update E (S, i) 0) (Function.update A S (eraseId (idFor i S) (A S))) := by
  have hmem : ∀ T e, e ∈ Function.update A S (eraseId (idFor i S) (A S)) T → e ∈ A T ∧
      (T, e.level) ≠ (S, i) := by
    intro T e he
    obtain ⟨he, hne⟩ := mem_erased.mp he
    refine ⟨he, fun heq => ?_⟩
    obtain ⟨hT, hlev⟩ := Prod.mk.inj heq
    exact hne hT (by rw [h.named T e he, hlev, hT])
  refine ⟨fun T e he => h.named T e (hmem T e he).1, fun T e he => ?_, fun T j hj hE => ?_⟩
  · rw [Function.update_of_ne (hmem T e he).2]
    exact h.total T e (hmem T e he).1
  · have hne : (T, j) ≠ (S, i) := by
      intro heq
      rw [heq, Function.update_self] at hE
      exact hE rfl
    rw [Function.update_of_ne hne] at hE
    obtain ⟨e, he, rfl⟩ := h.present T j hj hE
    refine ⟨e, mem_erased.mpr ⟨he, fun hTS hid => ?_⟩, rfl⟩
    obtain ⟨hT, hlev⟩ := h.unique hsmall ok hi he hid
    exact hne (by rw [hT, hlev])

theorem Holds.setQty (h : Holds R E A) (hsmall : R.cfg.numLevels ≤ 2 ^ 30) (ok : Ok R A)
    (S : Side) {i : Nat} (hi : i < R.cfg.numLevels) (hE : E (S, i) ≠ 0) (q : Qty) :
    Holds R (Function.update E (S, i) q)
      (Function.update A S (PriorityBook.setQty (idFor i S) q (A S))) := by
  have hmem : ∀ T x, x ∈ Function.update A S (PriorityBook.setQty (idFor i S) q (A S)) T ↔
      ∃ e ∈ A T, x = if T = S ∧ e.id = idFor i S then { e with qty := q } else e := by
    intro T x
    by_cases hT : T = S
    · subst hT
      rw [Function.update_self, PriorityBook.setQty, List.mem_map]
      simp [eq_comm]
    · rw [Function.update_of_ne hT]
      simp [hT]
  refine ⟨fun T x hx => ?_, fun T x hx => ?_, fun T j hj hEj => ?_⟩
  · obtain ⟨e, he, rfl⟩ := (hmem T x).mp hx
    split <;> exact h.named T e he
  · obtain ⟨e, he, rfl⟩ := (hmem T x).mp hx
    split
    · rename_i hown
      obtain ⟨hT, hlev⟩ := h.unique hsmall ok hi he hown.2
      rw [hT, hlev, Function.update_self]
    · rename_i hother
      rw [Function.update_of_ne, h.total T e he]
      intro heq
      obtain ⟨hT, hlev⟩ := Prod.mk.inj heq
      exact hother ⟨hT, by rw [h.named T e he, hlev, hT]⟩
  · have hEj' : E (T, j) ≠ 0 := by
      by_cases heq : (T, j) = (S, i)
      · rw [heq]
        exact hE
      · rwa [Function.update_of_ne heq] at hEj
    obtain ⟨e, he, hlev⟩ := h.present T j hj hEj'
    refine ⟨_, (hmem T _).mpr ⟨e, he, rfl⟩, ?_⟩
    split <;> exact hlev

theorem Holds.join (h : Holds R E A) {S : Side} {i : Nat} (hE : E (S, i) = 0)
    (ok : ∀ e ∈ A S, e.qty ≠ 0) (q : Qty) (owner : OwnerId) :
    Holds R (Function.update E (S, i) q)
      (Function.update A S (PriorityBook.join S ⟨i, idFor i S, q, owner⟩ (A S))) := by
  have hmem : ∀ T x, x ∈ Function.update A S
    (PriorityBook.join S ⟨i, idFor i S, q, owner⟩ (A S)) T ↔
      (T = S ∧ x = ⟨i, idFor i S, q, owner⟩) ∨ x ∈ A T := by
    intro T x
    by_cases hT : T = S
    · subst hT
      rw [Function.update_self, mem_join]
      simp
    · rw [Function.update_of_ne hT]
      simp [hT]
  refine ⟨fun T x hx => ?_, fun T x hx => ?_, fun T j hj hEj => ?_⟩
  · rcases (hmem T x).mp hx with ⟨rfl, rfl⟩ | hx
    · rfl
    · exact h.named T x hx
  · rcases (hmem T x).mp hx with ⟨rfl, rfl⟩ | hold
    · rw [Function.update_self]
    · rw [Function.update_of_ne, h.total T x hold]
      intro heq
      have hqty := h.total T x hold
      rw [heq, hE] at hqty
      rw [(Prod.mk.inj heq).1] at hold
      exact ok x hold hqty
  · by_cases heq : (T, j) = (S, i)
    · obtain ⟨hT, hlev⟩ := Prod.mk.inj heq
      exact ⟨⟨i, idFor i S, q, owner⟩, (hmem T _).mpr (.inl ⟨hT, rfl⟩), hlev.symm⟩
    · rw [Function.update_of_ne heq] at hEj
      obtain ⟨e, he, hlev⟩ := h.present T j hj hEj
      exact ⟨e, (hmem T e).mpr (.inr he), hlev⟩

theorem enter_clear {S : Side} {limit : Int} {q : Qty}
    (hclear : ∀ e ∈ A (opposite S), inRange S limit e.level = false)
    (hroom : count A < R.cfg.maxOrders) (hq : q ≠ 0) (id : OrderId) (owner : OwnerId)
    (stp : Stp) (px : Price) :
    enter R A S id owner limit q stp px true =
      (Function.update A S (PriorityBook.join S ⟨limit.toNat, id, q, owner⟩ (A S)), []) := by
  have hsweep : PriorityBook.sweep R S id owner limit stp
      (A (opposite S)) q = ⟨A (opposite S), q, false, []⟩ := by
    cases hA : A (opposite S) with
    | nil => rfl
    | cons e es =>
        have he := hclear e (by rw [hA]; simp)
        simp [PriorityBook.sweep, he]
  simp only [enter, hsweep, Function.update_eq_self, if_neg hq, PriorityBook.rest,
    if_neg (Nat.not_le.mpr hroom)]
  simp

/-- An event that is no trade and no refusal. -/
def quiet (e : Event) : Bool := e.type ≠ .trade && e.type ≠ .rejected && e.reason ≠ .bookFull

section Commands

variable {S : Side} {i : Nat} {u : LevelUpdate}

/-- Nothing on the other side is in reach of an order at level `i`. -/
def Clear (E : Entries) (n : Nat) (S : Side) (i : Nat) : Prop :=
  ∀ j, j < n → E (opposite S, j) ≠ 0 → inRange S i j = false

theorem Holds.clear (h : Holds R E A) (ok : Ok R A) (hclear : Clear E R.cfg.numLevels S i) :
    ∀ e ∈ A (opposite S), inRange S i e.level = false := by
  intro e he
  refine hclear e.level (ok.level_lt _ e he) ?_
  rw [← h.total _ e he]
  exact ok.positive _ e he

theorem Holds.cancels (h : Holds R E A) (hsmall : R.cfg.numLevels ≤ 2 ^ 30) (ok : Ok R A)
    (hi : i < R.cfg.numLevels) (hE : E (S, i) ≠ 0) (fok : FokCheck) :
    let r := process R fok A (levelCommand .cancel i S u)
    Holds R (Function.update E (S, i) 0) r.1 ∧ r.2.all quiet = true := by
  obtain ⟨e, _, _, _, hlook⟩ := h.lookup_some ok hi hE
  simp only [process, levelCommand, PriorityBook.cancel, hlook]
  exact ⟨h.erase hsmall ok S hi, by simp [quiet, canceledEvent]⟩

theorem Holds.adds (h : Holds R E A) (hsmall : R.cfg.numLevels ≤ 2 ^ 30) (ok : Ok R A)
    (hrel : R.relOf u.px = some i) (hE : E (S, i) = 0) (hq : u.qty ≠ 0)
    (hclear : Clear E R.cfg.numLevels S i) (hroom : count A < R.cfg.maxOrders) (fok : FokCheck) :
    let r := process R fok A (levelCommand .newOrder i S u)
    Holds R (Function.update E (S, i) u.qty) r.1 ∧ r.2.all quiet = true := by
  have hi := Rules.relOf_lt hrel
  have hlook := h.lookup_none hsmall ok hi hE
  have hlimit : R.limitOf S (levelCommand .newOrder i S u) = some (i : Int) := by
    simp [Rules.limitOf, levelCommand, hrel]
  have henter := enter_clear (q := u.qty) (h.clear ok hclear) hroom hq (idFor i S) 0
    (effectiveStp 0 R.cfg.stp) u.px
  have hnew : process R fok A (levelCommand .newOrder i S u) =
      (Function.update A S (PriorityBook.join S ⟨i, idFor i S, u.qty, 0⟩ (A S)),
        [acceptedEvent R.symbol (idFor i S) S u.px u.qty]) := by
    have hid := idFor_ne_zero (i := i) (by omega) S
    simp only [process, PriorityBook.add, levelCommand] at hlimit ⊢
    simp [hid, hq, hlimit, hlook, henter, Command.eventPrice]
  rw [hnew]
  exact ⟨h.join hE (ok.positive S) u.qty 0, by simp [quiet, acceptedEvent]⟩

theorem clear_of_mem (ok : Ok R A) {e : Resting} (he : e ∈ A S) :
    ∀ x ∈ A (opposite S), inRange S e.level x.level = false := by
  intro x hx
  cases S with
  | buy =>
      have := ok.uncrossed e he x hx
      simp only [inRange, decide_eq_false_iff_not]
      omega
  | sell =>
      have := ok.uncrossed x hx e he
      simp only [inRange, decide_eq_false_iff_not]
      omega

theorem count_erased {e : Resting} (he : e ∈ A S) :
    count (Function.update A S (eraseId e.id (A S))) < count A := by
  have hlen : (eraseId e.id (A S)).length < (A S).length :=
    List.length_filter_lt_length_iff_exists.mpr ⟨e, he, by simp⟩
  cases S with
  | buy => simpa [count] using hlen
  | sell => simpa [count] using hlen

theorem Holds.modifies (h : Holds R E A) (hsmall : R.cfg.numLevels ≤ 2 ^ 30) (ok : Ok R A)
    (hrel : R.relOf u.px = some i) (hE : E (S, i) ≠ 0) (hq : u.qty ≠ 0) (fok : FokCheck) :
    let r := process R fok A (levelCommand .modify i S u)
    Holds R (Function.update E (S, i) u.qty) r.1 ∧ r.2.all quiet = true := by
  have hi := Rules.relOf_lt hrel
  obtain ⟨e, he, hlev, hqty, hlook⟩ := h.lookup_some ok hi hE
  have hmod : [modifiedEvent R.symbol (idFor i S) S u.px u.qty].all quiet = true := by
    simp [quiet, modifiedEvent]
  obtain ⟨c, hc⟩ : ∃ c, c = levelCommand .modify i S u := ⟨_, rfl⟩
  obtain ⟨hty, hid, hpx, hcq⟩ : c.type = .modify ∧ c.orderId = idFor i S ∧
      c.price = u.px ∧ c.qty = u.qty := by
    rw [hc]
    exact ⟨rfl, rfl, rfl, rfl⟩
  rw [← hc]
  simp only [process, hty, PriorityBook.modify, hid, hpx, hcq, if_neg hq, hlook, hrel]
  split
  · exact ⟨h.setQty hsmall ok S hi hE u.qty, hmod⟩
  · -- the order has left, so the level is free, out of reach and there is room
    have hnamed := h.named S e he
    rw [hlev] at hnamed
    have hclear : ∀ x ∈ Function.update A S (eraseId (idFor i S) (A S)) (opposite S),
        inRange S (i : Int) x.level = false := by
      intro x hx
      rw [← hlev]
      exact clear_of_mem ok he x (mem_erased.mp hx).1
    have hroom : count (Function.update A S (eraseId (idFor i S) (A S))) < R.cfg.maxOrders := by
      have := count_erased he
      rw [hnamed] at this
      exact this.trans_le ok.count_le
    have herased := h.erase hsmall ok S hi
    have hpos : ∀ x ∈ Function.update A S (eraseId (idFor i S) (A S)) S, x.qty ≠ 0 :=
      fun x hx => ok.positive S x (mem_erased.mp hx).1
    have hjoin := herased.join (S := S) (i := i) (Function.update_self ..) hpos u.qty e.owner
    rw [Function.update_idem] at hjoin
    rw [enter_clear hclear hroom hq]
    exact ⟨hjoin, hmod⟩

end Commands

/-- How many levels have a total. -/
def live (E : Entries) (n : Nat) (S : Side) : Nat := (List.range n).countP fun i => E (S, i) ≠ 0

theorem Holds.levels_perm (h : Holds R E A) (ok : Ok R A) (S : Side) :
    ((A S).map Resting.level).Perm ((List.range R.cfg.numLevels).filter fun i => E (S, i) ≠ 0) := by
  have hnodup : ((A S).map Resting.level).Nodup := by
    refine List.Nodup.of_map (fun i => idFor i S) ?_
    have hmap : ((A S).map Resting.level).map (fun i => idFor i S) = (A S).map (·.id) := by
      rw [List.map_map]
      exact List.map_congr_left fun e he => (h.named S e he).symm
    rw [hmap]
    exact ok.ids.nodup S
  refine (List.perm_ext_iff_of_nodup hnodup (List.nodup_range.filter _)).mpr fun i => ?_
  simp only [List.mem_map, List.mem_filter, List.mem_range, decide_eq_true_eq]
  constructor
  · rintro ⟨e, he, rfl⟩
    refine ⟨ok.level_lt S e he, ?_⟩
    rw [← h.total S e he]
    exact ok.positive S e he
  · rintro ⟨hi, hE⟩
    exact h.present S i hi hE

theorem Holds.count_eq (h : Holds R E A) (ok : Ok R A) :
    count A = live E R.cfg.numLevels .buy + live E R.cfg.numLevels .sell := by
  have hside : ∀ S, (A S).length = live E R.cfg.numLevels S := by
    intro S
    have := (h.levels_perm ok S).length_eq
    rwa [List.length_map, ← List.countP_eq_length_filter] at this
  rw [count, hside, hside]

end ExchangeSim.Mirror
