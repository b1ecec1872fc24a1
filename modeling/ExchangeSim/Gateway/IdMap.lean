/- digest: The id map holds exactly the live orders that the gateway has named, and no session
   reaches another's orders. -/

import ExchangeSim.Gateway.Books
import ExchangeSim.Gateway.Commit
import ExchangeSim.Gateway.Core

set_option autoImplicit false
set_option relaxedAutoImplicit false

namespace ExchangeSim.Gateway

open Book (OrderBook OrderView StoreLayout IndexHash PriorityBook Resting)
open Book.PriorityBook (Rules)
open Engine (RiskGate MatchingEngine RiskConfig)

/-! ### The two maps -/

namespace ClientIdMap

variable {m : ClientIdMap} {k : Key} {x y : OrderId}

/-- Each map is the other one read backwards. -/
def Inverse (m : ClientIdMap) : Prop := ∀ k x, m.fwd k = some x ↔ m.rev x = some k

theorem inverse_make (first : OrderId) : (make first).Inverse := by
  intro k x
  simp [make]

/-- The map after a fresh id has been given out. -/
def named (m : ClientIdMap) (k : Key) : ClientIdMap :=
  ⟨Function.update m.fwd k (some m.next), Function.update m.rev m.next (some k), m.next + 1⟩

theorem Inverse.named (h : m.Inverse) (hk : m.fwd k = none) (hnext : m.rev m.next = none) :
    (m.named k).Inverse := by
  intro k' x
  simp only [ClientIdMap.named]
  by_cases hk' : k' = k
  · subst hk'
    rw [Function.update_self]
    by_cases hx : x = m.next
    · subst hx
      rw [Function.update_self]
      simp
    · rw [Function.update_of_ne hx, ← h k' x, hk]
      simp [Ne.symm hx]
  · rw [Function.update_of_ne hk']
    by_cases hx : x = m.next
    · subst hx
      rw [Function.update_self, h k' m.next, hnext]
      simp [Ne.symm hk']
    · rw [Function.update_of_ne hx]
      exact h k' x

theorem forNew_cases (m : ClientIdMap) (k : Key) (hnext : m.rev m.next = none) :
    (k.clientId = 0 ∧ m.forNew k = (m, 0)) ∨ (∃ x, m.fwd k = some x ∧ m.forNew k = (m, x)) ∨
      (m.fwd k = none ∧ m.forNew k = (m.named k, m.next)) := by
  rw [forNew]
  split
  · rename_i hzero
    exact .inl ⟨hzero, rfl⟩
  · cases hk : m.fwd k with
    | some x => exact .inr (.inl ⟨x, rfl, rfl⟩)
    | none =>
        refine .inr (.inr ⟨rfl, ?_⟩)
        simp [hnext, ClientIdMap.named]

theorem retire_rev (m : ClientIdMap) (x y : OrderId) :
    (m.retire x).rev y = if y = x then none else m.rev y := by
  rw [retire]
  cases hx : m.rev x with
  | none =>
      by_cases hy : y = x
      · rw [if_pos hy, hy]
        exact hx
      · rw [if_neg hy]
  | some k => exact Function.update_apply m.rev x none y

@[simp] theorem retire_next (m : ClientIdMap) (x : OrderId) : (m.retire x).next = m.next := by
  rw [retire]
  cases m.rev x <;> rfl

theorem Inverse.retire (h : m.Inverse) (x : OrderId) : (m.retire x).Inverse := by
  intro k y
  rw [retire_rev, ClientIdMap.retire]
  cases hx : m.rev x with
  | none =>
      by_cases hy : y = x
      · rw [if_pos hy, hy]
        simp [h k x, hx]
      · rw [if_neg hy]
        exact h k y
  | some k' =>
      simp only
      by_cases hk : k = k'
      · subst hk
        rw [Function.update_self]
        by_cases hy : y = x
        · rw [if_pos hy]
          simp
        · rw [if_neg hy, ← h k y, (h k x).mpr hx]
          simp [Ne.symm hy]
      · rw [Function.update_of_ne hk]
        by_cases hy : y = x
        · rw [if_pos hy, hy, h k x, hx]
          simp [Ne.symm hk]
        · rw [if_neg hy]
          exact h k y

end ClientIdMap

/-- An id that is not in the book of the symbol any more. -/
def Dead {G : Type} (desk : Desk G) (g : G) (symbol : SymbolId) (x : OrderId) : Prop :=
  x ≠ 0 ∧ (desk.numSymbols g ≤ symbol.toNat ∨ ¬ desk.contains g symbol x)

instance {G : Type} (desk : Desk G) (g : G) (symbol : SymbolId) (x : OrderId) :
    Decidable (Dead desk g symbol x) :=
  inferInstanceAs (Decidable (_ ∧ _))

theorem retireDead_spec {G : Type} (desk : Desk G) (g : G) (symbol : SymbolId)
    {m : ClientIdMap} (h : m.Inverse) (xs : List OrderId) :
    (retireDead desk g symbol m xs).Inverse ∧ (retireDead desk g symbol m xs).next = m.next ∧
      ∀ y, (retireDead desk g symbol m xs).rev y = if y ∈ xs ∧ Dead desk g symbol y then
        none else m.rev y := by
  induction xs generalizing m with
  | nil => exact ⟨h, rfl, fun y => by simp [retireDead]⟩
  | cons x xs ih =>
      have hcons : retireDead desk g symbol m (x :: xs) =
          retireDead desk g symbol (if Dead desk g symbol x then m.retire x else m) xs := rfl
      rw [hcons]
      by_cases hdead : Dead desk g symbol x
      · rw [if_pos hdead]
        obtain ⟨hinv, hnext, hrev⟩ := ih (h.retire x)
        refine ⟨hinv, hnext.trans (m.retire_next x), fun y => ?_⟩
        rw [hrev, m.retire_rev]
        by_cases hy : y = x
        · subst hy
          simp [hdead]
        · simp [hy]
      · rw [if_neg hdead]
        obtain ⟨hinv, hnext, hrev⟩ := ih h
        refine ⟨hinv, hnext, fun y => ?_⟩
        rw [hrev]
        by_cases hy : y = x
        · subst hy
          simp [hdead]
        · simp [hy]

/-! ### Live orders -/

section Live

variable {σ : Type} [StoreLayout σ] {numSymbols : UInt32} {bookCfg : BookConfig} {risk : RiskConfig}
  {g g' : RiskGate (OrderBook σ)} {books books' : SymbolId → PriorityBook} {first : OrderId}
    {ids : ClientIdMap} {c : Command}

theorem dead_iff (h : g.Holds numSymbols bookCfg risk books) (symbol : SymbolId) (x : OrderId) :
    Dead desk g symbol x ↔ x ≠ 0 ∧ (symbol < numSymbols → ∀ S, ∀ e ∈ books symbol S, e.id ≠ x) := by
  have hknown : desk.numSymbols g ≤ symbol.toNat ↔ ¬ symbol < numSymbols := by
    change g.engine.numSymbols.toNat ≤ symbol.toNat ↔ _
    rw [h.engine.known, UInt32.lt_iff_toNat_lt, Nat.not_lt]
  rw [Dead, hknown]
  refine and_congr_right fun _ => ?_
  by_cases hs : symbol < numSymbols
  · simp only [hs, not_true_eq_false, false_or, forall_const]
    rw [Desk.contains, findOrder_eq h hs, Option.isSome_map]
    constructor
    · intro hnone S e he hid
      apply hnone
      rw [← hid, (h.engine.book symbol hs).ok.ids.lookup_eq he]
      rfl
    · intro hall hsome
      obtain ⟨p, hp⟩ := Option.isSome_iff_exists.mp hsome
      obtain ⟨he, hid⟩ := PriorityBook.lookup_mem hp
      exact hall p.1 p.2 he hid
  · simp [hs]

/-- The order that a key stands for rests in the book of its symbol. -/
def Rests (numSymbols : UInt32) (books : SymbolId → PriorityBook) (x : OrderId) (k : Key) : Prop :=
  k.symbol < numSymbols ∧ ∃ S, ∃ e ∈ books k.symbol S, e.id = x ∧ e.owner = k.owner

structure Tracks (first : OrderId) (numSymbols : UInt32) (ids : ClientIdMap)
    (books : SymbolId → PriorityBook) : Prop where
  inverse : ids.Inverse
  floor : first ≤ ids.next
  below : ∀ x k, ids.rev x = some k → first ≤ x ∧ x < ids.next
  rests : ∀ x k, ids.rev x = some k → Rests numSymbols books x k
  known : ∀ s, s < numSymbols → ∀ S, ∀ e ∈ books s S, e.id < first ∨ ∃ k,
    ids.rev e.id = some k ∧ k.symbol = s

structure Pending (first : OrderId) (numSymbols : UInt32) (ids : ClientIdMap)
    (books : SymbolId → PriorityBook) (c : Command) : Prop where
  inverse : ids.Inverse
  floor : first ≤ ids.next
  below : ∀ x k, ids.rev x = some k → first ≤ x ∧ x < ids.next
  rests : ∀ x k, ids.rev x = some k → Rests numSymbols books x k ∨
    (x = c.orderId ∧ c.type = .newOrder ∧ ∀ s, s < numSymbols → ∀ S, ∀ e ∈ books s S, e.id ≠ x)
  known : ∀ s, s < numSymbols → ∀ S, ∀ e ∈ books s S, e.id < first ∨ ∃ k,
    ids.rev e.id = some k ∧ k.symbol = s
  names : c.orderId = 0 ∨ ∃ k, ids.rev c.orderId = some k ∧ k.symbol = c.symbol ∧ k.owner = c.owner

theorem Tracks.rev_next (h : Tracks first numSymbols ids books) : ids.rev ids.next = none := by
  cases hrev : ids.rev ids.next with
  | none => rfl
  | some k => exact absurd (h.below _ k hrev).2 (UInt64.lt_irrefl _)

theorem Tracks.same (h : Tracks first numSymbols ids books)
    (hnames : c.orderId = 0 ∨ ∃ k, ids.rev c.orderId = some k ∧ k.symbol = c.symbol ∧
      k.owner = c.owner) :
    Pending first numSymbols ids books c :=
  ⟨h.inverse, h.floor, h.below, fun x k hx => .inl (h.rests x k hx), h.known, hnames⟩

theorem Tracks.fresh (h : Tracks first numSymbols ids books) {k : Key} (hk : ids.fwd k = none)
    (hnext : ids.next + 1 ≠ 0) (hty : c.type = .newOrder) (hid : c.orderId = ids.next)
    (hsym : k.symbol = c.symbol) (hown : k.owner = c.owner) :
    Pending first numSymbols (ids.named k) books c := by
  have hlt : ids.next < ids.next + 1 := by grind
  have hrev : ∀ x, (ids.named k).rev x = if x = ids.next then some k else ids.rev x :=
    fun x => Function.update_apply ids.rev ids.next (some k) x
  have hunused : ∀ s, s < numSymbols → ∀ S, ∀ e ∈ books s S, e.id ≠ ids.next := by
    intro s hs S e he heq
    rcases h.known s hs S e he with hold | ⟨k', hk', -⟩
    · rw [heq] at hold
      exact absurd h.floor (UInt64.not_le.mpr hold)
    · rw [heq, h.rev_next] at hk'
      cases hk'
  constructor
  · exact h.inverse.named hk h.rev_next
  · exact UInt64.le_trans h.floor (UInt64.le_of_lt hlt)
  · intro x k' hx
    rw [hrev] at hx
    split at hx
    · rename_i hnew
      rw [hnew]
      exact ⟨h.floor, hlt⟩
    · obtain ⟨hge, hbelow⟩ := h.below x k' hx
      exact ⟨hge, UInt64.lt_trans hbelow hlt⟩
  · intro x k' hx
    rw [hrev] at hx
    split at hx
    · rename_i hnew
      exact .inr ⟨hnew.trans hid.symm, hty, fun s hs S e he => hnew ▸ hunused s hs S e he⟩
    · exact .inl (h.rests x k' hx)
  · intro s hs S e he
    refine (h.known s hs S e he).imp_right ?_
    rintro ⟨k', hk', hsym'⟩
    exact ⟨k', by rw [hrev, if_neg (hunused s hs S e he)]; exact hk', hsym'⟩
  · refine .inr ⟨k, ?_, hsym, hown⟩
    rw [hrev, if_pos hid]

theorem Tracks.translated (h : Tracks first numSymbols ids books) (c cmd : Command)
    (owner : OwnerId) (hty : cmd.type = c.type) (hsym : cmd.symbol = c.symbol)
    (hown : cmd.owner = owner) :
    let t := if c.type = .newOrder then ids.forNew ⟨c.orderId, c.symbol, owner⟩
      else (ids, ids.find ⟨c.orderId, c.symbol, owner⟩)
    cmd.orderId = t.2 → t.1.next ≠ 0 → Pending first numSymbols t.1 books cmd := by
  intro t hid hnext
  have hlive : ∀ x, ids.fwd ⟨c.orderId, c.symbol, owner⟩ = some x → cmd.orderId = x →
      ∃ k, ids.rev cmd.orderId = some k ∧ k.symbol = cmd.symbol ∧ k.owner = cmd.owner := by
    intro x hx heq
    exact ⟨_, heq ▸ (h.inverse _ x).mp hx, hsym.symm, hown.symm⟩
  by_cases hnew : c.type = .newOrder
  · have ht : t = ids.forNew ⟨c.orderId, c.symbol, owner⟩ := if_pos hnew
    rw [ht] at hid hnext ⊢
    rcases ids.forNew_cases ⟨c.orderId, c.symbol, owner⟩ h.rev_next with ⟨-, heq⟩ |
      ⟨x, hx, heq⟩ | ⟨hk, heq⟩
    · rw [heq] at hid ⊢
      exact h.same (.inl hid)
    · rw [heq] at hid ⊢
      exact h.same (.inr (hlive x hx hid))
    · rw [heq] at hid hnext ⊢
      exact h.fresh hk hnext (hty.trans hnew) hid hsym.symm hown.symm
  · have ht : t = (ids, ids.find ⟨c.orderId, c.symbol, owner⟩) := if_neg hnew
    rw [ht] at hid ⊢
    apply h.same
    rw [ClientIdMap.find] at hid
    cases hx : ids.fwd ⟨c.orderId, c.symbol, owner⟩ with
    | none =>
        rw [hx] at hid
        exact .inl hid
    | some x =>
        rw [hx] at hid
        exact .inr (hlive x hx hid)

theorem Pending.symbol_eq (h : Pending first numSymbols ids books c) {x : OrderId} {k : Key}
    (hx : ids.rev x = some k) {s : SymbolId} (hs : s < numSymbols) {S : Side} {e : Resting}
    (he : e ∈ books s S) (hid : e.id = x) : k.symbol = s := by
  rcases h.known s hs S e he with hlt | ⟨k', hk', hsym⟩
  · rw [hid] at hlt
    exact absurd (h.below x k hx).1 (UInt64.not_le.mpr hlt)
  · rw [hid, hx] at hk'
    rw [Option.some.inj hk']
    exact hsym

structure Mentions (c : Command) (events : List Event) (xs : List OrderId) : Prop where
  self : c.orderId ∈ xs
  order : ∀ ev ∈ events, ev.orderId ≠ c.orderId → ev.orderId ∈ xs
  maker : ∀ ev ∈ events, ev.makerId ≠ 0 → ev.makerId ∈ xs
  only : ∀ x ∈ xs, x = c.orderId ∨ ∃ ev ∈ events, (x = ev.orderId ∧ x ≠ c.orderId) ∨
    (x = ev.makerId ∧ x ≠ 0)

section Handled

variable (h : Pending first numSymbols ids books c) (hpos : first ≠ 0)
    (hholds : g.Holds numSymbols bookCfg risk books)
  (hholds' : g'.Holds numSymbols bookCfg risk books') {events : List Event}
    (ha : Answer numSymbols books books' c events)
  {xs : List OrderId} (hxs : Mentions c events xs)

include h hpos

theorem Pending.ne_zero {x : OrderId} {k : Key} (hx : ids.rev x = some k) : x ≠ 0 := by
  intro hzero
  have hge := (h.below x k hx).1
  rw [hzero] at hge
  exact hpos (by grind)

theorem Pending.key_eq {k : Key} (hx : ids.rev c.orderId = some k) : k.symbol = c.symbol ∧
    k.owner = c.owner := by
  rcases h.names with hzero | ⟨k', hk', hkey⟩
  · exact absurd hzero (h.ne_zero hpos hx)
  · rw [hx] at hk'
    rw [Option.some.inj hk']
    exact hkey

include ha hxs

theorem Pending.mentioned {x : OrderId} {k : Key} (hx : ids.rev x = some k) (hmem : x ∈ xs) :
    k.symbol = c.symbol := by
  have hzero := h.ne_zero hpos hx
  rcases hxs.only x hmem with rfl | ⟨ev, hev, hcase⟩
  · exact (h.key_eq hpos hx).1
  by_cases hs : c.symbol < numSymbols
  · have hin : ∀ U, ∀ e ∈ books c.symbol U, e.id = x → k.symbol = c.symbol :=
      fun U e he hid => h.symbol_eq hx hs he hid
    obtain ⟨U, ⟨hid, hmaker⟩ | ⟨hmaker, e, he, hid, -⟩⟩ := ha.told.speaks ev hev
    · rcases hcase with ⟨rfl, hne⟩ | ⟨rfl, hne⟩
      · exact absurd hid hne
      · obtain ⟨e, he, heid⟩ := hmaker.resolve_left hne
        exact hin U e he heid
    · rcases hcase with ⟨rfl, hne⟩ | ⟨rfl, hne⟩
      · exact hin U e he hid
      · exact absurd hmaker hne
  · obtain ⟨hid, hmaker⟩ := ha.unknown hs ev hev
    rcases hcase with ⟨rfl, hne⟩ | ⟨rfl, hne⟩
    · exact absurd hid hne
    · exact absurd hmaker hne

theorem Pending.mentions_gone {x : OrderId} {k : Key} (hx : ids.rev x = some k)
    {S : Side} {e : Resting} (he : e ∈ books c.symbol S) (hid : e.id = x)
    (hgone : ∀ S, ∀ e ∈ books' c.symbol S, e.id ≠ x) : x ∈ xs := by
  by_cases hself : x = c.orderId
  · rw [hself]
    exact hxs.self
  rcases ha.told.tells S e he (hid ▸ hself) with hkept | ⟨ev, hev, ⟨-, hmaker⟩ | ⟨horder, -⟩⟩
  · exact absurd hid (hgone S e hkept)
  · rw [← hid, ← hmaker]
    apply hxs.maker ev hev
    rw [hmaker, hid]
    exact h.ne_zero hpos hx
  · rw [← hid, ← horder]
    apply hxs.order ev hev
    rw [horder, hid]
    exact hself

include hholds hholds'

theorem Pending.rests_after {x : OrderId} {k : Key} (hx : ids.rev x = some k)
    (halive : ¬ (x ∈ xs ∧ Dead desk g' c.symbol x)) : Rests numSymbols books' x k := by
  have hzero := h.ne_zero hpos hx
  rw [dead_iff hholds'] at halive
  rcases h.rests x k hx with ⟨hs, S, e, he, hid, hown⟩ | ⟨rfl, hty, hnone⟩
  · by_cases hsym : k.symbol = c.symbol
    · rw [Rests]
      rw [hsym] at hs he ⊢
      refine ⟨hs, ?_⟩
      by_contra hno
      have hgone : ∀ S, ∀ e ∈ books' c.symbol S, e.id ≠ x := by
        intro T e' he' hid'
        apply hno
        refine ⟨T, e', he', hid', ?_⟩
        rcases ha.told.source T e' he' with ⟨e₀, he₀, hid₀, hown₀⟩ | ⟨hid₁, -, hacc⟩
        · obtain ⟨-, rfl⟩ := (hholds.engine.book c.symbol hs).ok.ids.unique he₀ he
            (hid₀.trans (hid'.trans hid.symm))
          exact hown₀.symm.trans hown
        · exact absurd (hid.trans (hid'.symm.trans hid₁)) ((ha.told.fresh hacc).2.2 S e he)
      exact halive ⟨h.mentions_gone hpos ha hxs hx he hid hgone, hzero, fun _ => hgone⟩
    · refine ⟨hs, S, e, ?_, hid, hown⟩
      rw [ha.elsewhere k.symbol hsym]
      exact he
  · obtain ⟨hsym, hown⟩ := h.key_eq hpos hx
    have hlive : ¬ (c.symbol < numSymbols → ∀ S, ∀ e ∈ books' c.symbol S, e.id ≠ c.orderId) :=
      fun hall => halive ⟨hxs.self, hzero, hall⟩
    push Not at hlive
    obtain ⟨hs, S, e, he, hid⟩ := hlive
    rw [Rests, hsym, hown]
    refine ⟨hs, S, e, he, hid, ?_⟩
    rcases ha.told.source S e he with ⟨e₀, he₀, hid₀, -⟩ | ⟨-, howner, -⟩
    · exact absurd (hid₀.trans hid) (hnone c.symbol hs S e₀ he₀)
    · exact howner

theorem Pending.handled : Tracks first numSymbols (retireDead desk g' c.symbol ids xs) books' := by
  obtain ⟨hinv, hnext, hrev⟩ := retireDead_spec desk g' c.symbol h.inverse xs
  have hsub : ∀ x k, (retireDead desk g' c.symbol ids xs).rev x = some k →
      ids.rev x = some k ∧ ¬ (x ∈ xs ∧ Dead desk g' c.symbol x) := by
    intro x k hx
    rw [hrev] at hx
    split at hx
    · cases hx
    · rename_i halive
      exact ⟨hx, halive⟩
  refine ⟨hinv, by rw [hnext]; exact h.floor, ?_, ?_, ?_⟩
  · intro x k hx
    rw [hnext]
    exact h.below x k (hsub x k hx).1
  · intro x k hx
    exact h.rests_after hpos hholds hholds' ha hxs (hsub x k hx).1 (hsub x k hx).2
  · intro s hs S e he
    by_cases hsym : s = c.symbol
    · subst hsym
      have halive : ¬ (e.id ∈ xs ∧ Dead desk g' c.symbol e.id) := by
        rintro ⟨-, hdead⟩
        exact ((dead_iff hholds' c.symbol e.id).mp hdead).2 hs S e he rfl
      rw [hrev, if_neg halive]
      rcases ha.told.source S e he with ⟨e₀, he₀, hid₀, -⟩ | ⟨hid, -, hacc⟩
      · rw [← hid₀]
        exact h.known c.symbol hs S e₀ he₀
      · obtain ⟨k, hk, hsym, -⟩ := h.names.resolve_left (ha.told.fresh hacc).2.1
        rw [hid]
        exact .inr ⟨k, hk, hsym⟩
    · rw [ha.elsewhere s hsym] at he
      refine (h.known s hs S e he).imp_right ?_
      rintro ⟨k, hk, hks⟩
      refine ⟨k, ?_, hks⟩
      rw [hrev, if_neg]
      · exact hk
      · rintro ⟨hmem, -⟩
        exact hsym (hks.symm.trans (h.mentioned hpos ha hxs hk hmem))

end Handled

end Live

theorem foldl_onEvent_mentioned {k : Sink} (ht : k.translate = true)
    (events : List Event) (w : Written) :
    (events.foldl k.onEvent w).mentioned = w.mentioned ++ events.flatMap k.mentions := by
  induction events generalizing w with
  | nil => simp
  | cons e events ih =>
      have hone : (k.onEvent w e).mentioned = w.mentioned ++ k.mentions e := by
        simp only [Sink.onEvent, ht, not_true_eq_false, if_false]
        split <;> rfl
      rw [List.foldl_cons, ih, hone, List.flatMap_cons, List.append_assoc]

theorem mentions_of_sink {k : Sink} {c : Command} (hk : k.exchangeId = c.orderId)
    (events : List Event) :
    Mentions c events (events.flatMap k.mentions ++ [c.orderId]) := by
  constructor
  · simp
  · intro ev hev hne
    refine List.mem_append_left _ (List.mem_flatMap.mpr ⟨ev, hev, List.mem_append_left _ ?_⟩)
    rw [hk, if_pos hne]
    exact List.mem_singleton_self _
  · intro ev hev hne
    refine List.mem_append_left _ (List.mem_flatMap.mpr ⟨ev, hev, List.mem_append_right _ ?_⟩)
    rw [if_pos hne]
    exact List.mem_singleton_self _
  · intro x hx
    rcases List.mem_append.mp hx with hx | hx
    · right
      obtain ⟨ev, hev, hx⟩ := List.mem_flatMap.mp hx
      refine ⟨ev, hev, ?_⟩
      rw [Sink.mentions, hk] at hx
      rcases List.mem_append.mp hx with hx | hx
      · split at hx
        · rename_i hne
          obtain rfl := List.mem_singleton.mp hx
          exact .inl ⟨rfl, hne⟩
        · exact absurd hx List.not_mem_nil
      · split at hx
        · rename_i hne
          obtain rfl := List.mem_singleton.mp hx
          exact .inr ⟨rfl, hne⟩
        · exact absurd hx List.not_mem_nil
    · exact .inl (List.mem_singleton.mp hx)

theorem deliver_ids {G : Type} {cfg : GatewayConfig} (trust : cfg.trustClientIds = false)
    (desk : Desk G) (s : State G) (fd : Fd) (clientSeq : UInt64) (clientId : OrderId) (c : Command)
    (g : G) (events : List Event) :
    ∃ xs, Mentions c events xs ∧
      (deliver cfg desk s fd clientSeq clientId c g events).core.ids =
      retireDead desk g c.symbol s.core.ids xs := by
  refine ⟨_, mentions_of_sink (k := sinkOf cfg s fd clientSeq clientId c) rfl events, ?_⟩
  have ht : (sinkOf cfg s fd clientSeq clientId c).translate = true := by simp [sinkOf, trust]
  simp only [deliver, State.emit, trust, Bool.false_eq_true, if_false, foldl_onEvent_mentioned ht,
    List.nil_append]

/-! ### Sessions -/

structure Roster where
  count : Nat := 0
  seat : Fd → Option Nat := fun _ => none
  entered : OrderId → Option Nat := fun _ => none

def Roster.step (r : Roster) : Action → Roster
  | .accept fd _ =>
      { r with
        count := r.count + 1
        seat := if (r.seat fd).isSome then r.seat else Function.update r.seat fd (some r.count) }
  | .close fd => { r with seat := Function.update r.seat fd none }
  | .closeAll => { r with seat := fun _ => none }
  | .process fd c events =>
      if events.head?.map Event.type = some .accepted then
        { r with entered := Function.update r.entered c.orderId (r.seat fd) }
      else r
  | _ => r

def roster (log : List Action) : Roster := log.foldl Roster.step {}

theorem roster_append (log more : List Action) : roster (log ++ more) = more.foldl Roster.step
    (roster log) := List.foldl_append

structure Seated (nextOwner : OwnerId) (t : Seats) (r : Roster) : Prop where
  owner : ∀ fd, t.owner fd = (r.seat fd).map fun n => nextOwner + UInt32.ofNat n
  next : t.next = nextOwner + UInt32.ofNat r.count
  below : ∀ fd, ∀ n ∈ r.seat fd, n < r.count

theorem Seated.step {nextOwner : OwnerId} {t : Seats} {r : Roster}
    (h : Seated nextOwner t r) (a : Action) :
    Seated nextOwner (t.step a) (r.step a) := by
  have hleft :
    ∀ fd, (if (t.owner fd).isSome then t.owner else Function.update t.owner fd (some t.next)) =
      fun f => ((if (r.seat fd).isSome then r.seat else Function.update r.seat fd (some r.count))
        f).map
        fun n => nextOwner + UInt32.ofNat n := by
    intro fd
    ext1 f
    rw [h.owner fd, Option.isSome_map]
    split
    · exact h.owner f
    · by_cases hf : f = fd
      · subst hf
        rw [Function.update_self, Function.update_self, h.next]
        rfl
      · rw [Function.update_of_ne hf, Function.update_of_ne hf]
        exact h.owner f
  cases a with
  | accept fd owner =>
      refine ⟨fun f => congrFun (hleft fd) f, ?_, ?_⟩
      · change t.next + 1 = _
        rw [h.next, Roster.step, UInt32.ofNat_add]
        grind
      · intro f n hn
        change n < r.count + 1
        have hn : n ∈ (if (r.seat fd).isSome then r.seat
          else Function.update r.seat fd (some r.count)) f := hn
        split at hn
        · exact Nat.lt_succ_of_lt (h.below f n hn)
        · by_cases hf : f = fd
          · subst hf
            rw [Function.update_self] at hn
            obtain rfl := Option.some.inj hn
            exact Nat.lt_succ_self _
          · rw [Function.update_of_ne hf] at hn
            exact Nat.lt_succ_of_lt (h.below f n hn)
  | close fd =>
      have hstep : (t.step (.close fd)).owner = Function.update t.owner fd none ∧
          (t.step (.close fd)).next = t.next := by
        simp only [Seats.step]
        cases ho : t.owner fd with
        | none => exact ⟨(Function.update_eq_self_iff.mpr ho.symm).symm, rfl⟩
        | some o => exact ⟨rfl, rfl⟩
      refine ⟨fun f => ?_, hstep.2.trans h.next, fun f n hn => ?_⟩
      · rw [hstep.1]
        change _ = (Function.update r.seat fd none f).map _
        by_cases hf : f = fd
        · subst hf
          rw [Function.update_self, Function.update_self]
          rfl
        · rw [Function.update_of_ne hf, Function.update_of_ne hf]
          exact h.owner f
      · have hn : n ∈ Function.update r.seat fd none f := hn
        by_cases hf : f = fd
        · subst hf
          rw [Function.update_self] at hn
          cases hn
        · rw [Function.update_of_ne hf] at hn
          exact h.below f n hn
  | closeAll => exact ⟨fun f => rfl, h.next, fun f n hn => (by cases hn)⟩
  | process fd c events =>
      simp only [Roster.step]
      split
      · exact ⟨h.owner, h.next, h.below⟩
      · exact h
  | poll | append | flush | commit | datagram | send | halt | replicaLost | marketData => exact h

theorem seated_log (nextOwner : OwnerId) (log : List Action) :
    Seated nextOwner (Seats.after ⟨fun _ => none, fun _ => none, nextOwner⟩ log) (roster log) := by
  have hrun : ∀ t r, Seated nextOwner t r → Seated nextOwner (Seats.after t log)
      (log.foldl Roster.step r) := by
    induction log with
    | nil => exact fun t r h => h
    | cons a log ih => exact fun t r h => ih _ _ (h.step a)
  refine hrun _ {} ⟨fun _ => rfl, ?_, fun fd n hn => (by cases hn)⟩
  simp

theorem roster_quiet (log : List Action) {acts : List Action}
    (h : ∀ fd c events, .process fd c events ∉ acts) :
    (roster (log ++ acts)).entered = (roster log).entered ∧
    (roster log).count ≤ (roster (log ++ acts)).count := by
  rw [roster_append]
  generalize roster log = r
  induction acts generalizing r with
  | nil => exact ⟨rfl, Nat.le_refl _⟩
  | cons a acts ih =>
      have hone : (r.step a).entered = r.entered ∧ r.count ≤ (r.step a).count := by
        cases a with
        | process fd c events => exact absurd List.mem_cons_self (h fd c events)
        | accept fd owner => exact ⟨rfl, Nat.le_succ _⟩
        | close | closeAll | poll | append | flush | commit | datagram | send | halt |
            replicaLost | marketData =>
            exact ⟨rfl, Nat.le_refl _⟩
      obtain ⟨hentered, hcount⟩ :=
        ih (fun fd c events hmem => h fd c events (List.mem_cons_of_mem a hmem)) (r.step a)
      exact ⟨hentered.trans hone.1, Nat.le_trans hone.2 hcount⟩

theorem untold_quiet {acts : List Action} (h : ∀ a ∈ acts, a.told = false) : ∀ fd c events,
    .process fd c events ∉ acts := by
  intro fd c events hmem
  cases h _ hmem

/-- The order comes from a session of the log, or it was there before. -/
def EnteredBy (first : OrderId) (nextOwner : OwnerId) (r : Roster) (id : OrderId)
    (owner : OwnerId) : Prop :=
  match r.entered id with
  | none => id < first ∧ owner < nextOwner
  | some n => n < r.count ∧ owner = nextOwner + UInt32.ofNat n

theorem EnteredBy.mono {first : OrderId} {nextOwner : OwnerId} {r r' : Roster} {id : OrderId}
    {owner : OwnerId} (h : EnteredBy first nextOwner r id owner)
    (hentered : r'.entered id = r.entered id) (hcount : r.count ≤ r'.count) :
    EnteredBy first nextOwner r' id owner := by
  rw [EnteredBy] at h ⊢
  rw [hentered]
  cases hr : r.entered id with
  | none =>
      rw [hr] at h
      exact h
  | some n =>
      rw [hr] at h
      exact ⟨Nat.lt_of_lt_of_le h.1 hcount, h.2⟩

theorem sender_of_none {G : Type} {s : State G} (hnone : s.pc.command? = none) :
    ∀ fd off clientSeq clientId c rest,
    s.pc = .logged fd off clientSeq clientId c rest → s.seats.owner fd = some c.owner := by
  intro fd off clientSeq clientId c rest hpc
  rw [hpc] at hnone
  cases hnone

section Runs

variable {σ : Type} [StoreLayout σ] {cfg : GatewayConfig} {numSymbols : UInt32}
    {bookCfg : BookConfig} {risk : RiskConfig}
  {first : OrderId} {nextOwner : OwnerId} {s s' : State (RiskGate (OrderBook σ))}

structure Tracked (numSymbols : UInt32) (bookCfg : BookConfig) (risk : RiskConfig) (first : OrderId)
    (nextOwner : OwnerId) (s : State (RiskGate (OrderBook σ))) : Prop where
  seats : s.seats = Seats.after ⟨fun _ => none, fun _ => none, nextOwner⟩ s.log
  sender : ∀ fd off clientSeq clientId c rest, s.pc = .logged fd off clientSeq clientId c rest →
    s.seats.owner fd = some c.owner
  books : ∃ books, s.core.gate.Holds numSymbols bookCfg risk books ∧ Nonzero numSymbols books ∧
    (∀ symbol, symbol < numSymbols → ∀ S, ∀ e ∈ books symbol S,
      EnteredBy first nextOwner (roster s.log) e.id e.owner) ∧
    (∀ c, s.pc.command? = some c → Pending first numSymbols s.core.ids books c) ∧
    (s.pc.command? = none →
      s.repl.journalFailed = true ∨ s.pc = .crashed ∨ Tracks first numSymbols s.core.ids books)

theorem Tracked.seated (h : Tracked numSymbols bookCfg risk first nextOwner s) :
    Seated nextOwner s.seats (roster s.log) := by
  rw [h.seats]
  exact seated_log nextOwner s.log

theorem Tracked.logs (h : Tracked numSymbols bookCfg risk first nextOwner s) {acts : List Action}
    (hlogs : Logs s s' acts) :
    s'.seats = Seats.after ⟨fun _ => none, fun _ => none, nextOwner⟩ s'.log := by
  rw [hlogs.1, hlogs.2, Seats.after_append, h.seats]

theorem Tracked.keep (h : Tracked numSymbols bookCfg risk first nextOwner s) {acts : List Action}
    (hlogs : Logs s s' acts) (hacts : ∀ fd c events, .process fd c events ∉ acts)
    (hgate : s'.core.gate = s.core.gate) (hnone : s'.pc.command? = none)
    (htracks : s'.repl.journalFailed = true ∨ s'.pc = .crashed ∨
      (s.pc.command? = none ∧ s.pc ≠ .crashed ∧
      s.repl.journalFailed = false ∧ s'.core.ids = s.core.ids)) :
    Tracked numSymbols bookCfg risk first nextOwner s' := by
  obtain ⟨books, hholds, hzero, hentered, -, hmap⟩ := h.books
  obtain ⟨hsame, hcount⟩ := roster_quiet s.log hacts
  refine ⟨h.logs hlogs, sender_of_none hnone, books, by rw [hgate]; exact hholds, hzero, ?_,
    ?_, fun _ => ?_⟩
  · intro symbol hs S e he
    rw [hlogs.1]
    exact (hentered symbol hs S e he).mono (congrFun hsame e.id) hcount
  · intro c hc
    rw [hnone] at hc
    cases hc
  · refine htracks.imp_right (Or.imp_right ?_)
    rintro ⟨hcmd, hcrash, hok, hids⟩
    rw [hids]
    refine ((hmap hcmd).resolve_left ?_).resolve_left hcrash
    rw [hok]
    simp

theorem Tracked.idle (h : Tracked numSymbols bookCfg risk first nextOwner s) (hidle : Idle s s')
    (hcmd : s.pc.command? = none) (hcrash : s.pc ≠ .crashed) (hnone : s'.pc.command? = none) :
    Tracked numSymbols bookCfg risk first nextOwner s' := by
  obtain ⟨acts, hlogs, hacts⟩ := hidle.log
  refine h.keep hlogs (untold_quiet hacts) (congrArg Core.gate hidle.core) hnone ?_
  by_cases hf : s.repl.journalFailed = true
  · exact .inl (hidle.failed hf)
  · exact .inr (.inr ⟨hcmd, hcrash, Bool.eq_false_iff.mpr hf, congrArg Core.ids hidle.core⟩)

theorem Tracked.publish (h : Tracked numSymbols bookCfg risk first nextOwner s)
    {desk : Desk (RiskGate (OrderBook σ))} (hpub : Publication cfg desk s s')
    (hcmd : s.pc.command? = none) (hcrash : s.pc ≠ .crashed) (hnone : s'.pc.command? = none) :
    Tracked numSymbols bookCfg risk first nextOwner s' := by
  obtain ⟨before, after, hlogs, hbefore, hafter⟩ := hpub.log
  refine h.keep hlogs ?_ (congrArg Core.gate hpub.core) hnone ?_
  · intro fd c events hmem
    rcases List.mem_append.mp hmem with hmem | hmem
    · exact untold_quiet hbefore fd c events hmem
    · rcases List.mem_cons.mp hmem with heq | hmem
      · cases heq
      · exact untold_quiet hafter fd c events hmem
  · by_cases hf : s.repl.journalFailed = true
    · exact .inl (hpub.failed hf)
    · exact .inr (.inr ⟨hcmd, hcrash, Bool.eq_false_iff.mpr hf, congrArg Core.ids hpub.core⟩)

theorem Tracked.stamp (h : Tracked numSymbols bookCfg risk first nextOwner s)
    (trust : cfg.trustClientIds = false) (hcmd : s.pc.command? = none) (hcrash : s.pc ≠ .crashed)
    {fd : Fd} {cn : Conn} (hcn : s.sessions.conns fd = some cn) (off : Nat) (c : Command)
    (rest : List Ready) (i : Input)
    (hnext : (stamp cfg s fd cn.owner off c rest i).core.ids.next ≠ 0) :
    Tracked numSymbols bookCfg risk first nextOwner (stamp cfg s fd cn.owner off c rest i) := by
  obtain ⟨hcore, hcase⟩ := stamp_cases cfg s fd cn.owner off c rest i
  rcases hcase with ⟨hfailed, hnone, acts, hlogs, hacts⟩ | ⟨hok, hpc, hlogs, -⟩
  · exact h.keep hlogs (untold_quiet hacts) (by rw [hcore]) hnone (.inl hfailed)
  · obtain ⟨books, hholds, hzero, hentered, -, hmap⟩ := h.books
    have htracks : Tracks first numSymbols s.core.ids books := by
      refine ((hmap hcmd).resolve_left ?_).resolve_left hcrash
      rw [hok]
      simp
    refine ⟨h.logs hlogs, ?_, books, by rw [hcore]; exact hholds, hzero, ?_, ?_, ?_⟩
    · intro fd' off' clientSeq clientId c' rest' hpc'
      rw [hpc] at hpc'
      cases hpc'
      rw [hlogs.2]
      change (s.sessions.conns fd).map Conn.owner = _
      rw [hcn]
      rfl
    · intro symbol hs S e he
      rw [hlogs.1]
      exact (hentered symbol hs S e he).mono (congrFun (roster_quiet s.log (by simp)).1 e.id)
        (roster_quiet s.log (by simp)).2
    · intro c' hc'
      rw [hpc] at hc'
      obtain rfl := Option.some.inj hc'
      rw [hcore] at hnext ⊢
      simp only [trust, Bool.false_eq_true, if_false] at hnext ⊢
      exact htracks.translated c _ cn.owner rfl rfl rfl rfl hnext
    · rw [hpc]
      rintro ⟨⟩

theorem process_entered (r : Roster) (fd : Fd) (c : Command) (events : List Event) (x : OrderId) :
    (r.step (.process fd c events)).count = r.count ∧ (r.step (.process fd c events)).entered x =
      if events.head?.map Event.type = some .accepted ∧ x = c.orderId then
        r.seat fd else r.entered x := by
  simp only [Roster.step]
  by_cases hacc : events.head?.map Event.type = some .accepted
  · rw [if_pos hacc]
    refine ⟨rfl, ?_⟩
    by_cases hx : x = c.orderId
    · rw [if_pos ⟨hacc, hx⟩, hx]
      exact Function.update_self ..
    · rw [if_neg fun hand => hx hand.2]
      exact Function.update_of_ne hx ..
  · rw [if_neg hacc, if_neg fun hand => hacc hand.1]
    exact ⟨rfl, rfl⟩

theorem entered_after {books books' : SymbolId → PriorityBook} {ids : ClientIdMap} {c : Command}
    {events : List Event} {r : Roster} {fd : Fd} {n : Nat}
    (hp : Pending first numSymbols ids books c) (ha : Answer numSymbols books books' c events)
    (hseat : r.seat fd = some n) (hn : n < r.count) (howner : c.owner = nextOwner + UInt32.ofNat n)
    (h : ∀ symbol, symbol < numSymbols → ∀ S, ∀ e ∈ books symbol S,
      EnteredBy first nextOwner r e.id e.owner) :
    ∀ symbol, symbol < numSymbols → ∀ S, ∀ e ∈ books' symbol S,
      EnteredBy first nextOwner (r.step (.process fd c events)) e.id e.owner := by
  have hkeep : ∀ id owner, EnteredBy first nextOwner r id owner →
      (events.head?.map Event.type = some .accepted → id ≠ c.orderId) →
      EnteredBy first nextOwner (r.step (.process fd c events)) id owner := by
    intro id owner he hne
    obtain ⟨hcount, hentered⟩ := process_entered r fd c events id
    rw [if_neg fun hand => hne hand.1 hand.2] at hentered
    exact he.mono hentered (Nat.le_of_eq hcount.symm)
  intro symbol hs S e he
  by_cases hsym : symbol = c.symbol
  · subst hsym
    rcases ha.told.source S e he with ⟨e₀, he₀, hid, hown⟩ | ⟨hid, hown, hacc⟩
    · rw [← hid, ← hown]
      exact hkeep _ _ (h c.symbol hs S e₀ he₀) fun hacc => (ha.told.fresh hacc).2.2 S e₀ he₀
    · obtain ⟨hcount, hentered⟩ := process_entered r fd c events e.id
      rw [if_pos ⟨hacc, hid⟩, hseat] at hentered
      rw [EnteredBy, hentered, hcount, hown]
      exact ⟨hn, howner⟩
  · rw [ha.elsewhere symbol hsym] at he
    refine hkeep _ _ (h symbol hs S e he) fun hacc hid => ?_
    obtain ⟨k, hk, hksym, -⟩ := hp.names.resolve_left (ha.told.fresh hacc).2.1
    exact hsym ((hp.symbol_eq hk hs he hid).symm.trans hksym)

theorem Tracked.seat_owner (h : Tracked numSymbols bookCfg risk first nextOwner s) {fd : Fd}
    {owner : OwnerId} (howner : s.seats.owner fd = some owner) :
    ∃ n, (roster s.log).seat fd = some n ∧ n < (roster s.log).count ∧
    owner = nextOwner + UInt32.ofNat n := by
  rw [h.seated.owner fd] at howner
  obtain ⟨n, hn, heq⟩ := Option.map_eq_some_iff.mp howner
  exact ⟨n, hn, h.seated.below fd n hn, heq.symm⟩

/-- A command that the engine gets, with the books before and after it. -/
structure Handled (numSymbols : UInt32) (bookCfg : BookConfig) (risk : RiskConfig) (first : OrderId)
    (nextOwner : OwnerId) (s s' : State (RiskGate (OrderBook σ))) (fd : Fd) (c : Command)
    (events : List Event) (books books' : SymbolId → PriorityBook) : Prop where
  before : s.core.gate.Holds numSymbols bookCfg risk books
  nonzero : Nonzero numSymbols books
  entered : ∀ symbol, symbol < numSymbols → ∀ S, ∀ e ∈ books symbol S, EnteredBy first nextOwner
    (roster s.log) e.id e.owner
  pending : Pending first numSymbols s.core.ids books c
  after : s'.core.gate.Holds numSymbols bookCfg risk books'
  answer : Answer numSymbols books books' c events
  tracks : Tracks first numSymbols s'.core.ids books'
  log : ∃ acts, Logs s s' (.process fd c events :: acts) ∧ ∀ a ∈ acts, a.told = false

theorem Tracked.handled (h : Tracked numSymbols bookCfg risk first nextOwner s)
    (trust : cfg.trustClientIds = false) (ok : bookCfg.Accepted) (hpos : first ≠ 0) {fd : Fd}
    {off : Nat} {clientSeq : UInt64} {clientId : OrderId} {c : Command} {rest : List Ready}
    (hpc : s.pc = .logged fd off clientSeq clientId c rest) (i : Input) :
    ((Gateway.handle cfg desk s fd off clientSeq clientId c rest i).pc = .crashed ∧
      Idle s (Gateway.handle cfg desk s fd off clientSeq clientId c rest i)) ∨
    ∃ events books books', Handled numSymbols bookCfg risk first nextOwner s
      (Gateway.handle cfg desk s fd off clientSeq clientId c rest i) fd c events books books' := by
  obtain ⟨books, hholds, hzero, hentered, hpending, -⟩ := h.books
  have hp := hpending c (by rw [hpc]; rfl)
  refine (handle_cases desk s fd off clientSeq clientId c rest i).imp_right ?_
  rintro ⟨pub, g, events, hrun, hidle⟩
  obtain ⟨books', hholds', ha⟩ := Holds.answer hholds ok hrun
  obtain ⟨xs, hxs, hids⟩ :=
    deliver_ids trust desk { s with repl.pub := pub } fd clientSeq clientId c g events
  obtain ⟨acts, hlogs, hacts⟩ := hidle.log
  have hfirst :
      Logs s (deliver cfg desk { s with repl.pub := pub } fd clientSeq clientId c g events)
        [.process fd c events] :=
    deliver_logs cfg desk { s with repl.pub := pub } fd clientSeq clientId c g events
  have hgate : (Gateway.handle cfg desk s fd off clientSeq clientId c rest i).core.gate = g :=
    congrArg Core.gate hidle.core
  refine ⟨events, books, books', hholds, hzero, hentered,
    hp, by rw [hgate]; exact hholds', ha, ?_, acts,
    hfirst.trans hlogs, hacts⟩
  rw [hidle.core, hids]
  exact hp.handled hpos hholds hholds' ha hxs

theorem Tracked.handle (h : Tracked numSymbols bookCfg risk first nextOwner s)
    (trust : cfg.trustClientIds = false) (ok : bookCfg.Accepted) (hpos : first ≠ 0) {fd : Fd}
    {off : Nat} {clientSeq : UInt64} {clientId : OrderId} {c : Command} {rest : List Ready}
    (hpc : s.pc = .logged fd off clientSeq clientId c rest) (i : Input) :
    Tracked numSymbols bookCfg risk first nextOwner
      (handle cfg desk s fd off clientSeq clientId c rest i) := by
  have hnone : (Gateway.handle cfg desk s fd off clientSeq clientId c rest i).pc.command? = none :=
    handle_command desk s fd off clientSeq clientId c rest i
  rcases h.handled trust ok hpos hpc i with ⟨hcrash, hidle⟩ | ⟨events, books, books', hh⟩
  · obtain ⟨acts, hlogs, hacts⟩ := hidle.log
    exact h.keep hlogs (untold_quiet hacts) (congrArg Core.gate hidle.core) hnone
      (.inr (.inl hcrash))
  · obtain ⟨n, hseat, hn, howner⟩ := h.seat_owner (h.sender _ _ _ _ _ _ hpc)
    obtain ⟨acts, hlogs, hacts⟩ := hh.log
    refine ⟨h.logs hlogs, sender_of_none hnone, books', hh.after,
      hh.nonzero.answer hh.answer, ?_, ?_, fun _ => .inr (.inr hh.tracks)⟩
    · intro symbol hs S e he
      have hafter := entered_after hh.pending hh.answer hseat hn howner hh.entered symbol hs S e he
      rw [hlogs.1, List.append_cons]
      rw [show (roster s.log).step (.process fd c events) =
        roster (s.log ++ [.process fd c events]) from
        (roster_append s.log [.process fd c events]).symm] at hafter
      exact hafter.mono (congrFun (roster_quiet _ (untold_quiet hacts)).1 e.id)
        (roster_quiet _ (untold_quiet hacts)).2
    · intro c' hc'
      rw [hnone] at hc'
      cases hc'

theorem Tracked.step (h : Tracked numSymbols bookCfg risk first nextOwner s)
    (trust : cfg.trustClientIds = false) (ok : bookCfg.Accepted) (hpos : first ≠ 0) (i : Input)
    (hnext : (step cfg desk s i).core.ids.next ≠ 0) :
    Tracked numSymbols bookCfg risk first nextOwner (step cfg desk s i) := by
  by_cases hcrash : s.pc = .crashed
  · have hsame : Gateway.step cfg desk s i = s := by rw [Gateway.step, hcrash]
    rw [hsame]
    exact h
  cases hcmd : s.pc.command? with
  | some c =>
      have hlogged : ∃ fd off clientSeq clientId rest,
          s.pc = .logged fd off clientSeq clientId c rest := by
        cases hpc : s.pc with
        | logged fd off clientSeq clientId c' rest =>
            rw [hpc] at hcmd
            obtain rfl := Option.some.inj hcmd
            exact ⟨fd, off, clientSeq, clientId, rest, rfl⟩
        | _ =>
            rw [hpc] at hcmd
            cases hcmd
      obtain ⟨fd, off, clientSeq, clientId, rest, hpc⟩ := hlogged
      have hstep :
          Gateway.step cfg desk s i = Gateway.handle cfg desk s fd off clientSeq
            clientId c rest i := by
        rw [Gateway.step, hpc]
      rw [hstep]
      exact h.handle trust ok hpos hpc i
  | none =>
      have hstamp : ∀ fd off rest cn cmd n, s.sessions.conns fd = some cn →
          Gateway.step cfg desk s i = Gateway.stamp cfg s fd cn.owner (off + n) cmd rest i →
          Tracked numSymbols bookCfg risk first nextOwner (Gateway.step cfg desk s i) := by
        intro fd off rest cn cmd n hcn heq
        rw [heq] at hnext ⊢
        exact h.stamp trust hcmd hcrash hcn (off + n) cmd rest i hnext
      rcases (step_command desk s i : (Gateway.step cfg desk s i).pc.command? = none ∨ _) with
        hnone | ⟨fd, off, rest, cn, cmd, n, -, hcn, -, heq⟩
      · rcases (step_cases desk s i : Idle s (Gateway.step cfg desk s i) ∨ _) with
          hidle | ⟨fd, off, rest, cn, cmd, n, -, hcn, -, heq⟩ |
            ⟨fd, off, clientSeq, clientId, c, rest, hpc, -⟩ | ⟨-, hpub⟩
        · exact h.idle hidle hcmd hcrash hnone
        · exact hstamp fd off rest cn cmd n hcn heq
        · rw [hpc] at hcmd
          cases hcmd
        · exact h.publish hpub hcmd hcrash hnone
      · exact hstamp fd off rest cn cmd n hcn heq

theorem Tracked.run (h : Tracked numSymbols bookCfg risk first nextOwner s)
    (trust : cfg.trustClientIds = false) (ok : bookCfg.Accepted) (hpos : first ≠ 0)
    (is : List Input) (hnext : ∀ pre, pre <+: is → (run cfg desk s pre).core.ids.next ≠ 0) :
    Tracked numSymbols bookCfg risk first nextOwner (run cfg desk s is) := by
  induction is generalizing s with
  | nil => exact h
  | cons i is ih =>
      have hone : (Gateway.step cfg desk s i).core.ids.next ≠ 0 :=
        hnext [i] (List.cons_prefix_cons.mpr ⟨rfl, List.nil_prefix⟩)
      refine ih (h.step trust ok hpos i hone) ?_
      intro pre hpre
      exact hnext (i :: pre) (List.cons_prefix_cons.mpr ⟨rfl, hpre⟩)

/-! ### What the map means -/

structure Exact (first : OrderId) (ids : ClientIdMap) (g : RiskGate (OrderBook σ)) : Prop where
  inverse : ∀ k x, ids.fwd k = some x ↔ ids.rev x = some k
  live : ∀ x, (ids.rev x).isSome ↔ first ≤ x ∧ ∃ symbol, (resting g symbol x).isSome
  key : ∀ x k, ids.rev x = some k → ∀ symbol v, resting g symbol x = some v →
    k.symbol = symbol ∧ k.owner = v.owner

theorem Tracks.exact {books : SymbolId → PriorityBook} {ids : ClientIdMap}
    {g : RiskGate (OrderBook σ)} (h : Tracks first numSymbols ids books)
    (hholds : g.Holds numSymbols bookCfg risk books) : Exact first ids g := by
  have hfound : ∀ symbol x v, resting g symbol x = some v → first ≤ x → ∃ k, ids.rev x = some k ∧
      k.symbol = symbol := by
    intro symbol x v hv hge
    obtain ⟨hs, e, he, hid, -⟩ := mem_of_resting hholds hv
    rw [← hid] at hge ⊢
    exact (h.known symbol hs _ e he).resolve_left fun hlt => absurd hge (UInt64.not_le.mpr hlt)
  constructor
  · exact h.inverse
  · intro x
    constructor
    · intro hx
      obtain ⟨k, hk⟩ := Option.isSome_iff_exists.mp hx
      obtain ⟨hs, S, e, he, hid, -⟩ := h.rests x k hk
      refine ⟨(h.below x k hk).1, k.symbol, ?_⟩
      rw [← hid, resting_mem hholds hs he]
      rfl
    · rintro ⟨hge, symbol, hv⟩
      obtain ⟨v, hv⟩ := Option.isSome_iff_exists.mp hv
      obtain ⟨k, hk, -⟩ := hfound symbol x v hv hge
      rw [hk]
      rfl
  · intro x k hk symbol v hv
    obtain ⟨k', hk', hsym⟩ := hfound symbol x v hv (h.below x k hk).1
    obtain rfl := Option.some.inj (hk.symm.trans hk')
    obtain ⟨hs, S, e, he, hid, hown⟩ := h.rests x k hk
    rw [hsym] at hs he
    rw [← hid, resting_mem hholds hs he] at hv
    refine ⟨hsym, ?_⟩
    rw [← Option.some.inj hv]
    exact hown.symm

/-- A command passes an order by: no event is about it but trades, which alone take from it, and it
stays where it is. -/
structure Spared (g' : RiskGate (OrderBook σ)) (events : List Event) (symbol : SymbolId)
    (x : OrderId) (v : OrderView) :
    Prop where
  unnamed : ∀ ev ∈ events, ev.symbol = symbol → ev.orderId ≠ x
  kept : resting g' symbol x = some v ∨ ∃ ev ∈ events, ev.symbol = symbol ∧
    ev.type = .trade ∧ ev.makerId = x
  stays : ∀ v', resting g' symbol x = some v' → v'.price = v.price ∧ v'.side = v.side ∧
    v'.owner = v.owner

/-- All orders but one keep their places in the queues. -/
def InPlace (g g' : RiskGate (OrderBook σ)) (x : OrderId) : Prop :=
  ∀ symbol, symbol < g.engine.numSymbols → ∃ before after,
    (g.engine.book symbol).listing = some before ∧
    (g'.engine.book symbol).listing = some after ∧
    ∀ S, (((after S).filter fun o => o.2.1 ≠ x).map fun o => (o.1, o.2.1)).Sublist
      ((before S).map fun o => (o.1, o.2.1))

variable {books books' : SymbolId → PriorityBook} {fd : Fd} {c : Command} {events : List Event}

theorem Handled.inPlace (hh : Handled numSymbols bookCfg risk first nextOwner s s' fd c
    events books books') :
    InPlace s.core.gate s'.core.gate c.orderId := by
  intro symbol hs
  rw [hh.before.engine.known] at hs
  refine ⟨_, _, (hh.before.engine.book symbol hs).listing,
    (hh.after.engine.book symbol hs).listing, fun S => ?_⟩
  have hkeys : (((books' symbol S).filter fun e => e.id ≠ c.orderId).map PriorityBook.key).Sublist
      ((books symbol S).map PriorityBook.key) := by
    by_cases hsym : symbol = c.symbol
    · rw [hsym]
      exact hh.answer.places S
    · rw [hh.answer.elsewhere symbol hsym]
      exact List.filter_sublist.map _
  have hshown := hkeys.map fun k : Nat × OrderId => (Rules.priceOf ⟨symbol, bookCfg⟩ k.1, k.2)
  rw [List.map_map, List.map_map] at hshown
  simp only [Book.PriorityBook.listing, List.filter_map, List.map_map]
  exact hshown

theorem Handled.own (hh : Handled numSymbols bookCfg risk first nextOwner s s' fd c
    events books books')
    (hty : c.type ≠ .newOrder) {symbol : SymbolId} (hs : symbol < numSymbols)
    {S : Side} {e : Resting} (he : e ∈ books symbol S) (hid : e.id = c.orderId) :
    symbol = c.symbol ∧ e.owner = c.owner := by
  obtain ⟨k, hk, hksym, hkown⟩ := hh.pending.names.resolve_left fun hzero =>
    hh.nonzero symbol hs S e he (hid.trans hzero)
  have hsym := hh.pending.symbol_eq hk hs he hid
  refine ⟨hsym.symm.trans hksym, ?_⟩
  obtain ⟨-, T, e', he', hid', hown'⟩ :=
    (hh.pending.rests _ k hk).resolve_right fun hx => hty hx.2.1
  rw [hsym] at he'
  obtain ⟨-, rfl⟩ := (hh.before.engine.book symbol hs).ok.ids.unique he he' (hid.trans hid'.symm)
  exact hown'.trans hkown

theorem Handled.spares (hh : Handled numSymbols bookCfg risk first nextOwner s s' fd c
    events books books')
    (hty : c.type ≠ .newOrder) {symbol : SymbolId} {x : OrderId} {v : OrderView}
    (hv : resting s.core.gate symbol x = some v) (hother : v.owner ≠ c.owner) :
    Spared s'.core.gate events symbol x v := by
  obtain ⟨hs, e, he, hid, hview⟩ := mem_of_resting hh.before hv
  have howner : e.owner ≠ c.owner := by
    rw [hview] at hother
    exact hother
  have hunique : ∀ {S : Side} {e' : Resting}, e' ∈ books symbol S → e'.id = x →
      S = v.side ∧ e' = e :=
    fun he' hid' => (hh.before.engine.book symbol hs).ok.ids.unique he' he (hid'.trans hid.symm)
  have hne : x ≠ c.orderId := fun heq => howner (hh.own hty hs he (hid.trans heq)).2
  -- the order that goes through the book is the sender's
  have htaker : PriorityBook.takerOwner (books symbol) c = c.owner := by
    rw [PriorityBook.takerOwner]
    cases hlook : PriorityBook.lookup (books symbol) c.orderId with
    | none => rfl
    | some p =>
        obtain ⟨hp, hpid⟩ := PriorityBook.lookup_mem hlook
        exact (hh.own hty hs hp hpid).2
  constructor
  · intro ev hev hsym horder
    rw [hh.answer.symbol ev hev] at hsym
    subst hsym
    obtain ⟨U, ⟨hev', -⟩ | ⟨-, e', he', hid', hown'⟩⟩ := hh.answer.told.speaks ev hev
    · exact hne (horder.symm.trans hev')
    · obtain ⟨-, rfl⟩ := hunique he' (hid'.trans horder)
      exact howner (hown'.trans htaker)
  · by_cases hsym : symbol = c.symbol
    · subst hsym
      rcases hh.answer.told.tells v.side e he (hid ▸ hne) with hkept |
        ⟨ev, hev, ⟨htrade, hmaker⟩ | ⟨-, hown⟩⟩
      · left
        rw [← hid, resting_mem hh.after hs hkept, ← hview]
      · exact .inr ⟨ev, hev, hh.answer.symbol ev hev, htrade, hmaker.trans hid⟩
      · exact absurd (hown.trans htaker) howner
    · left
      have hkept : e ∈ books' symbol v.side := by
        rw [hh.answer.elsewhere symbol hsym]
        exact he
      rw [← hid, resting_mem hh.after hs hkept, ← hview]
  · intro v' hv'
    obtain ⟨-, e', he', hid', hview'⟩ := mem_of_resting hh.after hv'
    have hback : ∃ e₀ ∈ books symbol v'.side, e₀.level = e'.level ∧ e₀.id = x ∧
        e₀.owner = e'.owner := by
      by_cases hsym : symbol = c.symbol
      · subst hsym
        have hkey : PriorityBook.key e' ∈ (books c.symbol v'.side).map PriorityBook.key := by
          refine (hh.answer.places v'.side).subset
            (List.mem_map_of_mem (List.mem_filter.mpr ⟨he', ?_⟩))
          simpa [hid'] using hne
        obtain ⟨e₀, he₀, heq⟩ := List.mem_map.mp hkey
        obtain ⟨hlevel, hid₀⟩ := Prod.mk.inj heq
        refine ⟨e₀, he₀, hlevel, hid₀.trans hid', ?_⟩
        rcases hh.answer.told.source v'.side e' he' with ⟨e₁, he₁, hid₁, hown₁⟩ | ⟨hnew, -, -⟩
        · obtain ⟨-, rfl⟩ := (hh.before.engine.book c.symbol hs).ok.ids.unique he₁ he₀
            (hid₁.trans hid₀.symm)
          exact hown₁
        · exact absurd (hid'.symm.trans hnew) hne
      · rw [hh.answer.elsewhere symbol hsym] at he'
        exact ⟨e', he', rfl, hid', rfl⟩
    obtain ⟨e₀, he₀, hlevel, hid₀, hown₀⟩ := hback
    obtain ⟨hside, rfl⟩ := hunique he₀ hid₀
    rw [hview', hview]
    exact ⟨by rw [hlevel], hside, hown₀.symm⟩

/-- Orders of different sessions have different owners as long as no owner has been handed out
twice. -/
theorem EnteredBy.owner_ne {r : Roster} {x : OrderId} {owner : OwnerId} {n : Nat}
    (h : EnteredBy first nextOwner r x owner) (hn : n < r.count)
    (hcount : nextOwner.toNat + r.count ≤ 2 ^ 32) (hne : r.entered x ≠ some n) :
    owner ≠ nextOwner + UInt32.ofNat n := by
  have hnth : ∀ m, m < r.count → (nextOwner + UInt32.ofNat m).toNat = nextOwner.toNat + m := by
    intro m hm
    rw [UInt32.toNat_add, UInt32.toNat_ofNat', Nat.mod_eq_of_lt (show m < 2 ^ 32 by omega)]
    exact Nat.mod_eq_of_lt (by omega)
  intro heq
  have hval := congrArg UInt32.toNat heq
  rw [hnth n hn] at hval
  rw [EnteredBy] at h
  cases hr : r.entered x with
  | none =>
      rw [hr] at h
      have hlt := UInt32.lt_iff_toNat_lt.mp h.2
      omega
  | some m =>
      rw [hr] at h
      rw [h.2, hnth m h.1] at hval
      apply hne
      rw [hr]
      congr 1
      omega

/-- After every command that is handled the map is exact, as long as its counter has not wrapped;
and a cancel or a modify passes by every order that another session entered, as long as no owner has
been handed out twice. -/
theorem id_map_tracks_live_orders (cfg : GatewayConfig) (trust : cfg.trustClientIds = false)
    (hash : IndexHash) (numSymbols : UInt32) (bookCfg : BookConfig) (ok : bookCfg.Accepted)
    (risk : RiskConfig) (calls : List Engine.GateCall) (gate : RiskGate (OrderBook σ))
    (events : List Event) (reached :
      (RiskGate.make (MatchingEngine.make hash numSymbols bookCfg) risk).run calls =
      some (gate, events))
    (journal : Journal.JournalWriter) (pub : Option Stream.Publisher)
    (digest : List Event) (seq : UInt64) (nextOwner : OwnerId) (first : OrderId)
    (positive : first ≠ 0) (unused : ∀ symbol x v, resting gate symbol x = some v → x < first ∧
      v.owner < nextOwner) (is : List Input)
    (unwrapped : ∀ pre, pre <+: is →
      (run cfg desk (start gate journal pub digest seq nextOwner first) pre).core.ids.next ≠ 0)
    (fd : Fd) (off : Nat) (clientSeq : UInt64) (clientId : OrderId) (c : Command)
    (rest : List Ready) (i : Input) :
    let s := run cfg desk (start gate journal pub digest seq nextOwner first) is
    let s' := step cfg desk s i
    s.pc = .logged fd off clientSeq clientId c rest → s'.pc ≠ .crashed →
      Exact first s'.core.ids s'.core.gate ∧
      (c.type ≠ .newOrder → nextOwner.toNat + (roster s.log).count ≤ 2 ^ 32 →
        InPlace s.core.gate s'.core.gate c.orderId ∧
        ∃ n answer more, (roster s.log).seat fd = some n ∧
        s'.log = s.log ++ .process fd c answer :: more ∧
          ∀ symbol x v, resting s.core.gate symbol x = some v → (roster s.log).entered x ≠ some n →
            Spared s'.core.gate answer symbol x v) := by
  intro s s' hpc hgo
  obtain ⟨books, hholds, hzero⟩ := reached_holds hash numSymbols ok risk reached
  have hstart : Tracked numSymbols bookCfg risk first nextOwner
      (start gate journal pub digest seq nextOwner first) := by
    have hold : ∀ symbol, symbol < numSymbols → ∀ S, ∀ e ∈ books symbol S, e.id < first ∧
        e.owner < nextOwner :=
      fun symbol hs S e he => unused symbol e.id _ (resting_mem hholds hs he)
    refine ⟨rfl, by rintro _ _ _ _ _ _ ⟨⟩, books, hholds, hzero, hold, by rintro _ ⟨⟩,
      fun _ => .inr (.inr ?_)⟩
    refine ⟨ClientIdMap.inverse_make first,
      UInt64.le_refl _, by rintro _ _ ⟨⟩, by rintro _ _ ⟨⟩, ?_⟩
    exact fun symbol hs S e he => .inl (hold symbol hs S e he).1
  have htracked : Tracked numSymbols bookCfg risk first nextOwner s :=
    hstart.run trust ok positive is unwrapped
  have hstep : s' = handle cfg desk s fd off clientSeq clientId c rest i := by
    simp only [s', step, hpc]
  rw [hstep] at hgo ⊢
  obtain ⟨answer, books, books', hh⟩ :=
    (htracked.handled trust ok positive hpc i).resolve_left fun hx => hgo hx.1
  refine ⟨hh.tracks.exact hh.after, fun hty hcount => ⟨hh.inPlace, ?_⟩⟩
  obtain ⟨n, hseat, hn, howner⟩ := htracked.seat_owner (htracked.sender _ _ _ _ _ _ hpc)
  obtain ⟨acts, hlogs, -⟩ := hh.log
  refine ⟨n, answer, acts, hseat, hlogs.1, fun symbol x v hv hne => hh.spares hty hv ?_⟩
  obtain ⟨hs, e, he, hid, hview⟩ := mem_of_resting hh.before hv
  have hby := hh.entered symbol hs _ e he
  rw [hid] at hby
  rw [hview, howner]
  exact hby.owner_ne hn hcount hne

end Runs

/-- Session 3 enters an order, and session 4 cancels an order of its own by the same client id. -/
def sameClientId : List Input :=
  [{ ready := [.listener] }, { accepted := [3, 4] }, idle, idle,
    { ready := [.conn 3 false true] }, { received := .data (Wire.encode (smallOrder 7 .sell 2)) },
    idle, idle, idle, idle, idle,
    { ready := [.conn 4 false true] },
    { received := .data (Wire.encode { smallOrder 7 .sell 2 with type := .cancel }) }, idle]

def cancelling : State (RiskGate (OrderBook Book.AosStore)) :=
  run {} desk (start smallGate .create none [] 0 1 1) sameClientId

/-- The cancel as it goes to the engine: the client id stands for nothing of session 4. -/
def strangersCancel : Command :=
  { orderId := 0, price := 0, qty := 0, seq := 2, owner := 2, type := .cancel, side := .buy }

theorem id_map_tracks_live_orders_two_sessions :
    Exact 1 (step {} desk cancelling idle).core.ids (step {} desk cancelling idle).core.gate ∧
      ∃ answer more, (step {} desk cancelling idle).log = cancelling.log ++
      .process 4 strangersCancel answer :: more ∧
        resting cancelling.core.gate 0 1 = some ⟨5, 2, .sell, 1⟩ ∧
        Spared (step {} desk cancelling idle).core.gate answer 0 1 ⟨5, 2, .sell, 1⟩ := by
  have hunwrapped : ∀ pre, pre <+: sameClientId →
      (run {} desk (start smallGate .create none [] 0 1 1) pre).core.ids.next ≠ 0 := by
    have hall : ∀ pre ∈ sameClientId.inits,
        (run {} desk (start smallGate .create none [] 0 1 1) pre).core.ids.next ≠ 0 := by
      decide +kernel
    exact fun pre hpre => hall pre ((List.mem_inits pre _).mpr hpre)
  have hunused : ∀ symbol x v, resting smallGate symbol x = some v → x < 1 ∧ v.owner < 1 := by
    intro symbol x v hv
    have hnone : resting smallGate symbol x = none :=
      resting_make Book.scatterHash 1 (by decide) {} symbol x
    rw [hnone] at hv
    cases hv
  obtain ⟨hexact, hother⟩ := id_map_tracks_live_orders {} rfl Book.scatterHash 1
    { numLevels := 64, maxOrders := 4 } (by decide)
    {} [] smallGate [] rfl .create none [] 0 1 1
      (by decide) hunused sameClientId hunwrapped 4 24 1 7 strangersCancel [] idle
    (by decide +kernel) (by decide +kernel)
  obtain ⟨-, n, answer, more, hseat, hlog, hspared⟩ := hother (by decide) (by decide +kernel)
  have hview : resting cancelling.core.gate 0 1 = some ⟨5, 2, .sell, 1⟩ := by decide +kernel
  have hn : n = 1 := by
    have hone : (roster cancelling.log).seat 4 = some 1 := by decide +kernel
    exact Option.some.inj (hseat.symm.trans hone)
  refine ⟨hexact, answer, more, hlog, hview, hspared 0 1 _ hview ?_⟩
  rw [hn]
  decide +kernel

/-- With the counter at the last id, the second of two orders is called 0. -/
def lastId : State (RiskGate (OrderBook Book.AosStore)) :=
  run {} desk (start smallGate .create none [] 0 1 (2 ^ 64 - 1))
    [{ ready := [.listener] }, { accepted := [3] }, idle, idle, { ready := [.conn 3 false true] },
      { received := .data (Wire.encode (smallOrder 7 .sell 2) ++
          Wire.encode (smallOrder 8 .sell 2)) }, idle, idle, idle]

/-- An order of owner 0 rests, and self-trade prevention cancels resting orders. -/
def ownGate : RiskGate (OrderBook Book.AosStore) :=
  let gate := RiskGate.make ⟨1, fun s => .make Book.scatterHash (UInt32.ofNat s)
    { numLevels := 64, maxOrders := 4, stp := .cancelResting }⟩ {}
  ((gate.run [.process { smallOrder 5 .sell 2 with owner := 0 }]).map Prod.fst).getD gate

/-- With the last owner handed out, the next session is owner 0 too; it moves an order of its own
across. -/
def lastOwner : State (RiskGate (OrderBook Book.AosStore)) :=
  run {} desk (start ownGate .create none [] 0 (2 ^ 32 - 1) 10)
    [{ ready := [.listener] }, { accepted := [3, 4] }, idle, idle,
      { ready := [.conn 4 false true] },
      { received := .data (Wire.encode { smallOrder 7 .buy 2 with price := 4 } ++
        Wire.encode { smallOrder 7 .buy 2 with type := .modify }) }, idle, idle, idle]

/-- A key leaks when the ids wrap, and a modify cancels another session's order when the owners
do. -/
theorem wrapped_counters_break_tracking :
    (lastId.pc.command? ≠ none ∧ (step {} desk lastId idle).pc ≠ .crashed ∧
      ¬ Exact (2 ^ 64 - 1) (step {} desk lastId idle).core.ids
        (step {} desk lastId idle).core.gate) ∧
    (roster lastOwner.log).entered 5 ≠ (roster lastOwner.log).seat 4 ∧
    ∃ c answer, c.type = .modify ∧
    (step {} desk lastOwner idle).log = lastOwner.log ++ [.process 4 c answer] ∧
      resting lastOwner.core.gate 0 5 = some ⟨5, 2, .sell, 0⟩ ∧
      ¬ Spared (step {} desk lastOwner idle).core.gate answer 0 5 ⟨5, 2, .sell, 0⟩ := by
  refine ⟨⟨by decide +kernel, by decide +kernel, ?_⟩, by decide +kernel, ?_⟩
  · intro h
    have hkey : ((step {} desk lastId idle).core.ids.rev 0).isSome = true := by decide +kernel
    have hlow : ¬ (2 ^ 64 - 1 : OrderId) ≤ 0 := by decide +kernel
    exact hlow ((h.live 0).mp hkey).1
  · refine ⟨{ smallOrder 10 .buy 2 with type := .modify, seq := 2, owner := 0 },
      [modifiedEvent 0 10 .buy 5 2, canceledEvent 0 5 .sell 5 2 .selfTrade],
      rfl, by decide +kernel, by decide +kernel, ?_⟩
    intro h
    exact h.unnamed (canceledEvent 0 5 .sell 5 2 .selfTrade) (by simp) (by decide) (by decide)

end ExchangeSim.Gateway
