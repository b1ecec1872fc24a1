/- digest: The accounts inferred from self-trade prevention: a union-find whose roots are the
   smallest ids. -/

import ExchangeSim.Common
import ExchangeSim.Lib.Forest

set_option autoImplicit false
set_option relaxedAutoImplicit false

namespace ExchangeSim.L3

open ExchangeSim.Lib
open Relation (EqvGen)

structure Accounts where
  parent : OrderId → Option OrderId := fun _ => none

namespace Accounts

/-- The recursion through the parents, at most `fuel` calls deep; every call on the way stores what
it found. -/
def find (m : Accounts) : Nat → OrderId → Option (OrderId × Accounts)
  | 0, _ => none
  | fuel + 1, x =>
      match m.parent x with
      | none => some (x, m)
      | some p => do
          let (r, m') ← m.find fuel p
          return (r, { m' with parent := Function.update m'.parent x (some r) })

def link (m : Accounts) (fuel : Nat) (a b : OrderId) : Option Accounts := do
  let (ra, m) ← m.find fuel a
  let (rb, m) ← m.find fuel b
  if ra ≠ rb then
    return { m with parent := Function.update m.parent (max ra rb) (some (min ra rb)) }
  return m

/-- The owner that the replay gives an order. -/
def owner (m : Accounts) (fuel : Nat) (id : OrderId) : Option (OwnerId × Accounts) := do
  let (r, m) ← m.find fuel id
  return ((r &&& 0xFFFFFFFF).toUInt32, m)

/-- The calls that the users of the accounts make. -/
inductive Call where
  | link (a b : OrderId)
  | find (x : OrderId)
  deriving DecidableEq

def call (m : Accounts) (fuel : Nat) : Call → Option Accounts
  | .link a b => m.link fuel a b
  | .find x => (m.find fuel x).map Prod.snd

def run (fuel : Nat) (calls : List Call) : Option Accounts :=
  calls.foldlM (fun m c => m.call fuel c) {}

/-- The pairs that the calls have linked. -/
def Linked (calls : List Call) (x y : OrderId) : Prop := Call.link x y ∈ calls

theorem linked_nil : Linked [] = fun _ _ => False := by
  ext x y
  simp [Linked]

theorem linked_append (calls : List Call) (c : Call) :
    Linked (calls ++ [c]) = fun x y => Linked calls x y ∨ c = .link x y := by
  ext x y
  simp [Linked, eq_comm]

/-- Deep enough for every recursion: parents get smaller, and ids have 64 bits. -/
def kDepth : Nat := 2 ^ 64

abbrev Tree (m : Accounts) (root : OrderId → OrderId) : Prop := Forest UInt64.toNat m.parent root

variable {m : Accounts} {root : OrderId → OrderId} {fuel : Nat}

theorem toNat_injective : Function.Injective UInt64.toNat := fun _ _ => UInt64.toNat_inj.mp

theorem Tree.find (h : Tree m root) {x : OrderId} (enough : x.toNat < fuel) :
    ∃ m', m.find fuel x = some (root x, m') ∧ Tree m' root ∧ ∀ y, m'.parent y = none ↔
    m.parent y = none := by
  induction fuel generalizing x with
  | zero => omega
  | succ fuel ih =>
      rw [Accounts.find]
      cases hp : m.parent x with
      | none => exact ⟨m, by rw [h.fixed x hp], h, fun _ => Iff.rfl⟩
      | some p =>
          obtain ⟨hlt, hroot⟩ := h.below x p hp
          obtain ⟨m', hfind, h', hkeys⟩ := ih (x := p) (by omega)
          have hx : m'.parent x ≠ none := by
            rw [Ne, hkeys, hp]
            exact Option.some_ne_none p
          simp only [hfind, hroot, Option.bind_eq_bind, Option.bind_some]
          refine ⟨_, rfl, h'.compress toNat_injective hx, fun y => ?_⟩
          by_cases hy : y = x
          · subst hy
            simp [hp]
          · simp [Function.update_of_ne hy, hkeys]

theorem min_lt_max {a b : OrderId} (h : a ≠ b) : (min a b).toNat < (max a b).toNat := by
  have hne : a.toNat ≠ b.toNat := fun he => h (UInt64.toNat_inj.mp he)
  rcases le_total a.toNat b.toNat with hle | hle
  · rw [show min a b = a from if_pos hle, show max a b = b from if_pos hle]
    omega
  · have hnot : ¬ a.toNat ≤ b.toNat := by omega
    rw [show min a b = b from if_neg hnot, show max a b = a from if_neg hnot]
    omega

theorem Tree.link (h : Tree m root) {pairs : OrderId → OrderId → Prop}
    (hrep : Represents root pairs) {a b : OrderId} (ha : a.toNat < fuel) (hb : b.toNat < fuel) :
    ∃ m' root', m.link fuel a b = some m' ∧ Tree m' root' ∧ Represents root' fun x y =>
      pairs x y ∨ (x = a ∧ y = b) := by
  obtain ⟨m₁, hfind₁, h₁, _⟩ := h.find ha
  obtain ⟨m₂, hfind₂, h₂, _⟩ := h₁.find hb
  rw [Accounts.link, hfind₁]
  simp only [Option.bind_eq_bind, Option.bind_some, hfind₂]
  by_cases hsame : root a = root b
  · rw [if_neg (not_not.mpr hsame)]
    exact ⟨m₂, root, rfl, h₂, hrep.inside hsame⟩
  · rw [if_pos hsame]
    have hends : (min (root a) (root b) = root a ∧ max (root a) (root b) = root b) ∨
        (min (root a) (root b) = root b ∧ max (root a) (root b) = root a) := by
      by_cases hle : root a ≤ root b
      · exact .inl ⟨if_pos hle, if_pos hle⟩
      · exact .inr ⟨if_neg hle, if_neg hle⟩
    refine ⟨_, _, rfl, h₂.join (a := min (root a) (root b)) ?_ ?_ (min_lt_max hsame), hrep.join ?_⟩
    · rcases hends with ⟨hmin, _⟩ | ⟨hmin, _⟩
      · rw [hmin]
        exact h₂.bare a
      · rw [hmin]
        exact h₂.bare b
    · rcases hends with ⟨_, hmax⟩ | ⟨_, hmax⟩
      · rw [hmax]
        exact h₂.bare b
      · rw [hmax]
        exact h₂.bare a
    · rcases hends with ⟨hmin, hmax⟩ | ⟨hmin, hmax⟩
      · exact .inl ⟨hmin.symm, hmax.symm⟩
      · exact .inr ⟨hmax.symm, hmin.symm⟩

theorem Tree.call (h : Tree m root) {pairs : OrderId → OrderId → Prop}
    (hrep : Represents root pairs) (enough : kDepth ≤ fuel) (c : Call) :
    ∃ m' root', m.call fuel c = some m' ∧ Tree m' root' ∧
      Represents root' fun x y => pairs x y ∨ c = .link x y := by
  have hdeep : ∀ x : OrderId, x.toNat < fuel := fun x => lt_of_lt_of_le x.toNat_lt enough
  cases c with
  | link a b =>
      obtain ⟨m', root', hlink, h', hrep'⟩ := h.link hrep (hdeep a) (hdeep b)
      refine ⟨m', root', hlink, h', ?_⟩
      simpa only [Call.link.injEq, eq_comm] using hrep'
  | find x =>
      obtain ⟨m', hfind, h', _⟩ := h.find (hdeep x)
      refine ⟨m', root, by rw [Accounts.call, hfind]; rfl, h', ?_⟩
      simpa only [reduceCtorEq, or_false] using hrep

theorem run_tree (enough : kDepth ≤ fuel) (calls : List Call) :
    ∃ m root, run fuel calls = some m ∧ Tree m root ∧ Represents root (Linked calls) := by
  induction calls using List.reverseRecOn with
  | nil =>
      refine ⟨_, _, rfl, Forest.empty _, ?_⟩
      rw [linked_nil]
      exact represents_id
  | append_singleton calls c ih =>
      obtain ⟨m, root, hrun, h, hrep⟩ := ih
      obtain ⟨m', root', hcall, h', hrep'⟩ := h.call hrep enough c
      refine ⟨m', root', ?_, h', ?_⟩
      · rw [run] at hrun ⊢
        rw [List.foldlM_append, hrun]
        simpa using hcall
      · rw [linked_append]
        exact hrep'

/-- Every call returns, and a search returns the smallest id connected to the one searched for, so
two searches agree exactly on connected ids; a search leaves every later search's answer as it
was. -/
theorem accounts_union_find (fuel : Nat) (enough : kDepth ≤ fuel) (calls : List Call) :
    ∃ m, run fuel calls = some m ∧ ∃ root : OrderId → OrderId,
      (∀ x, ∃ m', m.find fuel x = some (root x, m') ∧
        ∀ y, (m'.find fuel y).map Prod.fst = (m.find fuel y).map Prod.fst) ∧
      (∀ x, EqvGen (Linked calls) x (root x) ∧ ∀ y, EqvGen (Linked calls) x y → root x ≤ y) ∧
      ∀ a b, root a = root b ↔ EqvGen (Linked calls) a b := by
  have hdeep : ∀ x : OrderId, x.toNat < fuel := fun x => lt_of_lt_of_le x.toNat_lt enough
  obtain ⟨m, root, hrun, h, hrep⟩ := run_tree enough calls
  refine ⟨m, hrun, root, fun x => ?_, fun x => h.least hrep x, hrep⟩
  obtain ⟨m', hfind, h', _⟩ := h.find (hdeep x)
  refine ⟨m', hfind, fun y => ?_⟩
  obtain ⟨_, hbefore, _⟩ := h.find (hdeep y)
  obtain ⟨_, hafter, _⟩ := h'.find (hdeep y)
  rw [hbefore, hafter]
  rfl

theorem accounts_union_find_chain :
    ∃ (m : Accounts) (root : OrderId → OrderId),
    run kDepth [.link 9 5, .find 9, .link 7 9, .link 2 5] = some m ∧
      (∀ x, ∃ m', m.find kDepth x = some (root x, m')) ∧ root 7 = root 2 := by
  obtain ⟨m, hrun, root, hfind, _, hiff⟩ :=
    accounts_union_find kDepth le_rfl [.link 9 5, .find 9, .link 7 9, .link 2 5]
  refine ⟨m, root, hrun, fun x => ⟨_, (hfind x).choose_spec.1⟩, (hiff 7 2).mpr ?_⟩
  have hlink : ∀ a b : OrderId, Call.link a b ∈ [Call.link 9 5, .find 9, .link 7 9, .link 2 5] →
      EqvGen (Linked [.link 9 5, .find 9, .link 7 9, .link 2 5]) a b := fun a b h => .rel _ _ h
  exact .trans _ _ _ (hlink 7 9 (by decide))
    (.trans _ _ _ (hlink 9 5 (by decide)) ((hlink 2 5 (by decide)).symm _ _))

end Accounts
end ExchangeSim.L3
