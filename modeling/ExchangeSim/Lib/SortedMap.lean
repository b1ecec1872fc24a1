/- digest: Maps kept as strictly sorted entry lists, and the uniqueness of sorted listings. -/

import Mathlib.Data.List.Basic

set_option autoImplicit false
set_option relaxedAutoImplicit false
set_option linter.unusedSectionVars false

namespace ExchangeSim.Lib

universe u v

variable {κ : Type u} {ν : Type v}

theorem eq_of_sorted_of_mem {α : Type u} {r : α → α → Prop} (irrefl : ∀ a, ¬ r a a)
    (trans : ∀ {a b c}, r a b → r b c → r a c) {l l' : List α} (h : l.Pairwise r)
    (h' : l'.Pairwise r) (mem : ∀ a, a ∈ l ↔ a ∈ l') : l = l' := by
  induction l generalizing l' with
  | nil =>
      cases l' with
      | nil => rfl
      | cons b l' => exact absurd ((mem b).mpr List.mem_cons_self) (by simp)
  | cons a l ih =>
      cases l' with
      | nil => exact absurd ((mem a).mp List.mem_cons_self) (by simp)
      | cons b l' =>
          rw [List.pairwise_cons] at h h'
          have hab : a = b := by
            rcases List.mem_cons.mp ((mem a).mp List.mem_cons_self) with e | hb
            · exact e
            · rcases List.mem_cons.mp ((mem b).mpr List.mem_cons_self) with e | ha
              · exact e.symm
              · exact absurd (trans (h.1 b ha) (h'.1 a hb)) (irrefl a)
          subst hab
          rw [ih h.2 h'.2]
          intro x
          constructor
          · intro hx
            rcases List.mem_cons.mp ((mem x).mp (List.mem_cons_of_mem a hx)) with rfl | hm
            · exact absurd (h.1 x hx) (irrefl x)
            · exact hm
          · intro hx
            rcases List.mem_cons.mp ((mem x).mpr (List.mem_cons_of_mem a hx)) with rfl | hm
            · exact absurd (h'.1 x hx) (irrefl x)
            · exact hm

structure SortedMap (κ : Type u) (ν : Type v) [LT κ] where
  entries : List (κ × ν)
  sorted : entries.Pairwise fun a b => a.1 < b.1

namespace SortedMap

section Insert

variable [DecidableEq κ] [LT κ] [DecidableLT κ]

/-- `m[k] = v` on the entries. -/
def put (k : κ) (v : ν) : List (κ × ν) → List (κ × ν)
  | [] => [(k, v)]
  | (a, w) :: rest =>
      if k < a then (k, v) :: (a, w) :: rest
      else if k = a then (k, v) :: rest
      else (a, w) :: put k v rest

theorem mem_put_subset {k : κ} {v : ν} {l : List (κ × ν)} {e : κ × ν} (h : e ∈ put k v l) :
    e = (k, v) ∨ e ∈ l := by
  induction l with
  | nil => simpa [put] using h
  | cons b l ih =>
      obtain ⟨a, w⟩ := b
      rw [put] at h
      split at h
      · simpa using h
      · split at h
        · rcases List.mem_cons.mp h with rfl | hm
          · exact .inl rfl
          · exact .inr (List.mem_cons_of_mem _ hm)
        · rcases List.mem_cons.mp h with rfl | hm
          · exact .inr List.mem_cons_self
          · rcases ih hm with he | hl
            · exact .inl he
            · exact .inr (List.mem_cons_of_mem _ hl)

end Insert

variable [DecidableEq κ] [LT κ] [DecidableLT κ] [LE κ] [Std.IsLinearOrder κ] [Std.LawfulOrderLT κ]

theorem put_sorted (k : κ) (v : ν) {l : List (κ × ν)} (h : l.Pairwise fun a b => a.1 < b.1) :
    (put k v l).Pairwise fun a b => a.1 < b.1 := by
  induction l with
  | nil => simp [put]
  | cons b l ih =>
      obtain ⟨a, w⟩ := b
      have hc := List.pairwise_cons.mp h
      rw [put]
      split
      · rename_i hlt
        refine List.pairwise_cons.mpr ⟨?_, h⟩
        intro e he
        rcases List.mem_cons.mp he with rfl | hm
        · exact hlt
        · exact Std.lt_trans hlt (hc.1 e hm)
      · rename_i hlt
        split
        · rename_i heq
          subst heq
          exact List.pairwise_cons.mpr ⟨hc.1, hc.2⟩
        · rename_i hne
          refine List.pairwise_cons.mpr ⟨?_, ih hc.2⟩
          intro e he
          rcases mem_put_subset he with rfl | hm
          · exact Std.lt_of_le_of_ne (Std.not_lt.mp hlt) (Ne.symm hne)
          · exact hc.1 e hm

def empty : SortedMap κ ν := ⟨[], .nil⟩

def insert (m : SortedMap κ ν) (k : κ) (v : ν) : SortedMap κ ν :=
  ⟨put k v m.entries, put_sorted k v m.sorted⟩

def filter (m : SortedMap κ ν) (p : κ → ν → Bool) : SortedMap κ ν :=
  ⟨m.entries.filter fun e => p e.1 e.2, m.sorted.filter _⟩

def erase (m : SortedMap κ ν) (k : κ) : SortedMap κ ν := m.filter fun a _ => a ≠ k

def find? (m : SortedMap κ ν) (k : κ) : Option ν :=
  (m.entries.find? fun e => e.1 = k).map Prod.snd

theorem key_unique (m : SortedMap κ ν) {k : κ} {v w : ν} (hv : (k, v) ∈ m.entries)
    (hw : (k, w) ∈ m.entries) : v = w := by
  have hs := m.sorted
  generalize m.entries = l at hv hw hs
  induction l with
  | nil => simp at hv
  | cons e l ih =>
      have hc := List.pairwise_cons.mp hs
      rcases List.mem_cons.mp hv with rfl | hv'
      · rcases List.mem_cons.mp hw with he | hw'
        · exact (Prod.mk.inj he).2.symm
        · exact absurd (hc.1 _ hw') Std.lt_irrefl
      · rcases List.mem_cons.mp hw with rfl | hw'
        · exact absurd (hc.1 _ hv') Std.lt_irrefl
        · exact ih hv' hw' hc.2

theorem find?_eq_some {m : SortedMap κ ν} {k : κ} {v : ν} :
    m.find? k = some v ↔ (k, v) ∈ m.entries := by
  constructor
  · intro h
    obtain ⟨e, he, rfl⟩ := Option.map_eq_some_iff.mp h
    have hk : e.1 = k := by simpa using List.find?_some he
    have hm := List.mem_of_find?_eq_some he
    rwa [← hk]
  · intro h
    cases hf : m.entries.find? fun e => e.1 = k with
    | none => simpa using List.find?_eq_none.mp hf (k, v) h
    | some e =>
        have hk : e.1 = k := by simpa using List.find?_some hf
        have hm : (k, e.2) ∈ m.entries := by
          rw [← hk]
          exact List.mem_of_find?_eq_some hf
        rw [find?, hf, Option.map_some, m.key_unique h hm]

@[simp] theorem find?_empty (k : κ) : (empty : SortedMap κ ν).find? k = none := rfl

theorem mem_put {k : κ} {v : ν} {l : List (κ × ν)}
    (hs : l.Pairwise fun a b => a.1 < b.1) (a : κ) (w : ν) :
    (a, w) ∈ put k v l ↔ (a = k ∧ w = v) ∨ (a ≠ k ∧ (a, w) ∈ l) := by
  induction l with
  | nil =>
      simp only [put, List.mem_singleton, Prod.mk.injEq, List.not_mem_nil, and_false, or_false]
  | cons b l ih =>
      obtain ⟨c, x⟩ := b
      have hc := List.pairwise_cons.mp hs
      have later {d : κ} {y : ν} (hd : (d, y) ∈ l) : c < d := hc.1 _ hd
      rw [put]
      split
      · rename_i hlt
        have hne : ∀ y, (a, y) ∈ (c, x) :: l → a ≠ k := by
          intro y hy he
          subst he
          rcases List.mem_cons.mp hy with e | hm
          · cases e
            exact Std.lt_irrefl hlt
          · exact Std.lt_irrefl (Std.lt_trans hlt (later hm))
        constructor
        · intro h
          rcases List.mem_cons.mp h with e | hm
          · exact .inl (Prod.mk.inj e)
          · exact .inr ⟨hne w hm, hm⟩
        · rintro (⟨rfl, rfl⟩ | ⟨-, hm⟩)
          · exact List.mem_cons_self
          · exact List.mem_cons_of_mem _ hm
      · split
        · rename_i heq
          subst heq
          constructor
          · intro h
            rcases List.mem_cons.mp h with e | hm
            · exact .inl (Prod.mk.inj e)
            · refine .inr ⟨?_, List.mem_cons_of_mem _ hm⟩
              rintro rfl
              exact Std.lt_irrefl (later hm)
          · rintro (⟨rfl, rfl⟩ | ⟨hne, hm⟩)
            · exact List.mem_cons_self
            · rcases List.mem_cons.mp hm with e | hl
              · exact absurd (Prod.mk.inj e).1 hne
              · exact List.mem_cons_of_mem _ hl
        · rename_i hne
          rw [List.mem_cons, ih hc.2, List.mem_cons]
          constructor
          · rintro (e | h)
            · refine .inr ⟨?_, .inl e⟩
              rintro rfl
              exact hne (Prod.mk.inj e).1
            · rcases h with h | ⟨h₁, h₂⟩
              · exact .inl h
              · exact .inr ⟨h₁, .inr h₂⟩
          · rintro (h | ⟨h₁, e | h₂⟩)
            · exact .inr (.inl h)
            · exact .inl e
            · exact .inr (.inr ⟨h₁, h₂⟩)

theorem mem_insert (m : SortedMap κ ν) (k : κ) (v : ν) (a : κ) (w : ν) :
    (a, w) ∈ (m.insert k v).entries ↔ (a = k ∧ w = v) ∨ (a ≠ k ∧ (a, w) ∈ m.entries) :=
  mem_put m.sorted a w

theorem mem_erase (m : SortedMap κ ν) (k a : κ) (w : ν) :
    (a, w) ∈ (m.erase k).entries ↔ a ≠ k ∧ (a, w) ∈ m.entries := by
  simp [erase, filter, and_comm]

theorem find?_insert (m : SortedMap κ ν) (k : κ) (v : ν) (a : κ) :
    (m.insert k v).find? a = if a = k then some v else m.find? a := by
  apply Option.ext
  intro w
  rw [find?_eq_some, mem_insert]
  by_cases h : a = k
  · simp [h, eq_comm]
  · simp [h, find?_eq_some]

theorem find?_filter (m : SortedMap κ ν) (p : κ → ν → Bool) (a : κ) :
    (m.filter p).find? a = (m.find? a).filter (p a) := by
  apply Option.ext
  intro w
  rw [find?_eq_some, Option.filter_eq_some_iff, find?_eq_some]
  simp [filter]

theorem find?_erase (m : SortedMap κ ν) (k a : κ) :
    (m.erase k).find? a = if a = k then none else m.find? a := by
  rw [erase, find?_filter]
  by_cases h : a = k
  · subst h
    simp
  · cases m.find? a <;> simp [h]

/-- The same keys with other values. -/
def mapValues {ω : Type v} (f : ν → ω) (m : SortedMap κ ν) : SortedMap κ ω :=
  ⟨m.entries.map fun e => (e.1, f e.2), by
    rw [List.pairwise_map]
    exact m.sorted⟩

theorem find?_mapValues {ω : Type v} (f : ν → ω) (m : SortedMap κ ν) (k : κ) :
    (m.mapValues f).find? k = (m.find? k).map f := by
  simp only [find?, mapValues, List.find?_map, Option.map_map, Function.comp_def]

theorem mapValues_insert {ω : Type v} (f : ν → ω) (m : SortedMap κ ν) (k : κ) (w : ν) :
    (m.insert k w).mapValues f = (m.mapValues f).insert k (f w) := by
  have hput : ∀ l : List (κ × ν), (put k w l).map (fun e => (e.1, f e.2)) = put k (f w)
      (l.map fun e => (e.1, f e.2)) := by
    intro l
    induction l with
    | nil => rfl
    | cons e l ih =>
        obtain ⟨a, x⟩ := e
        simp only [put, List.map_cons]
        split
        · rfl
        · split
          · rfl
          · rw [List.map_cons, ih]
  simp only [insert, mapValues, SortedMap.mk.injEq]
  exact hput m.entries

theorem mapValues_erase {ω : Type v} (f : ν → ω) (m : SortedMap κ ν) (k : κ) :
    (m.erase k).mapValues f = (m.mapValues f).erase k := by
  simp only [erase, filter, mapValues, List.filter_map, Function.comp_def]

end SortedMap

end ExchangeSim.Lib
