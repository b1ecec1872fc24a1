/- digest: Intrusive doubly linked queues and free lists threaded through link functions. -/

import Mathlib.Logic.Function.Basic
import Mathlib.Data.List.Nodup
import Mathlib.Data.List.Chain

set_option autoImplicit false
set_option relaxedAutoImplicit false

namespace ExchangeSim.Lib.Fifo

/-- The cells of `l` are linked in order from `h`, and the last one links to `e`. -/
def Seg (nil : Nat) (next : Nat → Nat) : Nat → List Nat → Nat → Prop
  | h, [], e => h = e
  | h, s :: t, e => h = s ∧ s ≠ nil ∧ Seg nil next (next s) t e

/-- The back links of consecutive cells. The back link of the first cell is free. -/
def Back (prev : Nat → Nat) (l : List Nat) : Prop := l.IsChain fun a b => prev b = a

structure Queue (nil : Nat) (next prev : Nat → Nat) (head tail : Nat) (l : List Nat) : Prop where
  path : Seg nil next head l nil
  back : Back prev l
  tail_eq : tail = l.getLastD nil

variable {nil : Nat} {next next' prev prev' : Nat → Nat}

theorem Seg.congr {l : List Nat} {h e : Nat} (same : ∀ s ∈ l, next' s = next s)
    (seg : Seg nil next h l e) : Seg nil next' h l e := by
  induction l generalizing h with
  | nil => exact seg
  | cons s t ih =>
      obtain ⟨rfl, hs, rest⟩ := seg
      refine ⟨rfl, hs, ?_⟩
      rw [same h (by simp)]
      exact ih (fun x hx => same x (by simp [hx])) rest

theorem seg_append {l₁ l₂ : List Nat} {h e : Nat} :
    Seg nil next h (l₁ ++ l₂) e ↔ ∃ m, Seg nil next h l₁ m ∧ Seg nil next m l₂ e := by
  induction l₁ generalizing h with
  | nil => simp [Seg]
  | cons s t ih => simp [Seg, ih, and_assoc]

theorem Seg.ne_nil {l : List Nat} {h e : Nat} (seg : Seg nil next h l e) :
    ∀ s ∈ l, s ≠ nil := by
  induction l generalizing h with
  | nil => simp
  | cons s t ih =>
      obtain ⟨_, hs, rest⟩ := seg
      intro x hx
      rcases List.mem_cons.mp hx with rfl | hx
      · exact hs
      · exact ih rest x hx

theorem Seg.head_eq {l : List Nat} {h e : Nat} (seg : Seg nil next h l e) : h = l.headD e := by
  cases l with
  | nil => exact seg
  | cons s t => exact seg.1

theorem Seg.snoc {l : List Nat} {h s e : Nat} :
    Seg nil next h (l ++ [s]) e ↔ Seg nil next h l s ∧ s ≠ nil ∧ next s = e := by
  rw [seg_append]
  constructor
  · rintro ⟨m, hm, rfl, hne, hs⟩
    exact ⟨hm, hne, hs⟩
  · rintro ⟨hm, hne, hs⟩
    exact ⟨s, hm, rfl, hne, hs⟩

theorem Back.congr {l : List Nat} (same : ∀ s ∈ l.tail, prev' s = prev s) (back : Back prev l) :
    Back prev' l := by
  induction l with
  | nil => exact List.IsChain.nil
  | cons s t ih =>
      cases t with
      | nil => exact List.IsChain.singleton _
      | cons u t =>
          obtain ⟨hu, rest⟩ := List.isChain_cons_cons.mp back
          refine List.isChain_cons_cons.mpr ⟨?_, ?_⟩
          · rw [same u (by simp)]
            exact hu
          · exact ih (fun x hx => same x (by simp at hx ⊢; exact Or.inr hx)) rest

theorem Queue.congr {head tail : Nat} {l : List Nat}
    (hnext : ∀ s ∈ l, next' s = next s) (hprev : ∀ s ∈ l, prev' s = prev s)
    (q : Queue nil next prev head tail l) : Queue nil next' prev' head tail l :=
  ⟨q.path.congr hnext, q.back.congr fun s hs => hprev s (List.mem_of_mem_tail hs), q.tail_eq⟩

theorem queue_empty : Queue nil next prev nil nil [] :=
  ⟨rfl, List.IsChain.nil, rfl⟩

theorem Queue.tail_eq_nil_iff {head tail : Nat} {l : List Nat}
    (q : Queue nil next prev head tail l) : tail = nil ↔ l = [] := by
  rw [q.tail_eq]
  constructor
  · intro h
    by_contra hne
    have hmem := List.getLast_mem hne
    rw [List.getLastD_eq_getLast?, List.getLast?_eq_some_getLast hne, Option.getD_some] at h
    exact q.path.ne_nil _ hmem h
  · rintro rfl
    rfl

theorem Queue.head_eq_nil_iff {head tail : Nat} {l : List Nat}
    (q : Queue nil next prev head tail l) : head = nil ↔ l = [] := by
  rw [q.path.head_eq]
  constructor
  · intro h
    cases l with
    | nil => rfl
    | cons s t => exact absurd h (q.path.ne_nil s (by simp))
  · rintro rfl
    rfl

theorem Queue.push {head tail s : Nat} {l : List Nat} (q : Queue nil next prev head tail l)
    (fresh : s ∉ l) (hs : s ≠ nil) (nodup : l.Nodup) :
    Queue nil (if tail = nil then Function.update next s nil
        else Function.update (Function.update next s nil) tail s)
      (Function.update prev s tail) (if tail = nil then s else head) s (l ++ [s]) := by
  have hback : ∀ x ∈ l, Function.update prev s tail x = prev x := by
    intro x hx
    apply Function.update_of_ne
    rintro rfl
    exact fresh hx
  split_ifs with ht
  · have hl := q.tail_eq_nil_iff.mp ht
    subst hl
    exact ⟨⟨rfl, hs, Function.update_self ..⟩, List.IsChain.singleton _, rfl⟩
  · -- the old queue ends in a cell, whose link is redirected
    obtain ⟨t, a, rfl⟩ : ∃ t a, l = t ++ [a] := by
      rcases List.eq_nil_or_concat l with rfl | ⟨t, a, rfl⟩
      · exact absurd q.tail_eq ht
      · exact ⟨t, a, by simp⟩
    have htail : tail = a := by simpa using q.tail_eq
    subst htail
    have hat : tail ∉ t := by
      rw [List.nodup_append] at nodup
      exact fun h => nodup.2.2 tail h tail (by simp) rfl
    have hsa : tail ≠ s := fun e => fresh (by simp [e])
    obtain ⟨hseg, hane, _⟩ := Seg.snoc.mp q.path
    refine ⟨?_, ?_, by simp⟩
    · rw [Seg.snoc]
      refine ⟨?_, hs, ?_⟩
      · rw [Seg.snoc]
        refine ⟨hseg.congr ?_, hane, Function.update_self ..⟩
        intro x hx
        have hxt : x ≠ tail := ne_of_mem_of_not_mem hx hat
        have hxs : x ≠ s := ne_of_mem_of_not_mem (by simp [hx]) fresh
        rw [Function.update_of_ne hxt, Function.update_of_ne hxs]
      · rw [Function.update_of_ne hsa.symm, Function.update_self]
    · refine List.isChain_append.mpr ⟨?_, List.IsChain.singleton _, ?_⟩
      · exact q.back.congr fun x hx => hback x (List.mem_of_mem_tail hx)
      · intro x hx y hy
        simp at hx hy
        subst hx hy
        exact Function.update_self ..

theorem Queue.pop {head tail s : Nat} {l : List Nat} (q : Queue nil next prev head tail (s :: l)) :
    Queue nil next prev (next s) (if next s = nil then nil else tail) l := by
  obtain ⟨⟨_, _, hrest⟩, hback, htail⟩ := q
  refine ⟨hrest, hback.tail, ?_⟩
  cases l with
  | nil =>
      have hend : next s = nil := hrest
      rw [if_pos hend]
      rfl
  | cons u t =>
      rw [if_neg (by rw [hrest.1]; exact hrest.2.1), htail]
      simp

theorem Queue.prev_mem {head tail s : Nat} {l₁ l₂ : List Nat}
    (q : Queue nil next prev head tail (l₁ ++ s :: l₂)) (h : s ≠ head) : prev s ∈ l₁ := by
  rcases List.eq_nil_or_concat l₁ with rfl | ⟨t, a, rfl⟩
  · exact absurd q.path.1.symm h
  · rw [List.concat_eq_append] at q ⊢
    have hjoin := (List.isChain_append.mp q.back).2.2
    rw [hjoin a (by simp) s (by simp)]
    simp

theorem Queue.next_mem {head tail s : Nat} {l₁ l₂ : List Nat}
    (q : Queue nil next prev head tail (l₁ ++ s :: l₂)) (h : s ≠ tail) : next s ∈ l₂ := by
  cases l₂ with
  | nil =>
      have := q.tail_eq
      simp only [List.getLastD_concat] at this
      exact absurd this.symm h
  | cons u t =>
      obtain ⟨m, _, _, _, hseg⟩ := seg_append.mp q.path
      rw [hseg.1]
      simp

/-- Unlinking a cell anywhere in the queue: its neighbours are linked to each other,
and a head or tail that was the cell moves to its neighbour. -/
theorem Queue.remove {head tail s : Nat} {l₁ l₂ : List Nat}
    (q : Queue nil next prev head tail (l₁ ++ s :: l₂)) (nodup : (l₁ ++ s :: l₂).Nodup) :
    let head' := if s = head then next s else head
    Queue nil (if s = head then next else Function.update next (prev s) (next s))
      (if s = tail then prev else Function.update prev (next s) (prev s)) head'
      (if s = tail then (if head' = nil then nil else prev s) else tail) (l₁ ++ l₂) := by
  obtain ⟨hpath, hback, htail⟩ := q
  obtain ⟨m, hseg₁, rfl, hsne, hseg₂⟩ := seg_append.mp hpath
  obtain ⟨hb₁, hb₂, hjoin⟩ := List.isChain_append.mp hback
  have hnd := List.nodup_append.mp nodup
  have hs₂ : m ∉ l₂ := (List.nodup_cons.mp hnd.2.1).1
  have hs₁ : m ∉ l₁ := fun h => hnd.2.2 m h m (by simp) rfl
  have hdisj : ∀ x ∈ l₁, x ∉ l₂ := fun x hx hx₂ => hnd.2.2 x hx x (by simp [hx₂]) rfl
  -- the cell after the removed one, and the tail
  have hafter : (l₂ = [] → m = tail) ∧ (l₂ ≠ [] → m ≠ tail ∧ tail = l₂.getLastD nil) := by
    constructor
    · rintro rfl
      simpa using htail.symm
    · intro hne
      have htl : tail = l₂.getLastD nil := by
        rw [htail, List.getLastD_eq_getLast?, List.getLastD_eq_getLast?, List.getLast?_append,
          List.getLast?_cons, List.getLast?_eq_some_getLast hne]
        rfl
      refine ⟨?_, htl⟩
      rw [htl, List.getLastD_eq_getLast?, List.getLast?_eq_some_getLast hne, Option.getD_some]
      exact (ne_of_mem_of_not_mem (List.getLast_mem hne) hs₂).symm
  rcases List.eq_nil_or_concat l₁ with rfl | ⟨t, a, rfl⟩
  · have hm : m = head := hseg₁.symm
    subst hm
    simp only [if_true, List.nil_append]
    cases l₂ with
    | nil =>
        have hend : next m = nil := hseg₂
        rw [if_pos (hafter.1 rfl), if_pos (hafter.1 rfl), if_pos hend, hend]
        exact queue_empty
    | cons b u =>
        obtain ⟨hb, hbne, hrest⟩ := hseg₂
        obtain ⟨hmt, htl⟩ := hafter.2 (by simp)
        simp only [if_neg hmt]
        refine ⟨⟨hb, hbne, hrest⟩, ?_, htl⟩
        refine Back.congr ?_ (List.isChain_cons_cons.mp hback).2
        intro x hx
        apply Function.update_of_ne
        rw [hb]
        exact ne_of_mem_of_not_mem hx (List.nodup_cons.mp (List.nodup_cons.mp nodup).2).1
  · rw [List.concat_eq_append] at *
    have hpm : prev m = a := hjoin a (by simp) m (by simp)
    obtain ⟨hseg, hane, _⟩ := Seg.snoc.mp hseg₁
    have hat : a ∉ t := by
      have := List.nodup_append.mp hnd.1
      exact fun h => this.2.2 a h a (by simp) rfl
    have hhead : head ≠ nil ∧ m ≠ head := by
      have := hseg.head_eq
      cases t with
      | nil =>
          have : head = a := hseg
          rw [this]
          exact ⟨hane, fun e => hs₁ (by simp [e])⟩
      | cons c t =>
          have : head = c := hseg.1
          rw [this]
          exact ⟨hseg.2.1, fun e => hs₁ (by simp [e])⟩
    have hpath' : Seg nil (Function.update next a (next m)) head (t ++ [a] ++ l₂) nil := by
      rw [seg_append]
      refine ⟨next m, ?_, ?_⟩
      · rw [Seg.snoc]
        refine ⟨hseg.congr ?_, hane, Function.update_self ..⟩
        intro x hx
        exact Function.update_of_ne (ne_of_mem_of_not_mem hx hat) _ _
      · refine hseg₂.congr ?_
        intro x hx
        apply Function.update_of_ne
        rintro rfl
        exact hdisj x (by simp) hx
    simp only [if_neg hhead.2, hpm, if_neg hhead.1]
    refine ⟨hpath', ?_, ?_⟩
    · cases l₂ with
      | nil =>
          rw [if_pos (hafter.1 rfl), List.append_nil]
          exact hb₁
      | cons b u =>
          obtain ⟨hb, hbne, hrest⟩ := hseg₂
          rw [if_neg (hafter.2 (by simp)).1, hb]
          have hbt : b ∉ t ++ [a] := fun h => hdisj b h (by simp)
          refine List.isChain_append.mpr ⟨?_, ?_, ?_⟩
          · refine Back.congr ?_ hb₁
            intro x hx
            exact Function.update_of_ne (ne_of_mem_of_not_mem (List.mem_of_mem_tail hx) hbt) _ _
          · refine Back.congr ?_ (List.isChain_cons_cons.mp hb₂).2
            intro x hx
            apply Function.update_of_ne
            exact ne_of_mem_of_not_mem hx (List.nodup_cons.mp (List.nodup_cons.mp hnd.2.1).2).1
          · intro x hx y hy
            simp at hx hy
            subst hx hy
            exact Function.update_self ..
    · cases l₂ with
      | nil => simp [hafter.1 rfl]
      | cons b u =>
          obtain ⟨hmt, htl⟩ := hafter.2 (by simp)
          rw [if_neg hmt, htl, List.getLastD_eq_getLast?, List.getLastD_eq_getLast?,
            List.getLast?_append, List.getLast?_eq_some_getLast (by simp)]
          rfl

end ExchangeSim.Lib.Fifo
