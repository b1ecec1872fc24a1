/- digest: Byte streams cut into self-delimiting frames. -/

import ExchangeSim.Lib.Bytes

set_option autoImplicit false
set_option relaxedAutoImplicit false

namespace ExchangeSim.Lib

universe u

/-- How to take the first frame off a byte string: its content and its length, which
depend on the bytes of the frame alone. -/
structure Framing (α : Type u) where
  first : Bytes → Option (α × Nat)
  pos : ∀ {p a n}, first p = some (a, n) → 0 < n
  inside : ∀ {p a n}, first p = some (a, n) → n ≤ p.length
  alone : ∀ {p a n}, first p = some (a, n) → ∀ q, first (p.take n ++ q) = some (a, n)

namespace Framing

variable {α : Type u} (F : Framing α)

/-- `items` are the first frames of `p`, and `r` is what follows them. -/
inductive Parses : Bytes → List α → Bytes → Prop
  | done (p : Bytes) : Parses p [] p
  | frame {p r : Bytes} {a : α} {n : Nat} {items : List α} (h : F.first p = some (a, n))
      (rest : Parses (p.drop n) items r) : Parses p (a :: items) r

variable {F}

theorem first_append {p : Bytes} {a : α} {n : Nat} (h : F.first p = some (a, n)) (q : Bytes) :
    F.first (p ++ q) = some (a, n) := by
  have := F.alone h (p.drop n ++ q)
  rwa [← List.append_assoc, List.take_append_drop] at this

theorem drop_append_of_inside {p : Bytes} {a : α} {n : Nat} (h : F.first p = some (a, n))
    (q : Bytes) : (p ++ q).drop n = p.drop n ++ q := by
  rw [List.drop_append, Nat.sub_eq_zero_of_le (F.inside h), List.drop_zero]

namespace Parses

theorem single {p : Bytes} {a : α} {n : Nat} (h : F.first p = some (a, n)) :
    F.Parses p [a] (p.drop n) := .frame h (.done _)

theorem trans {p q r : Bytes} {xs ys : List α} (a : F.Parses p xs q) (b : F.Parses q ys r) :
    F.Parses p (xs ++ ys) r := by
  induction a with
  | done p => exact b
  | frame h _ ih => exact .frame h (ih b)

theorem append {p r : Bytes} {items : List α} (a : F.Parses p items r) (q : Bytes) :
    F.Parses (p ++ q) items (r ++ q) := by
  induction a with
  | done p => exact .done (p ++ q)
  | frame h _ ih =>
      refine .frame (first_append h q) ?_
      rwa [drop_append_of_inside h]

theorem front {p r : Bytes} {items : List α} (a : F.Parses p items r) :
    ∃ f, p = f ++ r ∧ F.Parses f items [] := by
  induction a with
  | done p => exact ⟨[], rfl, .done []⟩
  | @frame p r a n items h _ ih =>
      obtain ⟨f, hf, hp⟩ := ih
      refine ⟨p.take n ++ f, ?_, ?_⟩
      · rw [List.append_assoc, ← hf, List.take_append_drop]
      · refine .frame (F.alone h f) ?_
        rwa [List.drop_left' (by rw [List.length_take]; exact Nat.min_eq_left (F.inside h))]

theorem length_le {p r : Bytes} {items : List α} (a : F.Parses p items r) :
    r.length ≤ p.length := by
  obtain ⟨f, rfl, -⟩ := a.front
  simp

theorem resume {p q r : Bytes} {xs ys : List α} (a : F.Parses p xs q) (b : F.Parses p ys r)
    (hr : F.first r = none) : ∃ more, ys = xs ++ more ∧ F.Parses q more r := by
  induction a generalizing ys with
  | done p => exact ⟨ys, rfl, b⟩
  | frame h _ ih =>
      cases b with
      | done => simp [h] at hr
      | frame h' rest =>
          obtain ⟨rfl, rfl⟩ := Prod.mk.inj (Option.some.inj (h.symm.trans h'))
          obtain ⟨more, rfl, hmore⟩ := ih rest
          exact ⟨more, rfl, hmore⟩

theorem unique {p r s : Bytes} {xs ys : List α} (a : F.Parses p xs r) (b : F.Parses p ys s)
    (hr : F.first r = none) (hs : F.first s = none) : xs = ys ∧ r = s := by
  obtain ⟨more, rfl, hmore⟩ := a.resume b hs
  cases hmore with
  | done => exact ⟨(List.append_nil xs).symm, rfl⟩
  | frame h _ => simp [h] at hr

theorem rest_eq {p q r : Bytes} {xs : List α} (a : F.Parses p xs q)
    (b : F.Parses p xs r) : q = r := by
  induction a with
  | done p =>
      cases b
      rfl
  | frame h _ ih =>
      cases b with
      | frame h' rest =>
          obtain ⟨-, rfl⟩ := Prod.mk.inj (Option.some.inj (h.symm.trans h'))
          exact ih rest

theorem locate {p : Bytes} {items : List α} (a : F.Parses p items []) {k : Nat}
    (hk : k < p.length) :
    ∃ f q xs x ys n, p = f ++ q ∧ items = xs ++ x :: ys ∧ F.Parses f xs [] ∧
      F.first q = some (x, n) ∧ F.Parses (q.drop n) ys [] ∧ f.length ≤ k ∧ k < f.length + n := by
  generalize hr : ([] : Bytes) = r at a
  induction a generalizing k with
  | done p =>
      subst hr
      simp at hk
  | @frame p r x n items h rest ih =>
      subst hr
      by_cases hkn : k < n
      · exact ⟨[], p, [], x, items, n, rfl, rfl, .done [], h, rest, Nat.zero_le k, by
          simpa using hkn⟩
      · have hin := F.inside h
        obtain ⟨f, q, xs, y, ys, m, hp, rfl, hf, hq, hys, hle, hlt⟩ :=
          ih (k := k - n) (by rw [List.length_drop]; omega) rfl
        have hlen : (p.take n).length = n := by rw [List.length_take]; omega
        refine ⟨p.take n ++ f, q, x :: xs, y, ys, m, ?_, rfl, ?_, hq, hys, ?_, ?_⟩
        · rw [List.append_assoc, ← hp, List.take_append_drop]
        · refine .frame (F.alone h f) ?_
          rwa [List.drop_left' hlen]
        · rw [List.length_append]; omega
        · rw [List.length_append]; omega

end Parses

end Framing

end ExchangeSim.Lib
