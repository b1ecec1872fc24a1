/- digest: Loops of a program with explicit passes, and the rule of invariants and variants. -/

import Mathlib.Data.Nat.Init

set_option autoImplicit false
set_option relaxedAutoImplicit false

namespace ExchangeSim.Lib.Loop

universe u v

/-- What one pass through a loop body decides: leave with a value, or go round
again in a new state. -/
inductive Pass (σ : Type u) (β : Type v) where
  | leave (value : β)
  | again (state : σ)

variable {σ : Type u} {β : Type v}

/-- A loop run for at most `fuel` passes. `none` means that it is still looping,
so a value witnesses that the loop ends. -/
def run (body : σ → Pass σ β) : Nat → σ → Option β
  | 0, _ => none
  | fuel + 1, s =>
      match body s with
      | .leave v => some v
      | .again t => run body fuel t

/-- A loop whose body may itself fail to return. -/
def runM (body : σ → Option (Pass σ β)) : Nat → σ → Option β
  | 0, _ => none
  | fuel + 1, s =>
      match body s with
      | none => none
      | some (.leave v) => some v
      | some (.again t) => runM body fuel t

theorem runM_leave {body : σ → Option (Pass σ β)} {s : σ} {v : β} (h : body s = some (.leave v))
    (fuel : Nat) : runM body (fuel + 1) s = some v := by
  simp [runM, h]

theorem runM_again {body : σ → Option (Pass σ β)} {s t : σ} (h : body s = some (.again t))
    (fuel : Nat) : runM body (fuel + 1) s = runM body fuel t := by
  simp [runM, h]

theorem run_leave {body : σ → Pass σ β} {s : σ} {v : β} (h : body s = .leave v) (fuel : Nat) :
    run body (fuel + 1) s = some v := by
  simp [run, h]

theorem run_again {body : σ → Pass σ β} {s t : σ} (h : body s = .again t) (fuel : Nat) :
    run body (fuel + 1) s = run body fuel t := by
  simp [run, h]

theorem run_eq_runM (body : σ → Pass σ β) (fuel : Nat) (s : σ) :
    run body fuel s = runM (fun s => some (body s)) fuel s := by
  induction fuel generalizing s with
  | zero => rfl
  | succ fuel ih =>
      cases hb : body s with
      | leave v => rw [run_leave hb, runM_leave (congrArg some hb)]
      | again t => rw [run_again hb, runM_again (congrArg some hb), ih]

/-- Total correctness of a loop: an invariant that every pass keeps, a variant that
every repeated pass decreases, and a postcondition that every leaving pass meets. -/
theorem run_total (body : σ → Pass σ β) (Inv : σ → Prop) (variant : σ → Nat) (Post : β → Prop)
    (leaves : ∀ s v, Inv s → body s = .leave v → Post v)
    (repeats : ∀ s t, Inv s → body s = .again t → Inv t ∧ variant t < variant s)
    (fuel : Nat) (s : σ) (start : Inv s) (enough : variant s < fuel) :
    ∃ v, run body fuel s = some v ∧ Post v := by
  induction fuel generalizing s with
  | zero => omega
  | succ fuel ih =>
      cases hb : body s with
      | leave v => exact ⟨v, run_leave hb fuel, leaves s v start hb⟩
      | again t =>
          obtain ⟨keep, less⟩ := repeats s t start hb
          rw [run_again hb]
          exact ih t keep (by omega)

end ExchangeSim.Lib.Loop
