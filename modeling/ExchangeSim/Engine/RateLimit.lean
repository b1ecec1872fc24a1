/- digest: The rate limit of the risk gate over whole runs: a bound for every window, no refusal of
   an owner that keeps its distance, and no influence of the others. -/

import ExchangeSim.Engine.RiskCalls
import ExchangeSim.Lib.Gcra

set_option autoImplicit false
set_option relaxedAutoImplicit false

namespace ExchangeSim.Engine.RiskGate

open Lib

variable {B : Type}

/-! ### One owner -/

/-- What the gate decides on a command, and the owner's arrival time after it. -/
def verdict (numSymbols : UInt32) (cfg : RiskConfig) (interval tat : UInt64) (v : View)
    (c : Command) : Reason × UInt64 :=
  match early numSymbols cfg v c with
  | some r => (r, tat)
  | none => if limited interval cfg.burst tat c.ts then (.riskRateLimit, tat)
      else (.none, arrival interval tat c.ts)

theorem check_verdict (g : RiskGate B) (c : Command) :
    let d := verdict g.engine.numSymbols g.cfg g.interval (g.tat c.owner.toNat) (g.view c.symbol) c
    g.check c = (d.1, { g with tat := Function.update g.tat c.owner.toNat d.2 }) := by
  rw [check_eq]
  simp only [verdict]
  cases early g.engine.numSymbols g.cfg (g.view c.symbol) c with
  | some r => simp only [Function.update_eq_self]
  | none =>
      simp only [rateLimit_eq]
      split
      · simp only [Function.update_eq_self]
      · rfl

theorem check_tat (g : RiskGate B) (c : Command) (o : OwnerId) :
    (g.check c).2.tat o.toNat = if c.owner = o then
    (verdict g.engine.numSymbols g.cfg g.interval (g.tat o.toNat) (g.view c.symbol) c).2
      else g.tat o.toNat := by
  rw [check_verdict]
  split
  · rename_i ho
    rw [← ho]
    exact Function.update_self ..
  · rename_i ho
    exact Function.update_of_ne (fun hx => ho (UInt32.toNat_inj.mp hx.symm)) ..

structure Decision where
  command : Command
  seen : View
  verdict : Reason

/-- The decisions on the commands of one owner, from what the gate saw at each. -/
def judge (numSymbols : UInt32) (cfg : RiskConfig) (interval : UInt64) :
    UInt64 → List (Command × View) → List Decision
  | _, [] => []
  | tat, (c, v) :: rest =>
      ⟨c, v, (verdict numSymbols cfg interval tat v c).1⟩ ::
        judge numSymbols cfg interval (verdict numSymbols cfg interval tat v c).2 rest

/-- The command gets as far as the rate check. -/
def reaches (numSymbols : UInt32) (cfg : RiskConfig) (c : Command) (v : View) : Bool :=
  (early numSymbols cfg v c).isNone

/-- The slack of the code without wrapping: `burst` messages may arrive together. -/
def depth (cfg : RiskConfig) : Nat := max cfg.burst.toNat 1

theorem limited_iff {interval : UInt64} {cfg : RiskConfig} (tat ts : UInt64) (hpos : 0 < interval)
    (hdepth : interval.toNat * depth cfg < 2 ^ 64) : limited interval cfg.burst tat ts = false ↔
      tat.toNat ≤ ts.toNat + interval.toNat * (depth cfg - 1) := by
  have hne : interval ≠ 0 := by
    intro h
    rw [h] at hpos
    exact absurd hpos (by decide)
  have hslack :
      (interval * (if cfg.burst ≠ 0 then cfg.burst - 1 else 0)).toNat =
      interval.toNat * (depth cfg - 1) := by
    have hlt : interval.toNat * (depth cfg - 1) < 2 ^ 64 :=
      (Nat.mul_le_mul_left _ (Nat.sub_le _ _)).trans_lt hdepth
    have hburst : (if cfg.burst ≠ 0 then cfg.burst - 1 else 0 : UInt64).toNat = depth cfg - 1 := by
      rw [depth]
      split
      · rename_i hb
        have h1 : 1 ≤ cfg.burst.toNat :=
          Nat.one_le_iff_ne_zero.mpr fun h => hb (UInt64.toNat_inj.mp h)
        rw [UInt64.toNat_sub_of_le _ _
          (UInt64.le_iff_toNat_le.mpr (show (1 : UInt64).toNat ≤ _ from h1)), max_eq_left h1]
        rfl
      · rename_i hb
        rw [not_not.mp hb]
        rfl
    rw [UInt64.toNat_mul, hburst, Nat.mod_eq_of_lt hlt]
  simp only [limited, ne_eq, hne, not_false_eq_true, true_and, decide_eq_false_iff_not,
    UInt64.lt_iff_toNat_lt]
  simp only [ne_eq] at hslack
  generalize interval * (if ¬ cfg.burst = 0 then cfg.burst - 1 else 0) = slack at *
  rw [apply_ite UInt64.toNat]
  split
  · rename_i hlt
    rw [hslack] at hlt
    rw [UInt64.toNat_sub_of_le _ _ (UInt64.le_iff_toNat_le.mpr (by rw [hslack]; exact hlt.le)),
      hslack]
    omega
  · rename_i hlt
    rw [hslack] at hlt
    have : (0 : UInt64).toNat = 0 := rfl
    omega

theorem arrival_toNat {interval : UInt64} (tat ts : UInt64) (hpos : 0 < interval)
    (htat : tat.toNat + interval.toNat < 2 ^ 64) (hts : ts.toNat + interval.toNat < 2 ^ 64) :
    (arrival interval tat ts).toNat = max ts.toNat tat.toNat + interval.toNat := by
  have hne : interval ≠ 0 := by
    intro h
    rw [h] at hpos
    exact absurd hpos (by decide)
  rw [arrival, if_pos hne, UInt64.toNat_add, apply_ite UInt64.toNat]
  simp only [UInt64.lt_iff_toNat_lt]
  split
  · rw [Nat.mod_eq_of_lt htat]
    omega
  · rw [Nat.mod_eq_of_lt hts]
    omega

structure NoWrap (interval : UInt64) (cfg : RiskConfig) (times : List UInt64) : Prop where
  depth : interval.toNat * depth cfg < 2 ^ 64
  times : ∀ ts ∈ times, ts.toNat + times.length * interval.toNat < 2 ^ 64

/-- Without wrapping, the commands that reach the rate check are judged by the algorithm over
unbounded times. -/
theorem judge_reaching (numSymbols : UInt32) (cfg : RiskConfig) {interval : UInt64} (tat : UInt64)
    (hpos : 0 < interval) (l : List (Command × View))
    (hwrap : NoWrap interval cfg
      ((l.filter fun x => reaches numSymbols cfg x.1 x.2).map fun x => x.1.ts))
    (htat : tat.toNat + (l.filter fun x => reaches numSymbols cfg x.1 x.2).length *
      interval.toNat < 2 ^ 64) :
    ((judge numSymbols cfg interval tat l).filter fun d =>
      reaches numSymbols cfg d.command d.seen).map
        (fun d => (d.command.ts.toNat, decide (d.verdict ≠ .riskRateLimit))) =
      Gcra.run interval.toNat (interval.toNat * (depth cfg - 1)) tat.toNat
        ((l.filter fun x => reaches numSymbols cfg x.1 x.2).map fun x => x.1.ts.toNat) := by
  induction l generalizing tat with
  | nil => rfl
  | cons x rest ih =>
      obtain ⟨c, v⟩ := x
      rw [judge]
      by_cases hreach : reaches numSymbols cfg c v = true
      · have hearly : early numSymbols cfg v c = none := Option.isNone_iff_eq_none.mp hreach
        have hkept : ((c, v) :: rest).filter (fun x => reaches numSymbols cfg x.1 x.2) =
            (c, v) :: rest.filter fun x => reaches numSymbols cfg x.1 x.2 :=
              List.filter_cons_of_pos hreach
        rw [hkept] at hwrap htat
        rw [hkept, List.filter_cons_of_pos (by exact hreach), List.map_cons,
          List.map_cons, Gcra.run]
        rw [List.length_cons, Nat.succ_mul] at htat
        have hts := hwrap.times c.ts (by rw [List.map_cons]; exact List.mem_cons_self ..)
        rw [List.length_map, List.length_cons, Nat.succ_mul] at hts
        have hrest :
            NoWrap interval cfg ((rest.filter fun x => reaches numSymbols cfg x.1 x.2).map fun x =>
              x.1.ts) := by
          refine ⟨hwrap.depth, fun ts hmem => ?_⟩
          have := hwrap.times ts (by rw [List.map_cons]; exact List.mem_cons_of_mem _ hmem)
          rw [List.map_cons, List.length_cons, Nat.succ_mul] at this
          omega
        have hlimited := limited_iff tat c.ts hpos hwrap.depth
        have harrival := arrival_toNat tat c.ts hpos (by omega) (by omega)
        simp only [verdict, hearly]
        by_cases hpass : limited interval cfg.burst tat c.ts = true
        · have hfar : ¬ tat.toNat ≤ c.ts.toNat + interval.toNat * (depth cfg - 1) := by
            rw [← hlimited, hpass]
            exact Bool.noConfusion
          rw [if_pos hpass, Gcra.next, if_neg hfar]
          have htail := ih tat hrest (by omega)
          refine congrArg₂ List.cons ?_ htail
          rw [decide_eq_false hfar]
          rfl
        · rw [Bool.not_eq_true] at hpass
          have hnear := hlimited.mp hpass
          rw [hpass, if_neg Bool.false_ne_true, Gcra.next, if_pos hnear, ← harrival]
          refine congrArg₂ List.cons ?_ (ih _ hrest (by rw [harrival]; omega))
          rw [decide_eq_true hnear]
          rfl
      · have hskip : ((c, v) :: rest).filter (fun x => reaches numSymbols cfg x.1 x.2) =
            rest.filter fun x => reaches numSymbols cfg x.1 x.2 := List.filter_cons_of_neg hreach
        rw [hskip] at hwrap htat
        rw [hskip, List.filter_cons_of_neg (by exact hreach)]
        have hkeep : (verdict numSymbols cfg interval tat v c).2 = tat := by
          rw [verdict]
          split
          · rfl
          · rename_i hearly
            exact absurd (Option.isNone_iff_eq_none.mpr hearly) hreach
        rw [hkeep]
        exact ih tat hwrap htat

theorem judge_limited {numSymbols : UInt32} {cfg : RiskConfig} {interval tat : UInt64}
    {l : List (Command × View)} {d : Decision} (hd : d ∈ judge numSymbols cfg interval tat l)
    (hlimit : d.verdict = .riskRateLimit) :
    reaches numSymbols cfg d.command d.seen = true := by
  induction l generalizing tat with
  | nil => cases hd
  | cons x rest ih =>
      rw [judge] at hd
      rcases List.mem_cons.mp hd with rfl | hd
      · simp only [verdict] at hlimit
        split at hlimit
        · rename_i r hearly
          simp only at hlimit
          subst hlimit
          rw [early] at hearly
          repeat' (split at hearly)
          all_goals cases hearly
        · rename_i hearly
          exact Option.isNone_iff_eq_none.mpr hearly
      · exact ih hd

/-! ### Runs -/

variable [BookType B]

/-- The decision on a new order or a modification. -/
def decision (g : RiskGate B) : GateCall → List Decision
  | .process c => if c.type = .cancel then [] else [⟨c, g.view c.symbol, (g.check c).1⟩]
  | .halt _ | .resume _ | .haltAll _ => []

/-- The decisions of a run, in order. -/
def decisions (g : RiskGate B) : List GateCall → List Decision
  | [] => []
  | k :: ks => g.decision k ++ match g.call k with
      | some (g, _) => g.decisions ks
      | none => []

def decisionsOf (o : OwnerId) (l : List Decision) : List Decision :=
  l.filter fun d => d.command.owner = o

/-- The owner's commands with what the gate saw at each. -/
def askedBy (o : OwnerId) (l : List Decision) : List (Command × View) :=
  (decisionsOf o l).map fun d => (d.command, d.seen)

/-- The decisions on the owner's commands that reached the rate check. -/
def rated (numSymbols : UInt32) (cfg : RiskConfig) (o : OwnerId)
    (l : List Decision) : List Decision :=
  (decisionsOf o l).filter fun d => reaches numSymbols cfg d.command d.seen

theorem call_tat {g g' : RiskGate B} {k : GateCall} {events : List Event}
    (h : g.call k = some (g', events)) :
    g'.tat = match k with
      | .process c => if c.type = .cancel then g.tat else (g.check c).2.tat
      | .halt _ | .resume _ | .haltAll _ => g.tat := by
  cases k with
  | process c =>
      rcases process_cases h with ⟨hty, _, _, rfl⟩ | ⟨_, engine, _, rfl⟩
      · simp only [if_neg hty]
      · rfl
  | halt s =>
      cases h
      simp only [halt]
      split
      · rfl
      · rfl
  | resume s =>
      cases h
      simp only [resume]
      split
      · rfl
      · rfl
  | haltAll on =>
      cases h
      rfl

/-- One call: the owner's command, if it is one, is judged from the owner's arrival time, which the
call then moves. -/
theorem decision_judge (g : RiskGate B) (k : GateCall) (o : OwnerId) :
    ∃ tat, (∀ g' events, g.call k = some (g', events) → g'.tat o.toNat = tat) ∧ ∀ rest,
      judge g.engine.numSymbols g.cfg g.interval (g.tat o.toNat)
        (askedBy o (g.decision k) ++ rest) =
        decisionsOf o (g.decision k) ++ judge g.engine.numSymbols g.cfg g.interval tat rest := by
  cases k with
  | process c =>
      by_cases hty : c.type = .cancel
      · refine ⟨g.tat o.toNat, fun g' events h => ?_, fun rest => ?_⟩
        · rw [call_tat h]
          simp only [if_pos hty]
        · simp only [decision, if_pos hty]
          rfl
      · refine ⟨(g.check c).2.tat o.toNat, fun g' events h => ?_, fun rest => ?_⟩
        · rw [call_tat h]
          simp only [if_neg hty]
        · simp only [decision, if_neg hty, askedBy, decisionsOf]
          rw [check_tat]
          by_cases ho : c.owner = o
          · rw [if_pos ho, List.filter_cons_of_pos (by exact decide_eq_true ho), List.filter_nil,
              List.map_singleton, List.singleton_append, judge, check_verdict, ho]
            rfl
          · rw [if_neg ho, List.filter_cons_of_neg (by simpa using ho), List.filter_nil,
              List.map_nil, List.nil_append, List.nil_append]
  | halt s => exact ⟨g.tat o.toNat, fun g' events h => by rw [call_tat h], fun rest => rfl⟩
  | resume s => exact ⟨g.tat o.toNat, fun g' events h => by rw [call_tat h], fun rest => rfl⟩
  | haltAll on => exact ⟨g.tat o.toNat, fun g' events h => by rw [call_tat h], fun rest => rfl⟩

theorem decisionsOf_judge (g : RiskGate B) (ks : List GateCall) (o : OwnerId) :
    decisionsOf o (g.decisions ks) =
      judge g.engine.numSymbols g.cfg g.interval (g.tat o.toNat) (askedBy o (g.decisions ks)) := by
  induction ks generalizing g with
  | nil => rfl
  | cons k ks ih =>
      obtain ⟨tat, htat, hjudge⟩ := g.decision_judge k o
      have hasked : ∀ l m : List Decision, askedBy o (l ++ m) = askedBy o l ++ askedBy o m := by
        intro l m
        rw [askedBy, decisionsOf, List.filter_append, List.map_append]
        rfl
      rw [decisions, hasked, hjudge, decisionsOf, List.filter_append]
      refine congrArg _ ?_
      cases hcall : g.call k with
      | none => rfl
      | some r =>
          obtain ⟨g', events⟩ := r
          obtain ⟨h1, h2, h3, _⟩ := call_spec hcall
          rw [← htat g' events hcall, ← h1, ← h2, ← h3]
          exact ih g'

/-- Without wrapping, the commands of an owner that reach the rate check are judged by the algorithm
over unbounded times. -/
theorem rated_run (engine : MatchingEngine B) (cfg : RiskConfig) (ks : List GateCall) (o : OwnerId)
    (hpos : 0 < (make engine cfg).interval)
    (hwrap : NoWrap (make engine cfg).interval cfg
      ((rated engine.numSymbols cfg o ((make engine cfg).decisions ks)).map fun d =>
        d.command.ts)) :
    (rated engine.numSymbols cfg o ((make engine cfg).decisions ks)).map
        (fun d => (d.command.ts.toNat, decide (d.verdict ≠ .riskRateLimit))) =
      Gcra.run (make engine cfg).interval.toNat
        ((make engine cfg).interval.toNat * (depth cfg - 1)) 0
        ((rated engine.numSymbols cfg o ((make engine cfg).decisions ks)).map fun d =>
          d.command.ts.toNat) := by
  generalize hl : (make engine cfg).decisions ks = l at *
  have hasked : ((askedBy o l).filter fun x => reaches engine.numSymbols cfg x.1 x.2) =
      (rated engine.numSymbols cfg o l).map fun d => (d.command, d.seen) := List.filter_map
  have hjudge : decisionsOf o l = judge engine.numSymbols cfg
      (make engine cfg).interval 0 (askedBy o l) := by
    rw [← hl]
    exact (make engine cfg).decisionsOf_judge ks o
  have hrun := judge_reaching engine.numSymbols cfg 0 hpos (askedBy o l) (by
    rw [hasked, List.map_map]
    exact hwrap) (by
    rw [hasked, List.length_map]
    -- the first time is at least 0, the arrival time of an owner that has sent nothing
    cases hr : rated engine.numSymbols cfg o l with
    | nil =>
        rw [List.length_nil, Nat.zero_mul]
        decide
    | cons d rest =>
        rw [hr] at hwrap
        have := hwrap.times d.command.ts (List.mem_cons_self ..)
        rw [List.length_map] at this
        have hzero : (0 : UInt64).toNat = 0 := rfl
        omega)
  rw [← hjudge, hasked, List.map_map] at hrun
  exact hrun

/-- In every run, for every owner whose times do not wrap around: any window lets no more through
than the burst and one command an interval; an owner whose commands are an interval apart is not
refused for its rate; and the decisions are the same in every run, of any engine with as many
symbols, in which the owner sends the same commands and the gate sees the same last price and halts
at each. -/
theorem rate_limit {D : Type} [BookType D] (engine : MatchingEngine B) (cfg : RiskConfig)
    (ks : List GateCall) (o : OwnerId) (hpos : 0 < (make engine cfg).interval)
    (hwrap : NoWrap (make engine cfg).interval cfg
      ((rated engine.numSymbols cfg o ((make engine cfg).decisions ks)).map fun d =>
        d.command.ts)) :
    (∀ a b : Nat, ((rated engine.numSymbols cfg o ((make engine cfg).decisions ks)).countP fun d =>
        d.verdict ≠ .riskRateLimit ∧ a ≤ d.command.ts.toNat ∧ d.command.ts.toNat ≤ b) ≤
      max cfg.burst.toNat 1 + (b - a) / (make engine cfg).interval.toNat) ∧
    (((rated engine.numSymbols cfg o ((make engine cfg).decisions ks)).IsChain fun d e =>
        d.command.ts.toNat + (make engine cfg).interval.toNat ≤ e.command.ts.toNat) →
      ∀ d ∈ decisionsOf o ((make engine cfg).decisions ks), d.verdict ≠ .riskRateLimit) ∧
    (∀ (engine' : MatchingEngine D) (ks' : List GateCall), engine'.numSymbols = engine.numSymbols →
      askedBy o ((make engine' cfg).decisions ks') = askedBy o ((make engine cfg).decisions ks) →
      (decisionsOf o ((make engine' cfg).decisions ks')).map (·.verdict) =
        (decisionsOf o ((make engine cfg).decisions ks)).map (·.verdict)) := by
  have hrun := rated_run engine cfg ks o hpos hwrap
  refine ⟨fun a b => ?_, fun hspaced d hd hlimit => ?_, fun engine' ks' hnum hasked => ?_⟩
  · have hle := Gcra.passed_le _ _ a b 0 (UInt64.lt_iff_toNat_lt.mp hpos)
      (Nat.le_max_right cfg.burst.toNat 1)
      ((rated engine.numSymbols cfg o ((make engine cfg).decisions ks)).map fun d =>
        d.command.ts.toNat)
    rw [depth] at hrun
    rw [← hrun, Gcra.passed, List.countP_map] at hle
    refine le_of_eq_of_le (List.countP_congr fun d _ => ?_) hle
    simp only [Function.comp_apply, Bool.and_eq_true, decide_eq_true_eq]
  · have hreach : reaches engine.numSymbols cfg d.command d.seen = true := by
      rw [decisionsOf_judge] at hd
      exact judge_limited hd hlimit
    have hmem : d ∈ rated engine.numSymbols cfg o ((make engine cfg).decisions ks) :=
      List.mem_filter.mpr ⟨hd, hreach⟩
    have hpass := Gcra.run_spaced _ ((make engine cfg).interval.toNat * (depth cfg - 1)) 0 _
      (fun _ _ => Nat.zero_le _) ((List.isChain_map fun d : Decision =>
        d.command.ts.toNat).mpr hspaced)
    rw [← hrun] at hpass
    exact of_decide_eq_true (hpass _ (List.mem_map_of_mem hmem)) hlimit
  · rw [decisionsOf_judge, decisionsOf_judge, hasked]
    have hn : (make engine' cfg).engine.numSymbols = (make engine cfg).engine.numSymbols := hnum
    rw [hn]
    rfl

/-- Orders of owner 0, one every `gap` ticks, on the book of `ladder`. -/
def orders (gap : UInt64) (n : Nat) : List GateCall :=
  (List.range n).map fun i =>
    .process { order (UInt64.ofNat i) .buy 10 with ts := gap * UInt64.ofNat i }

/-- Three orders at once against a burst of two. -/
theorem rate_limit_burst :
    ((rated 1 { ratePerSec := 1, ticksPerSec := 10, burst := 2 } 0
      ((make ladder { ratePerSec := 1, ticksPerSec := 10, burst := 2 }).decisions
          (orders 0 3))).countP fun d =>
        d.verdict ≠ .riskRateLimit ∧ 0 ≤ d.command.ts.toNat ∧ d.command.ts.toNat ≤ 9) ≤ 2 := by
  have htimes : ((rated 1 { ratePerSec := 1, ticksPerSec := 10, burst := 2 } 0
      ((make ladder { ratePerSec := 1, ticksPerSec := 10, burst := 2 }).decisions (orders 0 3))).map
          fun d =>
        d.command.ts) = [0, 0, 0] := by
    decide +kernel
  have hwrap : NoWrap (make ladder { ratePerSec := 1, ticksPerSec := 10, burst := 2 }).interval
      { ratePerSec := 1, ticksPerSec := 10, burst := 2 } [0, 0, 0] := by
    refine ⟨by decide, fun ts hts => ?_⟩
    have hzero : ts = 0 := by simpa using hts
    rw [hzero]
    decide
  rw [← htimes] at hwrap
  exact (rate_limit (D := Book.OrderBook Book.AosStore) ladder
    { ratePerSec := 1, ticksPerSec := 10, burst := 2 }
    (orders 0 3) 0 (by decide) hwrap).1 0 9

end ExchangeSim.Engine.RiskGate
