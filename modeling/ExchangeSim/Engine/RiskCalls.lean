/- digest: Runs of the risk gate, and the price collar: it applies after a trade, unless the trade
   was at price 0 or the distance wraps. -/

import ExchangeSim.Engine.RiskGate
import Mathlib.Data.List.Induction

set_option autoImplicit false
set_option relaxedAutoImplicit false

namespace ExchangeSim.Engine

/-- What is done with a gate: commands, and the halts and resumes of an operator. -/
inductive GateCall where
  | process (c : Command)
  | halt (s : SymbolId)
  | resume (s : SymbolId)
  | haltAll (on : Bool)

namespace RiskGate

variable {B : Type}

/-! ### A check, step by step -/

structure View where
  last : Price
  stopped : Bool
  deriving DecidableEq

def view (g : RiskGate B) (s : SymbolId) : View := ⟨g.lastPx s.toNat, g.haltAll || g.halted s.toNat⟩

/-- The verdict that is reached before the rate check, if any. -/
def early (numSymbols : UInt32) (cfg : RiskConfig) (v : View) (c : Command) : Option Reason :=
  if numSymbols ≤ c.symbol then some .none
  else if v.stopped then some .riskHalted
  else if cfg.maxQty < c.qty then some .riskMaxQty
  else if (c.type = .modify ∨ c.ordType = .limit) ∧ overNotional cfg c then some .riskMaxNotional
  else if (c.type = .modify ∨ c.ordType = .limit) ∧ outsideCollar cfg v.last c then some .riskCollar
  else if c.type = .newOrder ∨ c.type = .modify then
    if cfg.maxOwners ≤ c.owner then some .unknownOwner else none
  else some .none

/-- The rate check refuses a message with this time. -/
def limited (interval burst tat ts : UInt64) : Bool :=
  let slack := interval * (if burst ≠ 0 then burst - 1 else 0)
  interval ≠ 0 ∧ ts < (if slack < tat then tat - slack else 0)

/-- The arrival time after a message that is not refused. -/
def arrival (interval tat ts : UInt64) : UInt64 :=
  if interval ≠ 0 then (if ts < tat then tat else ts) + interval else tat

theorem rateLimit_eq (g : RiskGate B) (c : Command) : g.rateLimit c =
    if limited g.interval g.cfg.burst (g.tat c.owner.toNat) c.ts then (.riskRateLimit, g)
    else
      (.none, { g with
        tat := Function.update g.tat c.owner.toNat
          (arrival g.interval (g.tat c.owner.toNat) c.ts) }) := by
  by_cases hz : g.interval = 0
  · have htat : Function.update g.tat c.owner.toNat
        (arrival g.interval (g.tat c.owner.toNat) c.ts) = g.tat := by
      rw [arrival, if_neg (not_not.mpr hz), Function.update_eq_self]
    rw [rateLimit, if_neg (not_not.mpr hz), if_neg (by simp [limited, hz]), htat]
  · simp [rateLimit, limited, arrival, hz]

theorem check_eq (g : RiskGate B) (c : Command) : g.check c =
    match early g.engine.numSymbols g.cfg (g.view c.symbol) c with
    | some r => (r, g)
    | none => g.rateLimit c := by
  have hstop : (g.haltAll = true ∨ g.halted c.symbol.toNat = true) ↔
      (g.view c.symbol).stopped = true := by
    rw [view, Bool.or_eq_true]
  simp only [check, early, hstop]
  by_cases h1 : g.engine.numSymbols ≤ c.symbol
  · simp only [if_pos h1]
  by_cases h2 : (g.view c.symbol).stopped = true
  · simp only [if_neg h1, if_pos h2]
  by_cases h3 : g.cfg.maxQty < c.qty
  · simp only [if_neg h1, if_neg h2, if_pos h3]
  simp only [if_neg h1, if_neg h2, if_neg h3]
  by_cases h4 : (c.type = .modify ∨ c.ordType = .limit) ∧ overNotional g.cfg c = true
  · simp only [if_pos h4]
  by_cases h5 : (c.type = .modify ∨ c.ordType = .limit) ∧
    outsideCollar g.cfg (g.view c.symbol).last c = true
  · simp only [if_neg h4, if_pos h5]
    rw [view] at h5
    rw [if_pos h5]
  simp only [if_neg h4, if_neg h5]
  rw [view] at h5
  rw [if_neg h5]
  by_cases h6 : c.type = .newOrder ∨ c.type = .modify
  · by_cases h7 : g.cfg.maxOwners ≤ c.owner
    · simp only [if_pos h6, if_pos h7]
    · simp only [if_pos h6, if_neg h7]
  · simp only [if_neg h6]

theorem check_same (g : RiskGate B) (c : Command) :
    ∃ tat, (g.check c).2 = { g with tat := tat } := by
  rw [check_eq]
  split
  · exact ⟨g.tat, rfl⟩
  · rw [rateLimit_eq]
    split
    · exact ⟨g.tat, rfl⟩
    · exact ⟨_, rfl⟩

/-! ### Runs -/

variable [BookType B]

def call (g : RiskGate B) : GateCall → Option (RiskGate B × List Event)
  | .process c => g.process c
  | .halt s => some (g.halt s, [])
  | .resume s => some (g.resume s, [])
  | .haltAll on => some (g.setHaltAll on, [])

/-- Calls in a row, with all their events. -/
def run (g : RiskGate B) : List GateCall → Option (RiskGate B × List Event)
  | [] => some (g, [])
  | k :: ks => do
      let (g, events) ← g.call k
      let (g, more) ← g.run ks
      return (g, events ++ more)

theorem process_cases {g g' : RiskGate B} {c : Command} {events : List Event}
    (h : g.process c = some (g', events)) :
    (c.type ≠ .cancel ∧ (g.check c).1 ≠ .none ∧ events = [rejectedEvent c (g.check c).1] ∧
      g' = { g with tat := (g.check c).2.tat, rejected := g.rejected + 1 }) ∨
    ((c.type = .cancel ∨ (g.check c).1 = .none) ∧ ∃ engine,
      g.engine.process c = some (engine, events) ∧
      g' = { g with
        engine := engine
        lastPx := events.foldl (tap g.engine.numSymbols) g.lastPx
        tat := if c.type = .cancel then g.tat else (g.check c).2.tat }) := by
  obtain ⟨tat, htat⟩ := g.check_same c
  rw [process] at h
  by_cases hty : c.type = .cancel
  · simp only [hty, ne_eq, not_true_eq_false, if_false] at h
    obtain ⟨⟨engine, evs⟩, he, heq⟩ := Option.map_eq_some_iff.mp h
    obtain ⟨rfl, rfl⟩ := Prod.mk.inj heq
    exact .inr ⟨.inl hty, engine, he, by rw [if_pos hty]⟩
  · simp only [ne_eq, hty, not_false_eq_true, if_true, htat] at h
    split at h
    · rename_i hr
      obtain ⟨rfl, rfl⟩ := Prod.mk.inj (Option.some.inj h)
      exact .inl ⟨hty, hr, rfl, by rw [htat]⟩
    · rename_i hr
      rw [not_not] at hr
      obtain ⟨⟨engine, evs⟩, he, heq⟩ := Option.map_eq_some_iff.mp h
      obtain ⟨rfl, rfl⟩ := Prod.mk.inj heq
      exact .inr ⟨.inr hr, engine, he, by rw [if_neg hty, htat]⟩

theorem engine_numSymbols {e e' : MatchingEngine B} {c : Command} {events : List Event}
    (h : e.process c = some (e', events)) :
    e'.numSymbols = e.numSymbols := by
  rw [MatchingEngine.process] at h
  split at h
  · cases h
    rfl
  · obtain ⟨r, _, heq⟩ := Option.map_eq_some_iff.mp h
    cases heq
    rfl

/-! ### The reference price -/

/-- The price of the last trade of the symbol. -/
def lastTrade (s : SymbolId) (events : List Event) : Option Price :=
  ((events.filter fun e => e.type = .trade ∧ e.symbol = s).getLast?).map Event.price

theorem foldl_tap (numSymbols : UInt32) (lastPx : PageArray Price) (events : List Event)
    {s : SymbolId} (hs : s < numSymbols) :
    events.foldl (tap numSymbols) lastPx s.toNat = (lastTrade s events).getD (lastPx s.toNat) := by
  induction events using List.reverseRecOn with
  | nil => rfl
  | append_singleton events e ih =>
      rw [List.foldl_append, List.foldl_cons, List.foldl_nil, lastTrade, List.filter_append, tap]
      by_cases hon : e.type = .trade ∧ e.symbol = s
      · rw [if_pos ⟨hon.1, by rw [hon.2]; exact hs⟩, hon.2, Function.update_self]
        simp [hon]
      · have hskip : List.filter (fun e => decide (e.type = .trade ∧ e.symbol = s)) [e] = [] := by
          simp [hon]
        rw [hskip, List.append_nil]
        split
        · rename_i htrade
          have hne : s.toNat ≠ e.symbol.toNat :=
            fun h => hon ⟨htrade.1, (UInt32.toNat_inj.mp h).symm⟩
          rw [Function.update_of_ne hne]
          exact ih
        · exact ih

theorem lastTrade_append (s : SymbolId) (events more : List Event) (d : Price) :
    (lastTrade s (events ++ more)).getD d = (lastTrade s more).getD
      ((lastTrade s events).getD d) := by
  rw [lastTrade, lastTrade, lastTrade, List.filter_append, List.getLast?_append]
  cases (more.filter fun e => e.type = .trade ∧ e.symbol = s).getLast? with
  | none => rfl
  | some e => rfl

theorem call_spec {g g' : RiskGate B} {k : GateCall} {events : List Event}
    (h : g.call k = some (g', events)) :
    g'.cfg = g.cfg ∧ g'.interval = g.interval ∧ g'.engine.numSymbols = g.engine.numSymbols ∧
      ∀ s, s < g.engine.numSymbols → g'.lastPx s.toNat = (lastTrade s events).getD
        (g.lastPx s.toNat) := by
  cases k with
  | process c =>
      rcases process_cases h with ⟨_, _, rfl, rfl⟩ | ⟨_, engine, he, rfl⟩
      · exact ⟨rfl, rfl, rfl, fun s _ => rfl⟩
      · exact ⟨rfl, rfl, engine_numSymbols he, fun s hs => foldl_tap _ _ _ hs⟩
  | halt s =>
      cases h
      rw [halt]
      split
      · exact ⟨rfl, rfl, rfl, fun s _ => rfl⟩
      · exact ⟨rfl, rfl, rfl, fun s _ => rfl⟩
  | resume s =>
      cases h
      rw [resume]
      split
      · exact ⟨rfl, rfl, rfl, fun s _ => rfl⟩
      · exact ⟨rfl, rfl, rfl, fun s _ => rfl⟩
  | haltAll on =>
      cases h
      exact ⟨rfl, rfl, rfl, fun s _ => rfl⟩

theorem run_spec {g g' : RiskGate B} {ks : List GateCall} {events : List Event}
    (h : g.run ks = some (g', events)) :
    g'.cfg = g.cfg ∧ g'.interval = g.interval ∧ g'.engine.numSymbols = g.engine.numSymbols ∧
      ∀ s, s < g.engine.numSymbols → g'.lastPx s.toNat = (lastTrade s events).getD
        (g.lastPx s.toNat) := by
  induction ks generalizing g events with
  | nil =>
      cases h
      exact ⟨rfl, rfl, rfl, fun s _ => rfl⟩
  | cons k ks ih =>
      rw [run] at h
      obtain ⟨⟨g₁, evs⟩, hcall, h⟩ := Option.bind_eq_some_iff.mp h
      obtain ⟨⟨g₂, more⟩, hrun, h⟩ := Option.bind_eq_some_iff.mp h
      cases h
      obtain ⟨h1, h2, h3, h4⟩ := ih hrun
      obtain ⟨k1, k2, k3, k4⟩ := call_spec hcall
      refine ⟨h1.trans k1, h2.trans k2, h3.trans k3, fun s hs => ?_⟩
      rw [lastTrade_append, h4 s (by rw [k3]; exact hs), k4 s hs]

/-! ### The collar -/

/-- The distance of two prices, without overflow. -/
def distance (p q : Price) : Nat := (p.toInt - q.toInt).natAbs

theorem outsideCollar_iff {cfg : RiskConfig} (hpos : 0 < cfg.collarTicks)
    (last : Price) (c : Command) :
    outsideCollar cfg last c = true ↔ last ≠ 0 ∧ cfg.collarTicks.toInt < distance c.price last ∧
      distance c.price last ≠ 2 ^ 63 ∧ distance c.price last + cfg.collarTicks.toInt < 2 ^ 64 := by
  have hne : cfg.collarTicks ≠ 0 := by
    intro h
    rw [h] at hpos
    exact absurd hpos (by decide)
  have hcollar := Int64.lt_iff_toInt_lt.mp hpos
  have hd : (c.price - last).toInt = (c.price.toInt - last.toInt).bmod (2 ^ 64) :=
    Int64.toInt_sub _ _
  have hn : (-(c.price - last)).toInt = (-(c.price - last).toInt).bmod (2 ^ 64) := Int64.toInt_neg _
  have hp := Int64.toInt_lt c.price
  have hp' := Int64.le_toInt c.price
  have hl := Int64.toInt_lt last
  have hl' := Int64.le_toInt last
  have hc := Int64.toInt_lt cfg.collarTicks
  have hzero : (0 : Int64).toInt = 0 := rfl
  rw [hzero] at hcollar
  simp only [outsideCollar, decide_eq_true_eq, ne_eq, hne, not_false_eq_true, true_and, distance]
  refine and_congr_right fun _ => ?_
  rw [Int64.lt_iff_toInt_lt]
  generalize c.price - last = d at *
  generalize cfg.collarTicks.toInt = C at *
  generalize c.price.toInt = p at *
  generalize last.toInt = l at *
  simp only [Int.bmod] at hd hn
  split
  · rename_i hneg
    rw [Int64.lt_iff_toInt_lt, hzero] at hneg
    rw [hn]
    generalize d.toInt = x at *
    omega
  · rename_i hneg
    rw [Int64.lt_iff_toInt_lt, hzero] at hneg
    generalize d.toInt = x at *
    omega

/-- Another check of the gate rejects the command. -/
def rejectsOtherwise (g : RiskGate B) (c : Command) : Bool :=
  (g.view c.symbol).stopped || g.cfg.maxQty < c.qty || overNotional g.cfg c ||
    g.cfg.maxOwners ≤ c.owner ||
    limited g.interval g.cfg.burst (g.tat c.owner.toNat) c.ts

structure Priced (numSymbols : UInt32) (c : Command) : Prop where
  known : c.symbol < numSymbols
  priced : c.type = .newOrder ∧ c.ordType = .limit ∨ c.type = .modify

/-- What the collar promises about a command when the last trade was at `last`: outside it the gate
rejects the command and the engine does not see it, and inside it is not the collar that rejects
it. -/
structure Collared (g : RiskGate B) (last : Price) (c : Command) : Prop where
  far : g.cfg.collarTicks.toInt < distance c.price last →
    ∃ g' r, r ≠ .none ∧ (g.check c).1 = r ∧ g.process c = some (g', [rejectedEvent c r]) ∧
    g'.engine = g.engine
  near : distance c.price last ≤ g.cfg.collarTicks.toInt → (g.check c).1 ≠ .riskCollar

omit [BookType B] in
theorem check_rejects_iff {g : RiskGate B} {c : Command} (hc : Priced g.engine.numSymbols c) :
    (g.check c).1 ≠ .none ↔
      g.rejectsOtherwise c = true ∨ outsideCollar g.cfg (g.lastPx c.symbol.toNat) c = true := by
  have hknown : ¬ g.engine.numSymbols ≤ c.symbol := UInt32.not_le.mpr hc.known
  have hpriced : c.type = .modify ∨ c.ordType = .limit := by
    rcases hc.priced with h | h
    · exact .inr h.2
    · exact .inl h
  have htype : c.type = .newOrder ∨ c.type = .modify := hc.priced.imp And.left id
  have hlast : (g.view c.symbol).last = g.lastPx c.symbol.toNat := rfl
  rw [check_eq, early, if_neg hknown, hlast, rejectsOtherwise]
  simp only [hpriced, htype, true_and, if_true, Bool.or_eq_true, decide_eq_true_eq]
  by_cases h2 : (g.view c.symbol).stopped = true
  · simp [h2]
  by_cases h3 : g.cfg.maxQty < c.qty
  · simp [h2, h3]
  by_cases h4 : overNotional g.cfg c = true
  · simp [h2, h3, h4]
  by_cases h5 : outsideCollar g.cfg (g.lastPx c.symbol.toNat) c = true
  · simp [h2, h3, h4, h5]
  by_cases h6 : g.cfg.maxOwners ≤ c.owner
  · simp [h2, h3, h4, h5, h6]
  simp only [h2, h3, h4, h5, h6, if_false, or_false]
  rw [rateLimit_eq]
  by_cases h7 : limited g.interval g.cfg.burst (g.tat c.owner.toNat) c.ts = true
  · simp [h7]
  · simp [h7]

omit [BookType B] in
theorem check_collar {g : RiskGate B} {c : Command} (h : (g.check c).1 = .riskCollar) :
    outsideCollar g.cfg (g.lastPx c.symbol.toNat) c = true := by
  rw [check_eq, early] at h
  by_contra hnot
  have hskip :
      ¬ ((c.type = .modify ∨ c.ordType = .limit) ∧
        outsideCollar g.cfg (g.view c.symbol).last c = true) :=
    fun hx => hnot hx.2
  rw [if_neg hskip] at h
  have hlimit : (g.rateLimit c).1 ≠ .riskCollar := by
    rw [rateLimit_eq]
    split
    · exact fun hx => nomatch hx
    · exact fun hx => nomatch hx
  split at h
  · rename_i hr
    simp only at h
    subst h
    repeat' (split at hr)
    all_goals cases hr
  · exact hlimit h

theorem process_rejected {g : RiskGate B} {c : Command} (hty : c.type ≠ .cancel)
    (hr : (g.check c).1 ≠ .none) :
    ∃ g', g.process c = some (g', [rejectedEvent c (g.check c).1]) ∧
    g'.engine = g.engine ∧ g'.cfg = g.cfg := by
  obtain ⟨tat, htat⟩ := g.check_same c
  refine ⟨{ g with tat := tat, rejected := g.rejected + 1 }, ?_, rfl, rfl⟩
  simp only [process, ne_eq, hty, not_false_eq_true, if_true, hr, htat]

theorem process_passed {g : RiskGate B} {c : Command}
    (hpass : c.type = .cancel ∨ (g.check c).1 = .none) {engine : MatchingEngine B}
    {events : List Event} (he : g.engine.process c = some (engine, events)) :
    ∃ g', g.process c = some (g', events) ∧ g'.engine = engine ∧ g'.cfg = g.cfg := by
  by_cases hty : c.type = .cancel
  · refine ⟨{ g with engine := engine, lastPx := events.foldl (tap g.engine.numSymbols) g.lastPx },
      ?_, rfl, rfl⟩
    simp only [process, hty, ne_eq, not_true_eq_false, if_false, he, Option.map_some]
  · obtain ⟨tat, htat⟩ := g.check_same c
    have hcheck : g.check c = (.none, { g with tat := tat }) :=
      Prod.ext (hpass.resolve_left hty) htat
    refine ⟨{ g with
      engine := engine, lastPx := events.foldl (tap g.engine.numSymbols) g.lastPx, tat := tat }, ?_,
        rfl, rfl⟩
    simp only [process, hty, ne_eq, not_false_eq_true, if_true, hcheck, not_true_eq_false, if_false,
      he, Option.map_some]

/-- After a trade at `last`, the collar keeps its promise about a command exactly if the price is
within the collar, another check rejects the command, or the trade was not at price 0 and the
distance does not wrap around. -/
theorem collar_applies (engine : MatchingEngine B) (cfg : RiskConfig)
    (hcollar : 0 < cfg.collarTicks) (ks : List GateCall) (g : RiskGate B) (events : List Event)
    (hrun : (make engine cfg).run ks = some (g, events)) (last : Price) (c : Command)
    (hc : Priced engine.numSymbols c) (htrade : lastTrade c.symbol events = some last) :
    Collared g last c ↔ distance c.price last ≤ cfg.collarTicks.toInt ∨
    g.rejectsOtherwise c = true ∨
      (last ≠ 0 ∧ distance c.price last ≠ 2 ^ 63 ∧
        distance c.price last + cfg.collarTicks.toInt < 2 ^ 64) := by
  obtain ⟨hcfg, _, hnum, hlast⟩ := run_spec hrun
  change g.cfg = cfg at hcfg
  change g.engine.numSymbols = engine.numSymbols at hnum
  have hpx : g.lastPx c.symbol.toNat = last := by
    rw [hlast c.symbol hc.known, htrade]
    rfl
  have hrej := check_rejects_iff (g := g) (c := c) (by rw [hnum]; exact hc)
  have hout := outsideCollar_iff hcollar last c
  rw [hpx, hcfg] at hrej
  have hty : c.type ≠ .cancel := by
    rcases hc.priced with h | h
    · rw [h.1]
      exact fun hx => nomatch hx
    · rw [h]
      exact fun hx => nomatch hx
  constructor
  · intro h
    by_cases hnear : distance c.price last ≤ cfg.collarTicks.toInt
    · exact .inl hnear
    refine .inr ?_
    obtain ⟨g', r, hr, hcheck, _⟩ := h.far (by rw [hcfg]; omega)
    rcases hrej.mp (by rw [hcheck]; exact hr) with hother | hcol
    · exact .inl hother
    · obtain ⟨h1, _, h3, h4⟩ := hout.mp hcol
      exact .inr ⟨h1, h3, h4⟩
  · intro h
    refine ⟨fun hfar => ?_, fun hnear hcheck => ?_⟩
    · rw [hcfg] at hfar
      have hrejected : (g.check c).1 ≠ .none := by
        rcases h with h | h | ⟨h1, h2, h3⟩
        · omega
        · exact hrej.mpr (.inl h)
        · exact hrej.mpr (.inr (hout.mpr ⟨h1, hfar, h2, h3⟩))
      obtain ⟨g', hg', heng, _⟩ := process_rejected hty hrejected
      exact ⟨g', _, hrejected, rfl, hg', heng⟩
    · have hcol := check_collar hcheck
      rw [hpx, hcfg] at hcol
      rw [hcfg] at hnear
      have := (hout.mp hcol).2.1
      omega

/-! ### A trade at price 0 -/

def ladder : MatchingEngine (Book.OrderBook Book.AosStore) :=
  ⟨1, fun s => .make Book.scatterHash (UInt32.ofNat s) { numLevels := 64, maxOrders := 4 }⟩

def order (id : OrderId) (side : Side) (price : Price) : Command :=
  { orderId := id, price := price, qty := 1, type := .newOrder, side := side }

/-- Two orders that trade. -/
def tradeAt (price : Price) : List GateCall :=
  [.process (order 1 .sell price), .process (order 2 .buy price)]

theorem order_priced (id : OrderId) (side : Side) (price : Price) :
    Priced 1 (order id side price) :=
  ⟨show (0 : UInt32) < 1 by decide, .inl ⟨rfl, rfl⟩⟩

theorem collar_applies_small : ∃ g events, (make ladder { collarTicks := 5 }).run
    (tradeAt 10) = some (g, events) ∧
    lastTrade 0 events = some 10 ∧ Collared g 10 (order 3 .buy 40) := by
  have hany : ((make ladder { collarTicks := 5 }).run (tradeAt 10)).any
      (fun r => lastTrade 0 r.2 = some 10) = true := by
    decide +kernel
  cases hrun : (make ladder { collarTicks := 5 }).run (tradeAt 10) with
  | none =>
      rw [hrun] at hany
      cases hany
  | some r =>
      obtain ⟨g, events⟩ := r
      rw [hrun] at hany
      have hlast : lastTrade 0 events = some 10 := of_decide_eq_true hany
      refine ⟨g, events, rfl, hlast, ?_⟩
      exact (collar_applies ladder { collarTicks := 5 } (by decide) (tradeAt 10) g events hrun 10
        (order 3 .buy 40)
        (order_priced 3 .buy 40) hlast).mpr (.inr (.inr (by decide)))

/-- After a trade at price 0 a bid 40 ticks away passes a collar of 5. -/
theorem collar_misses_zero : ∃ g events, (make ladder { collarTicks := 5 }).run
    (tradeAt 0) = some (g, events) ∧
    lastTrade 0 events = some 0 ∧ Priced 1 (order 3 .buy 40) ∧
    ¬ Collared g 0 (order 3 .buy 40) := by
  have hany : ((make ladder { collarTicks := 5 }).run (tradeAt 0)).any (fun r =>
      decide (lastTrade 0 r.2 = some 0) && decide ((r.1.check (order 3 .buy 40)).1 = .none) &&
        decide (r.1.cfg.collarTicks = 5)) = true := by
    decide +kernel
  cases hrun : (make ladder { collarTicks := 5 }).run (tradeAt 0) with
  | none =>
      rw [hrun] at hany
      cases hany
  | some r =>
      obtain ⟨g, events⟩ := r
      rw [hrun] at hany
      simp only [Option.any_some, Bool.and_eq_true, decide_eq_true_eq] at hany
      obtain ⟨⟨hlast, hpass⟩, hcfg⟩ := hany
      refine ⟨g, events, rfl, hlast, order_priced 3 .buy 40, fun h => ?_⟩
      obtain ⟨_, r, hr, hcheck, _⟩ := h.far (by rw [hcfg]; decide)
      exact hr (hcheck.symm.trans hpass)

end RiskGate
end ExchangeSim.Engine
