/- digest: The risk gate does not read the names of orders, nor does it learn them. -/

import ExchangeSim.Book.Relabel
import ExchangeSim.Engine.RiskCalls

set_option autoImplicit false
set_option relaxedAutoImplicit false

namespace ExchangeSim.Engine

open Book (Relabel)

variable {B B' : Type}

namespace RiskGate

/-- The same gate in front of another engine. -/
def before (g : RiskGate B) (e : MatchingEngine B') : RiskGate B' :=
  ⟨e, g.cfg, g.lastPx, g.halted, g.haltAll, g.tat, g.interval, g.rejected⟩

theorem tap_relabel (ρ : Relabel) (numSymbols : UInt32) (lastPx : PageArray Price)
    (events : List Event) :
    (events.map ρ.event).foldl (tap numSymbols) lastPx = events.foldl (tap numSymbols) lastPx := by
  rw [List.foldl_map]
  rfl

theorem check_before (g : RiskGate B) {e : MatchingEngine B'}
    (hknown : e.numSymbols = g.engine.numSymbols) {c c' : Command}
    (hc : ∃ x, c' = { c with orderId := x }) :
    (g.before e).check c' = ((g.check c).1, (g.check c).2.before e) := by
  obtain ⟨x, rfl⟩ := hc
  have hearly : early (g.before e).engine.numSymbols (g.before e).cfg
      ((g.before e).view ({ c with orderId := x } : Command).symbol) { c with orderId := x } =
      early g.engine.numSymbols g.cfg (g.view c.symbol) c := by
    change early e.numSymbols g.cfg (g.view c.symbol) { c with orderId := x } = _
    rw [hknown]
    rfl
  rw [check_eq, check_eq, hearly]
  cases early g.engine.numSymbols g.cfg (g.view c.symbol) c with
  | some r => rfl
  | none =>
      dsimp only
      rw [rateLimit_eq, rateLimit_eq]
      by_cases hlimited : limited g.interval g.cfg.burst (g.tat c.owner.toNat) c.ts = true
      · rw [if_pos hlimited]
        exact if_pos hlimited
      · rw [if_neg hlimited]
        exact if_neg hlimited

variable [BookType B] [BookType B']

theorem process_before {g g' : RiskGate B} {e : MatchingEngine B'} {h' : RiskGate B'}
    (hknown : e.numSymbols = g.engine.numSymbols) {c c' : Command}
    (hc : ∃ x, c' = { c with orderId := x }) {ρ : Relabel} {events : List Event}
    (hrun : g.process c = some (g', events))
    (href : (g.before e).process c' = some (h', events.map ρ.event)) :
    h' = g'.before h'.engine := by
  have hcheck := check_before g hknown hc
  have hty : c'.type = c.type := by
    obtain ⟨x, rfl⟩ := hc
    rfl
  rcases process_cases hrun with ⟨hcancel, hstop, -, rfl⟩ | ⟨hpass, engine, -, rfl⟩
  · rcases process_cases href with ⟨-, -, -, rfl⟩ | ⟨hpass', -⟩
    · rw [hcheck]
      rfl
    · rw [hty, hcheck] at hpass'
      exact absurd hpass' (not_or.mpr ⟨hcancel, hstop⟩)
  · rcases process_cases href with ⟨hcancel', hstop', -, -⟩ | ⟨-, engine', -, rfl⟩
    · rw [hty] at hcancel'
      rw [hcheck] at hstop'
      exact absurd hpass (not_or.mpr ⟨hcancel', hstop'⟩)
    · rw [tap_relabel, hcheck, hty, before, hknown.symm]
      split <;> rfl

end RiskGate
end ExchangeSim.Engine
