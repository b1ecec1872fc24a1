/- digest: The optimised book and the textbook book send the same events and hold the same
   orders. -/

import ExchangeSim.Book.Oracle

set_option autoImplicit false
set_option relaxedAutoImplicit false

namespace ExchangeSim.Book

namespace PriorityBook

variable {R : Rules} {A : PriorityBook} {Q : Nat}

section Volume

theorem totals_head_le {l : List Resting} {ix : Nat} {q : UInt64} {rest : List (Nat × UInt64)}
    (h : totals l = (ix, q) :: rest) (hv : volume l < 2 ^ 64) : q.toNat ≤ volume l := by
  induction l generalizing ix q rest with
  | nil => cases h
  | cons e es ih =>
      rw [volume_cons] at hv ⊢
      rw [totals] at h
      split at h
      · cases h
        omega
      · rename_i ix' q' rest' hes
        have := ih hes (by omega)
        split at h
        · cases h
          rw [UInt64.toNat_add]
          omega
        · cases h
          omega

theorem fillableTotals_eq (S : Side) (limit : Int) (owner : OwnerId) {l : List Resting}
    (hv : volume l < 2 ^ 64) (need : Qty) :
    fillableTotals S limit (totals l) need = fillableSeq S limit owner .none l need := by
  induction l generalizing need with
  | nil => rfl
  | cons e es ih =>
      rw [volume_cons] at hv
      have ih := ih (by omega)
      rw [totals, fillableSeq, if_neg (show ¬ (Stp.none ≠ .none ∧ e.owner = owner) by simp)]
      cases hes : totals es with
      | nil =>
          have hnil := ih (need - e.qty)
          rw [hes] at hnil
          simp only [fillableTotals, ← hnil]
      | cons p rest =>
          obtain ⟨ix, q⟩ := p
          have hq := totals_head_le hes (by omega)
          have hrec := ih (need - e.qty)
          rw [hes] at hrec
          simp only
          by_cases hix : ix = e.level
          · subst hix
            rw [if_pos rfl]
            simp only [fillableTotals] at hrec ⊢
            rw [← hrec]
            by_cases hin : inRange S limit e.level = true
            · simp only [hin, not_true_eq_false, if_false]
              have hsum : (e.qty + q).toNat = e.qty.toNat + q.toNat := by
                rw [UInt64.toNat_add]
                omega
              by_cases hfirst : need ≤ e.qty
              · rw [if_pos hfirst, if_pos]
                rw [UInt64.le_iff_toNat_le] at hfirst ⊢
                omega
              · have hsub : (need - e.qty).toNat = need.toNat - e.qty.toNat :=
                  UInt64.toNat_sub_of_le _ _ (UInt64.le_of_lt (UInt64.not_le.mp hfirst))
                have hboth : need ≤ e.qty + q ↔ need - e.qty ≤ q := by
                  rw [UInt64.le_iff_toNat_le] at hfirst ⊢
                  rw [UInt64.le_iff_toNat_le]
                  omega
                have hassoc : need - (e.qty + q) = need - e.qty - q := by grind
                simp only [if_neg hfirst, hboth, hassoc]
            · rw [if_pos hin, if_pos hin]
          · rw [if_neg hix, fillableTotals, hrec]

end Volume

/-- No resting order has more than this quantity. -/
def QtyLe (Q : Nat) (A : PriorityBook) : Prop := ∀ S, ∀ e ∈ A S, e.qty.toNat ≤ Q

theorem qtyLe_empty : QtyLe Q empty := fun _ _ he => nomatch he

theorem QtyLe.volume_lt (h : QtyLe Q A) (hcount : count A ≤ R.cfg.maxOrders)
    (hcap : Q * R.cfg.maxOrders < 2 ^ 64) (S : Side) : volume (A S) < 2 ^ 64 := by
  have hsum : ∀ l : List Resting, (∀ e ∈ l, e.qty.toNat ≤ Q) → volume l ≤ Q * l.length := by
    intro l hl
    induction l with
    | nil => simp [volume]
    | cons e es ih =>
        have := ih fun x hx => hl x (by simp [hx])
        have := hl e (by simp)
        rw [volume_cons, List.length_cons, Nat.mul_succ]
        omega
  have hlen : (A S).length ≤ R.cfg.maxOrders := by
    rw [count] at hcount
    cases S <;> omega
  calc volume (A S) ≤ Q * (A S).length := hsum _ (h S)
    _ ≤ Q * R.cfg.maxOrders := Nat.mul_le_mul_left Q hlen
    _ < 2 ^ 64 := hcap

theorem QtyLe.process (h : QtyLe Q A) (hsmall : R.cfg.numLevels ≤ 2 ^ 30) (ok : Ok R A)
    (fok : FokCheck) {c : Command} (hq : c.qty.toNat ≤ Q) : QtyLe Q (process R fok A c).1 := by
  intro S e he
  rcases process_mem hsmall ok fok c S e he with ⟨e', he', _, hle⟩ | ⟨_, hle, _⟩
  · exact (UInt64.le_iff_toNat_le.mp hle).trans (h S e' he')
  · exact (UInt64.le_iff_toNat_le.mp hle).trans hq

theorem process_fok_eq (ok : Ok R A) (h : QtyLe Q A)
    (hcap : Q * R.cfg.maxOrders < 2 ^ 64) (c : Command) :
    process R fillableAgg A c = process R fillableSeq A c := by
  have hagree : ∀ S limit owner stp need,
      fillableAgg S limit owner stp (A (opposite S)) need = fillableSeq S limit owner stp
        (A (opposite S)) need := by
    intro S limit owner stp need
    rw [fillableAgg]
    split
    · rename_i hstp
      rw [hstp]
      exact fillableTotals_eq S limit owner (h.volume_lt ok.count_le hcap _) need
    · rfl
  rw [process, process]
  cases c.type with
  | newOrder => simp only [add, hagree]
  | cancel => rfl
  | modify => rfl

end PriorityBook

open PriorityBook (Rules)

structure Agree {σ : Type} [StoreLayout σ] (R : Rules) (Q : Nat) (b : OrderBook σ)
    (rb : ReferenceBook) (A : PriorityBook) : Prop where
  refines : OrderBook.Refines R b A
  tracks : ReferenceBook.Tracks R rb A
  bounded : PriorityBook.QtyLe Q A

section Agreement

variable {σ : Type} [StoreLayout σ] {R : Rules} {Q : Nat} {b : OrderBook σ} {rb : ReferenceBook}
    {A : PriorityBook}

theorem Agree.process (h : Agree R Q b rb A) (hfit : R.Fits)
    (hcap : Q * R.cfg.maxOrders < 2 ^ 64) {c : Command} (hq : c.qty.toNat ≤ Q) :
    ∃ b' out rb' A', b.process c {} = some (b', out) ∧ rb.process c = some (rb', out.events) ∧
    Agree R Q b' rb' A' := by
  have ok := h.refines.ok
  obtain ⟨b', out, hrun, href, hsends⟩ := h.refines.process c {}
  obtain ⟨rb', horacle, htracks⟩ := h.tracks.process ok.ids hfit c
  have hfok := PriorityBook.process_fok_eq ok h.bounded hcap c
  have hevents : out.events = (PriorityBook.process R PriorityBook.fillableAgg A c).2 :=
    hsends.events
  rw [hfok] at href hevents
  refine ⟨b', out, rb', _, hrun, ?_, href, htracks,
    h.bounded.process hfit.small ok PriorityBook.fillableSeq hq⟩
  rw [hevents]
  exact horacle

theorem Agree.run (h : Agree R Q b rb A) (hfit : R.Fits) (hcap : Q * R.cfg.maxOrders < 2 ^ 64)
    {cs : List Command} (hq : ∀ c ∈ cs, c.qty.toNat ≤ Q) :
    ∃ b' outs rb' A', b.run cs = some (b', outs) ∧ rb.run cs = some (rb', outs.map Sink.events) ∧
      Agree R Q b' rb' A' := by
  induction cs generalizing b rb A with
  | nil => exact ⟨b, [], rb, A, rfl, rfl, h⟩
  | cons c cs ih =>
      obtain ⟨b₁, out, rb₁, A₁, hstep, hstep', h₁⟩ := h.process hfit hcap (hq c (by simp))
      obtain ⟨b₂, outs, rb₂, A₂, hrun, hrun', h₂⟩ := ih h₁ fun x hx => hq x (by simp [hx])
      refine ⟨b₂, out :: outs, rb₂, A₂, ?_, ?_, h₂⟩
      · simp [OrderBook.run, hstep, hrun]
      · simp [ReferenceBook.run, hstep', hrun']

theorem Agree.forEachOrder (h : Agree R Q b rb A) (hfit : R.Fits) (S : Side) :
    b.forEachOrder S = some (rb.forEachOrder S) := by
  rw [h.refines.forEachOrder, h.tracks.forEachOrder hfit]

end Agreement

namespace OrderBook

variable (σ : Type) [StoreLayout σ]

/-- The two books agree on every run: command by command they send the same events, and they
visit the same resting orders. -/
theorem same_as_reference (hash : IndexHash) (symbol : SymbolId) {cfg : BookConfig}
    (ok : cfg.Accepted) (band : cfg.BandFits) {Q : Nat} (hcap : Q * cfg.maxOrders < 2 ^ 64)
    {cs : List Command} (hq : ∀ c ∈ cs, c.qty.toNat ≤ Q) :
    ∃ b outs rb evs, (make hash symbol cfg : OrderBook σ).run cs = some (b, outs) ∧
      (ReferenceBook.make symbol cfg).run cs = some (rb, evs) ∧ outs.map Sink.events = evs ∧
      ∀ S, b.forEachOrder S = some (rb.forEachOrder S) := by
  have hfit : Rules.Fits ⟨symbol, cfg⟩ := ⟨Nat.pos_of_ne_zero ok.levels_pos, ok.levels_le, band⟩
  have hstart : Agree ⟨symbol, cfg⟩ Q (make hash symbol cfg : OrderBook σ)
    (ReferenceBook.make symbol cfg)
      PriorityBook.empty :=
    ⟨refines_make hash symbol ok, ReferenceBook.tracks_make symbol cfg, PriorityBook.qtyLe_empty⟩
  obtain ⟨b, outs, rb, A, hrun, hrun', hagree⟩ := hstart.run hfit hcap hq
  exact ⟨b, outs, rb, _, hrun, hrun', rfl, hagree.forEachOrder hfit⟩

theorem same_as_reference_small :
    (smallBook.Accepted ∧ smallBook.BandFits ∧ 9 * smallBook.maxOrders < 2 ^ 64 ∧ ∀ c ∈ smallRun,
      c.qty.toNat ≤ 9) ∧
      ∃ b outs rb evs, (make scatterHash 1 smallBook : OrderBook AosStore).run smallRun =
      some (b, outs) ∧
        (ReferenceBook.make 1 smallBook).run smallRun = some (rb, evs) ∧
        outs.map Sink.events = evs ∧
        ∀ S, b.forEachOrder S = some (rb.forEachOrder S) :=
  ⟨by decide, same_as_reference AosStore scatterHash 1 (by decide) (by decide) (Q := 9)
    (by decide) (by decide)⟩

end OrderBook
end ExchangeSim.Book
