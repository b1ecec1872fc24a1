/- digest: What a sweep reports: the symbol of its events and the account of its taker, meeting by
   meeting. -/

import ExchangeSim.Book.Priority

set_option autoImplicit false
set_option relaxedAutoImplicit false

namespace ExchangeSim.Book.PriorityBook

variable {R : Rules} {A : PriorityBook}

theorem Rules.rel_priceOf (hsmall : R.cfg.numLevels ≤ 2 ^ 30) {i : Nat} (hi : i < R.cfg.numLevels) :
    (R.priceOf i - R.cfg.minPrice).toInt = i := by
  have hback : R.priceOf i - R.cfg.minPrice = Int64.ofInt i := by
    rw [Rules.priceOf]
    grind
  rw [hback, Int64.toInt_ofInt]
  simp only [Int.bmod, Int64.size]
  omega

/-! ### The events of a sweep -/

/-- What the events of a sweep are: trades with the orders of others, cancels and decrements of own
ones, and the decrements of the taker. -/
theorem sweep_events {P : Event → Prop} {S : Side} {taker : OrderId} {owner : OwnerId}
    {limit : Int} {stp : Stp} {l : List Resting}
    (htrade : ∀ e ∈ l, (stp = .none ∨ e.owner ≠ owner) → ∀ n leaves,
      P (tradeEvent R.symbol taker e.id S (R.priceOf e.level) n leaves))
    (hcancel : ∀ e ∈ l, e.owner = owner →
      P (canceledEvent R.symbol e.id (opposite S) (R.priceOf e.level) e.qty .selfTrade))
    (hmaker : ∀ e ∈ l, e.owner = owner → ∀ n,
      P (stpDecrementEvent R.symbol e.id (opposite S) (R.priceOf e.level) n))
    (htaker : ∀ n, P (stpDecrementEvent R.symbol taker S (R.priceOf limit) n)) (q : Qty) :
    ∀ ev ∈ (sweep R S taker owner limit stp l q).events, P ev := by
  induction l generalizing q with
  | nil => exact fun ev hev => nomatch hev
  | cons e es ih =>
      have ih := ih (fun x hx => htrade x (by simp [hx])) (fun x hx => hcancel x (by simp [hx]))
        (fun x hx => hmaker x (by simp [hx]))
      have hgo : ∀ q' evs, sweep R S taker owner limit stp (e :: es) q =
          (sweep R S taker owner limit stp es q').behind evs → (∀ ev ∈ evs, P ev) →
          ∀ ev ∈ (sweep R S taker owner limit stp (e :: es) q).events, P ev := by
        intro q' evs heq hevs ev hev
        rw [heq] at hev
        rcases List.mem_append.mp hev with hev | hev
        · exact hevs ev hev
        · exact ih q' ev hev
      have htrade := htrade e (by simp)
      have hcancel := hcancel e (by simp)
      have hmaker := hmaker e (by simp)
      rcases sweep_cases R S taker owner limit stp e es q with ⟨ho, _⟩ | ⟨_, _, hcase⟩
      · rw [ho]
        exact fun ev hev => nomatch hev
      rcases hcase with ⟨ho, _⟩ | ⟨ho, _, hown, _⟩ | ⟨ho, _, hown, _⟩ |
        ⟨ho, _, hown, _⟩ | ⟨ho, _, hown⟩ |
        ⟨ho, hother, _⟩ | ⟨ho, hother, _⟩
      · rw [ho]
        exact fun ev hev => nomatch hev
      · rw [ho]
        exact List.forall_mem_singleton.mpr (hmaker hown _)
      · rw [ho]
        exact List.forall_mem_singleton.mpr (hcancel hown)
      · exact hgo _ _ ho (List.forall_mem_cons.mpr
          ⟨hcancel hown, List.forall_mem_singleton.mpr (htaker _)⟩)
      · exact hgo _ _ ho (List.forall_mem_singleton.mpr (hcancel hown))
      · rw [ho]
        exact List.forall_mem_singleton.mpr (htrade hother _ _)
      · exact hgo _ _ ho (List.forall_mem_singleton.mpr (htrade hother _ _))

theorem sweep_symbol (S : Side) (taker : OrderId) (owner : OwnerId) (limit : Int) (stp : Stp)
    (l : List Resting) (q : Qty) :
    ∀ ev ∈ (sweep R S taker owner limit stp l q).events, ev.symbol = R.symbol :=
  sweep_events (fun _ _ _ _ _ => rfl) (fun _ _ _ => rfl) (fun _ _ _ _ => rfl) (fun _ => rfl) q

theorem enter_events (A : PriorityBook) (S : Side) (id : OrderId) (owner : OwnerId) (limit : Int)
    (qty : Qty) (stp : Stp) (px : Price) (mayRest : Bool) :
    let o := sweep R S id owner limit stp (A (opposite S)) qty
    let evs := (enter R A S id owner limit qty stp px mayRest).2
    (evs = o.events ∧ (o.qty = 0 ∨ o.stop = false ∧ mayRest = true)) ∨
      ∃ p reason, o.qty ≠ 0 ∧ (reason = .selfTrade ↔ o.stop = true) ∧
        evs = o.events ++ [canceledEvent R.symbol id S p o.qty reason] := by
  intro o evs
  simp only [evs, enter]
  split
  · rename_i hq
    exact .inl ⟨rfl, .inl hq⟩
  rename_i hq
  split
  · rename_i hstop
    exact .inr ⟨_, _, hq, ⟨fun _ => hstop, fun _ => rfl⟩, rfl⟩
  rename_i hstop
  split
  · refine .inr ⟨_, .iocExpired, hq, ⟨?_, fun hx => absurd hx hstop⟩, rfl⟩
    rintro ⟨⟩
  rename_i hrest
  simp only [rest]
  split
  · refine .inr ⟨_, .bookFull, hq, ⟨?_, fun hx => absurd hx hstop⟩, rfl⟩
    rintro ⟨⟩
  · exact .inl ⟨List.append_nil _, .inr ⟨Bool.eq_false_iff.mpr hstop, not_not.mp hrest⟩⟩

theorem process_symbol (fok : FokCheck) (A : PriorityBook) {c : Command}
    (hc : c.symbol = R.symbol) :
    ∀ ev ∈ (process R fok A c).2, ev.symbol = R.symbol := by
  have henter : ∀ (B : PriorityBook) (S : Side) (owner : OwnerId) (limit : Int) (stp : Stp)
    (px : Price) (mayRest : Bool),
      ∀ ev ∈ (enter R B S c.orderId owner limit c.qty stp px mayRest).2, ev.symbol = R.symbol := by
    intro B S owner limit stp px mayRest ev hev
    have hsym := sweep_symbol (R := R) S c.orderId owner limit stp (B (opposite S)) c.qty
    rcases enter_events (R := R) B S c.orderId owner limit c.qty stp px mayRest with ⟨heq, _⟩ |
      ⟨p, reason, _, _, heq⟩
    · rw [heq] at hev
      exact hsym ev hev
    · rw [heq] at hev
      rcases List.mem_append.mp hev with hev | hev
      · exact hsym ev hev
      · rw [List.mem_singleton.mp hev]
        rfl
  intro ev hev
  rcases process_cases R fok A c with ⟨_, h⟩ | ⟨_, _, _, _, h⟩ | ⟨_, _, _, _, _, _, _, h⟩ |
    ⟨_, _, _, _, _, _, _, h⟩ |
    ⟨_, _, _, _, _, _, h⟩ | ⟨_, _, _, _, _, _, _, _, h⟩
  all_goals rw [h] at hev
  · rw [List.mem_singleton.mp hev]
    exact hc
  · rw [List.mem_singleton.mp hev]
    rfl
  · rw [List.mem_singleton.mp hev]
    rfl
  · rcases List.mem_cons.mp hev with rfl | hev
    · rfl
    · rw [List.mem_singleton.mp hev]
      rfl
  · rcases List.mem_cons.mp hev with rfl | hev
    · rfl
    · exact henter _ _ _ _ _ _ _ ev hev
  · rcases List.mem_cons.mp hev with rfl | hev
    · rfl
    · exact henter _ _ _ _ _ _ _ ev hev

/-! ### Market orders -/

theorem Shrunk.sweep (S : Side) (taker : OrderId) (owner : OwnerId) (limit : Int)
    (stp : Stp) (q : Qty) :
    Shrunk A (Function.update A (opposite S)
      (PriorityBook.sweep R S taker owner limit stp (A (opposite S)) q).makers) :=
  (Shrunk.refl A).update (sweep_keys S taker owner limit stp _ q)
    (sweep_sub R S taker owner limit stp _ q)

theorem process_market (fok : FokCheck) {c : Command} (hty : c.type = .newOrder)
    (hmarket : c.ordType = .market) :
    Shrunk A (process R fok A c).1 := by
  rcases process_cases R fok A c with ⟨_, h⟩ | ⟨_, _, ht, _⟩ | ⟨_, _, ht, _⟩ |
    ⟨_, _, _, _, _, _, _, h⟩ |
    ⟨limit, _, _, _, _, _, h⟩ | ⟨_, _, _, ht, _⟩
  · rw [h]
    exact Shrunk.refl A
  · rw [hty] at ht
    cases ht
  · rw [hty] at ht
    cases ht
  · rw [h]
    exact Shrunk.refl A
  · rw [h]
    have hno : decide (c.ordType = .limit ∧ c.tif = .day) = false := by
      rw [hmarket]
      exact decide_eq_false fun hx => nomatch hx.1
    rcases enter_book (R := R) (A := A) c.side c.orderId c.owner limit c.qty
      (effectiveStp c.flags R.cfg.stp) c.eventPrice
      (decide (c.ordType = .limit ∧ c.tif = .day)) with heq | ⟨hrest, _⟩
    · simp only [heq]
      exact Shrunk.sweep _ _ _ _ _ _
    · rw [hno] at hrest
      cases hrest
  · rw [hty] at ht
    cases ht

/-- Every order of the next book was there before, no smaller, or it is that of a limit order or a
modification. -/
theorem process_rests (hsmall : R.cfg.numLevels ≤ 2 ^ 30) (ok : Ok R A) (fok : FokCheck)
    (c : Command) (S : Side) :
    ∀ e ∈ (process R fok A c).1 S, (∃ e' ∈ A S, e' = { e with qty := e'.qty } ∧ e.qty ≤ e'.qty) ∨
      ((c.type = .newOrder ∧ c.ordType = .limit ∨ c.type = .modify) ∧ e.qty ≤ c.qty ∧
        R.relOf c.price = some e.level) := by
  intro e he
  cases hty : c.type with
  | cancel =>
      rcases process_shape hsmall ok fok c with ⟨_, hs⟩ | ⟨hq, _⟩
      · exact .inl ((hs S).2 e he)
      · simp only [queues, hty] at hq
        cases hq
  | modify =>
      rcases process_mem hsmall ok fok c S e he with h | ⟨_, hle, hrel⟩
      · exact .inl h
      · exact .inr ⟨.inr rfl, hle, hrel⟩
  | newOrder =>
      cases hot : c.ordType with
      | market => exact .inl ((process_market fok hty hot S).2 e he)
      | limit =>
          rcases process_mem hsmall ok fok c S e he with h | ⟨_, hle, hrel⟩
          · exact .inl h
          · exact .inr ⟨.inl ⟨rfl, rfl⟩, hle, hrel⟩

/-! ### The account of a taker -/

structure Tally where
  left : Nat
  filled : Nat := 0
  decremented : Nat := 0

def Tally.note (taker : OrderId) (t : Tally) (e : Event) : Tally :=
  match e.type with
  | .trade => { t with left := t.left - e.qty.toNat, filled := t.filled + e.qty.toNat }
  | .modified =>
      if e.reason = .selfTrade ∧ e.orderId = taker then
        { t with left := e.qty.toNat, decremented := t.decremented + (t.left - e.qty.toNat) }
      else t
  | .accepted | .rejected | .canceled => t

def tally (taker : OrderId) (qty : Qty) (evs : List Event) : Tally :=
  evs.foldl (Tally.note taker) { left := qty.toNat }

section Account

variable {taker : OrderId} {t : Tally}

theorem note_trade (sym : SymbolId) (tk maker : OrderId) (S : Side) (p : Price) (n leaves : Qty) :
    t.note taker (tradeEvent sym tk maker S p n leaves) =
      { t with left := t.left - n.toNat, filled := t.filled + n.toNat } := rfl

theorem note_canceled (sym : SymbolId) (id : OrderId) (S : Side) (p : Price) (n : Qty)
    (reason : Reason) :
    t.note taker (canceledEvent sym id S p n reason) = t := rfl

theorem note_maker (sym : SymbolId) {id : OrderId} (hid : id ≠ taker) (S : Side)
    (p : Price) (n : Qty) :
    t.note taker (stpDecrementEvent sym id S p n) = t := by
  simp only [Tally.note, stpDecrementEvent, modifiedEvent, true_and, if_neg hid]

theorem note_taker (sym : SymbolId) (S : Side) (p : Price) (n : Qty) :
    t.note taker (stpDecrementEvent sym taker S p n) =
      { t with left := n.toNat, decremented := t.decremented + (t.left - n.toNat) } := by
  simp only [Tally.note, stpDecrementEvent, modifiedEvent, true_and, if_true]

theorem sweep_tally (S : Side) (owner : OwnerId) (limit : Int) (stp : Stp) {l : List Resting}
    (hid : ∀ e ∈ l, e.id ≠ taker) (q : Qty) (t : Tally) (ht : t.left = q.toNat) :
    let o := sweep R S taker owner limit stp l q
    let t' := o.events.foldl (Tally.note taker) t
    t'.left = o.qty.toNat ∧ t'.filled + t'.decremented + o.qty.toNat = t.filled +
        t.decremented + q.toNat := by
  induction l generalizing q t with
  | nil => exact ⟨ht, rfl⟩
  | cons e es ih =>
      intro o t'
      have hne := hid e (by simp)
      have ih := ih fun x hx => hid x (by simp [hx])
      have hsub : e.qty ≤ q → (q - e.qty).toNat = q.toNat - e.qty.toNat ∧ e.qty.toNat ≤ q.toNat :=
        fun hle => ⟨UInt64.toNat_sub_of_le _ _ hle, UInt64.le_iff_toNat_le.mp hle⟩
      have ht' : t' = o.events.foldl (Tally.note taker) t := rfl
      rcases sweep_cases R S taker owner limit stp e es q with ⟨ho, _⟩ | ⟨_, _, hcase⟩
      · rw [ht', show o = _ from ho]
        exact ⟨ht, rfl⟩
      rcases hcase with ⟨ho, _⟩ | ⟨ho, _⟩ | ⟨ho, _⟩ | ⟨ho, _, _, hlt⟩ | ⟨ho, _⟩ |
        ⟨ho, _, hlt⟩ | ⟨ho, _, hle⟩
      · rw [ht', show o = _ from ho]
        exact ⟨ht, rfl⟩
      · rw [ht', show o = _ from ho, List.foldl_cons, List.foldl_nil, note_maker _ hne]
        exact ⟨ht, rfl⟩
      · rw [ht', show o = _ from ho, List.foldl_cons, List.foldl_nil, note_canceled]
        exact ⟨ht, rfl⟩
      · obtain ⟨hq, hle⟩ := hsub (UInt64.le_of_lt hlt)
        rw [ht', show o = _ from ho, Outcome.behind, List.foldl_append, List.foldl_cons,
          List.foldl_cons, List.foldl_nil, note_canceled, note_taker]
        obtain ⟨h1, h2⟩ := ih (q - e.qty)
          { t with
            left := (q - e.qty).toNat
            decremented := t.decremented + (t.left - (q - e.qty).toNat) } rfl
        refine ⟨h1, h2.trans ?_⟩
        simp only
        omega
      · rw [ht', show o = _ from ho, Outcome.behind, List.foldl_append, List.foldl_cons,
          List.foldl_nil, note_canceled]
        exact ih q t ht
      · rw [ht', show o = _ from ho, List.foldl_cons, List.foldl_nil, note_trade]
        have hzero : (0 : UInt64).toNat = 0 := rfl
        refine ⟨?_, ?_⟩
        · simp only
          omega
        · simp only
          omega
      · obtain ⟨hq, hle⟩ := hsub hle
        rw [ht', show o = _ from ho, Outcome.behind, List.foldl_append, List.foldl_cons,
          List.foldl_nil, note_trade]
        obtain ⟨h1, h2⟩ :=
          ih (q - e.qty) { t with left := t.left - e.qty.toNat, filled := t.filled + e.qty.toNat }
          (by simp only; omega)
        refine ⟨h1, h2.trans ?_⟩
        simp only
        omega

theorem sweep_canceled (S : Side) (owner : OwnerId) (limit : Int) (stp : Stp) {l : List Resting}
    (hid : ∀ e ∈ l, e.id ≠ taker) (q : Qty) :
    ∀ ev ∈ (sweep R S taker owner limit stp l q).events, ev.type = .canceled → ev.orderId ≠ taker :=
  sweep_events (fun _ _ _ _ _ hx => nomatch hx) (fun e he _ _ => hid e he)
    (fun _ _ _ _ hx => nomatch hx)
    (fun _ hx => nomatch hx) q

end Account

end ExchangeSim.Book.PriorityBook
