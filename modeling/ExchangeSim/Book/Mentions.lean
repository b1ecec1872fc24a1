/- digest: The events of a command name every order that it takes from, changes or takes out. -/

import ExchangeSim.Book.SelfTrade

set_option autoImplicit false
set_option relaxedAutoImplicit false

namespace ExchangeSim.Book.PriorityBook

variable {R : Rules} {A : PriorityBook}

/-- The event tells of an order of a book from which an order of this owner takes: it is the maker
of a trade, or it is the owner's own and gets cancelled or smaller. -/
def TellsOf (owner : OwnerId) (e : Resting) (ev : Event) : Prop :=
  (ev.type = .trade ∧ ev.makerId = e.id) ∨ (ev.orderId = e.id ∧ e.owner = owner)

/-- The event speaks of the taker and perhaps a maker, or of an order of the taker's owner. -/
def SpeaksOf (taker : OrderId) (owner : OwnerId) (l : List Resting) (ev : Event) : Prop :=
  (ev.orderId = taker ∧ (ev.makerId = 0 ∨ ∃ e ∈ l, e.id = ev.makerId)) ∨
    (ev.makerId = 0 ∧ ∃ e ∈ l, e.id = ev.orderId ∧ e.owner = owner)

theorem sweep_tells (S : Side) (taker : OrderId) (owner : OwnerId) (limit : Int) (stp : Stp)
    (l : List Resting) (q : Qty) :
    ∀ e ∈ l, e ∈ (sweep R S taker owner limit stp l q).makers ∨
      ∃ ev ∈ (sweep R S taker owner limit stp l q).events, TellsOf owner e ev := by
  induction l generalizing q with
  | nil => exact fun e he => absurd he List.not_mem_nil
  | cons x xs ih =>
      have hgo : ∀ q' ev evs, sweep R S taker owner limit stp (x :: xs) q =
          (sweep R S taker owner limit stp xs q').behind (ev :: evs) → TellsOf owner x ev →
          ∀ e ∈ x :: xs, e ∈ (sweep R S taker owner limit stp (x :: xs) q).makers ∨
            ∃ ev ∈ (sweep R S taker owner limit stp (x :: xs) q).events, TellsOf owner e ev := by
        intro q' ev evs heq hev e he
        rw [heq]
        rcases List.mem_cons.mp he with rfl | he
        · exact .inr ⟨ev, List.mem_cons_self, hev⟩
        · refine (ih q' e he).imp_right ?_
          rintro ⟨ev', hev', htells⟩
          exact ⟨ev', List.mem_append_right _ hev', htells⟩
      have hstop : ∀ r ev, (sweep R S taker owner limit stp (x :: xs) q).makers = r ++ xs →
          ev ∈ (sweep R S taker owner limit stp (x :: xs) q).events → TellsOf owner x ev →
          ∀ e ∈ x :: xs, e ∈ (sweep R S taker owner limit stp (x :: xs) q).makers ∨
            ∃ ev ∈ (sweep R S taker owner limit stp (x :: xs) q).events, TellsOf owner e ev := by
        intro r ev hmakers hmem hev e he
        rcases List.mem_cons.mp he with rfl | he
        · exact .inr ⟨ev, hmem, hev⟩
        · left
          rw [hmakers]
          exact List.mem_append_right r he
      rcases sweep_cases R S taker owner limit stp x xs q with ⟨ho, _⟩ | ⟨_, _, hcase⟩
      · rw [ho]
        exact fun e he => .inl he
      rcases hcase with ⟨ho, _⟩ | ⟨ho, _, hown, _⟩ | ⟨ho, _, hown, _⟩ | ⟨ho, _, hown, _⟩ |
        ⟨ho, _, hown⟩ | ⟨ho, _⟩ | ⟨ho, _⟩
      · rw [ho]
        exact fun e he => .inl he
      · exact hstop [{ x with qty := x.qty - q }] _ (by rw [ho]; rfl)
          (by rw [ho]; exact List.mem_cons_self) (.inr ⟨rfl, hown⟩)
      · exact hstop [] _ (by rw [ho]; rfl) (by rw [ho]; exact List.mem_cons_self) (.inr ⟨rfl, hown⟩)
      · exact hgo _ _ _ ho (.inr ⟨rfl, hown⟩)
      · exact hgo _ _ _ ho (.inr ⟨rfl, hown⟩)
      · exact hstop [{ x with qty := x.qty - q }] _ (by rw [ho]; rfl)
          (by rw [ho]; exact List.mem_cons_self) (.inl ⟨rfl, rfl⟩)
      · exact hgo _ _ _ ho (.inl ⟨rfl, rfl⟩)

theorem sweep_speaks (S : Side) (taker : OrderId) (owner : OwnerId) (limit : Int) (stp : Stp)
    (l : List Resting) (q : Qty) :
    ∀ ev ∈ (sweep R S taker owner limit stp l q).events, SpeaksOf taker owner l ev := by
  refine sweep_events ?_ ?_ ?_ ?_ q
  · intro e he _ n leaves
    exact .inl ⟨rfl, .inr ⟨e, he, rfl⟩⟩
  · intro e he hown
    exact .inr ⟨rfl, e, he, rfl, hown⟩
  · intro e he hown n
    exact .inr ⟨rfl, e, he, rfl, hown⟩
  · intro n
    exact .inl ⟨rfl, .inl rfl⟩

/-! ### Orders that enter -/

section Enter

variable (S : Side) (id : OrderId) (owner : OwnerId) (limit : Int) (qty : Qty) (stp : Stp)
    (px : Price) (mayRest : Bool)

theorem enter_tells (U : Side) :
    ∀ e ∈ A U, e ∈ (enter R A S id owner limit qty stp px mayRest).1 U ∨
      ∃ ev ∈ (enter R A S id owner limit qty stp px mayRest).2, TellsOf owner e ev := by
  intro e he
  have hevents : ∀ ev ∈ (sweep R S id owner limit stp (A (opposite S)) qty).events,
      ev ∈ (enter R A S id owner limit qty stp px mayRest).2 := by
    intro ev hev
    rcases enter_events (R := R) A S id owner limit qty stp px mayRest with ⟨heq, _⟩ |
      ⟨p, reason, _, _, heq⟩
    · rw [heq]
      exact hev
    · rw [heq]
      exact List.mem_append_left _ hev
  by_cases hU : U = opposite S
  · subst hU
    have hside : (enter R A S id owner limit qty stp px mayRest).1 (opposite S) =
        (sweep R S id owner limit stp (A (opposite S)) qty).makers := by
      rcases enter_book (R := R) (A := A) S id owner limit qty stp px mayRest with
        hbook | ⟨_, hbook⟩
      · rw [hbook, Function.update_self]
      · rw [hbook, Function.update_of_ne (ne_opposite S).symm, Function.update_self]
    rw [hside]
    refine (sweep_tells (R := R) S id owner limit stp (A (opposite S)) qty e he).imp_right ?_
    rintro ⟨ev, hev, htells⟩
    exact ⟨ev, hevents ev hev, htells⟩
  · left
    have hS : U = S := (eq_opposite_of_ne hU).trans (opposite_opposite S)
    subst hS
    rcases enter_book (R := R) (A := A) U id owner limit qty stp px mayRest with hbook | ⟨_, hbook⟩
    · rw [hbook, Function.update_of_ne hU]
      exact he
    · rw [hbook, Function.update_self]
      exact mem_join.mpr (.inr he)

theorem enter_speaks :
    ∀ ev ∈ (enter R A S id owner limit qty stp px mayRest).2,
    SpeaksOf id owner (A (opposite S)) ev := by
  intro ev hev
  have hsweep := sweep_speaks (R := R) S id owner limit stp (A (opposite S)) qty
  rcases enter_events (R := R) A S id owner limit qty stp px mayRest with ⟨heq, _⟩ |
    ⟨p, reason, _, _, heq⟩
  · rw [heq] at hev
    exact hsweep ev hev
  · rw [heq] at hev
    rcases List.mem_append.mp hev with hev | hev
    · exact hsweep ev hev
    · rw [List.mem_singleton.mp hev]
      exact .inl ⟨rfl, .inl rfl⟩

theorem enter_source (U : Side) :
    ∀ e ∈ (enter R A S id owner limit qty stp px mayRest).1 U,
      (∃ e' ∈ A U, e'.id = e.id ∧ e'.owner = e.owner) ∨ (e.id = id ∧ e.owner = owner) := by
  have hswept :
    ∀ e ∈ Function.update A (opposite S)
      (sweep R S id owner limit stp (A (opposite S)) qty).makers U,
      ∃ e' ∈ A U, e'.id = e.id ∧ e'.owner = e.owner := by
    intro e he
    obtain ⟨e', he', heq, -⟩ := (Shrunk.sweep (R := R) S id owner limit stp qty U).2 e he
    exact ⟨e', he', by rw [heq], by rw [heq]⟩
  intro e he
  rcases enter_book (R := R) (A := A) S id owner limit qty stp px mayRest with hbook | ⟨_, hbook⟩
  · rw [hbook] at he
    exact .inl (hswept e he)
  · rw [hbook] at he
    by_cases hU : U = S
    · subst hU
      rw [Function.update_self] at he
      rcases mem_join.mp he with rfl | he
      · exact .inr ⟨rfl, rfl⟩
      · exact .inl ⟨e, he, rfl, rfl⟩
    · rw [Function.update_of_ne hU] at he
      exact .inl (hswept e he)

end Enter

/-! ### Commands -/

/-- Whose order goes through a book: a modify is of the order it names. -/
def takerOwner (A : PriorityBook) (c : Command) : OwnerId :=
  match lookup A c.orderId with
  | some (_, e) => e.owner
  | none => c.owner

structure Told (A : PriorityBook) (c : Command) (r : PriorityBook × List Event) : Prop where
  tells : ∀ U, ∀ e ∈ A U, e.id ≠ c.orderId → e ∈ r.1 U ∨ ∃ ev ∈ r.2, TellsOf (takerOwner A c) e ev
  speaks : ∀ ev ∈ r.2, ∃ U, SpeaksOf c.orderId (takerOwner A c) (A U) ev
  source : ∀ U, ∀ e ∈ r.1 U, (∃ e' ∈ A U, e'.id = e.id ∧ e'.owner = e.owner) ∨
    (e.id = c.orderId ∧ e.owner = c.owner ∧ r.2.head?.map Event.type = some .accepted)
  fresh : r.2.head?.map Event.type = some .accepted →
    c.type = .newOrder ∧ c.orderId ≠ 0 ∧ ∀ U, ∀ e ∈ A U, e.id ≠ c.orderId

theorem SpeaksOf.own {taker : OrderId} {owner : OwnerId} {l : List Resting} {ev : Event}
    (hid : ev.orderId = taker) (hmaker : ev.makerId = 0) : SpeaksOf taker owner l ev :=
  .inl ⟨hid, .inl hmaker⟩

theorem SpeaksOf.mono {taker : OrderId} {owner : OwnerId} {l l' : List Resting} {ev : Event}
    (h : SpeaksOf taker owner l ev) (hsub : ∀ e ∈ l, e ∈ l') : SpeaksOf taker owner l' ev := by
  rcases h with ⟨hid, hmaker⟩ | ⟨hmaker, e, he, hid, hown⟩
  · refine .inl ⟨hid, hmaker.imp_right ?_⟩
    rintro ⟨e, he, heq⟩
    exact ⟨e, hsub e he, heq⟩
  · exact .inr ⟨hmaker, e, hsub e he, hid, hown⟩

theorem told_quiet {c : Command} {r : PriorityBook × List Event}
    (hkept : ∀ U, ∀ e ∈ A U, e.id ≠ c.orderId → e ∈ r.1 U)
    (hown : ∀ ev ∈ r.2, ev.orderId = c.orderId ∧ ev.makerId = 0)
    (hsource : ∀ U, ∀ e ∈ r.1 U, ∃ e' ∈ A U, e'.id = e.id ∧ e'.owner = e.owner)
    (hfresh : r.2.head?.map Event.type = some .accepted →
      c.type = .newOrder ∧ c.orderId ≠ 0 ∧ ∀ U, ∀ e ∈ A U, e.id ≠ c.orderId) : Told A c r :=
  ⟨fun U e he hid => .inl (hkept U e he hid), fun ev hev =>
    ⟨.buy, .own (hown ev hev).1 (hown ev hev).2⟩, fun U e he => .inl (hsource U e he), hfresh⟩

theorem told_rejected (A : PriorityBook) (c : Command) (reason : Reason) :
    Told A c (A, [rejectedEvent c reason]) :=
  told_quiet (fun U e he _ => he) (by simp [rejectedEvent]) (fun U e he => ⟨e, he, rfl, rfl⟩)
    (by simp [rejectedEvent])

theorem told_enter {B : PriorityBook} {c : Command} (hsub : ∀ U, ∀ e ∈ B U, e ∈ A U)
    (hkept : ∀ U, ∀ e ∈ A U, e.id ≠ c.orderId → e ∈ B U) (S : Side) (limit : Int) (stp : Stp)
    (px : Price) (mayRest : Bool) (first : Event) (hid : first.orderId = c.orderId)
    (hmaker : first.makerId = 0) (hnew : (∃ e ∈ A S, e.id = c.orderId ∧ e.owner = takerOwner A c) ∨
      (takerOwner A c = c.owner ∧ first.type = .accepted))
    (hfresh : first.type = .accepted → c.type = .newOrder ∧ c.orderId ≠ 0 ∧ ∀ U, ∀ e ∈ A U,
      e.id ≠ c.orderId) :
    let n := enter R B S c.orderId (takerOwner A c) limit c.qty stp px mayRest
    Told A c (n.1, first :: n.2) := by
  intro n
  constructor
  · intro U e he hne
    refine (enter_tells S c.orderId (takerOwner A c) limit c.qty stp px mayRest U e
      (hkept U e he hne)).imp_right ?_
    rintro ⟨ev, hev, htells⟩
    exact ⟨ev, List.mem_cons_of_mem first hev, htells⟩
  · intro ev hev
    refine ⟨opposite S, ?_⟩
    rcases List.mem_cons.mp hev with rfl | hev
    · exact .own hid hmaker
    · exact (enter_speaks S c.orderId (takerOwner A c) limit c.qty stp px mayRest ev hev).mono
        (hsub _)
  · intro U e he
    have hbook :=
      enter_book (R := R) (A := B) S c.orderId (takerOwner A c) limit c.qty stp px mayRest
    rcases enter_source S c.orderId (takerOwner A c) limit c.qty stp px mayRest U e he with
      ⟨e', he', heq⟩ | ⟨heid, howner⟩
    · exact .inl ⟨e', hsub U e' he', heq⟩
    · rcases hnew with ⟨x, hx, hxid, hxowner⟩ | ⟨hc, hty⟩
      · -- the order comes back to its own side: on the other one it is not
        by_cases hU : U = S
        · subst hU
          exact .inl ⟨x, hx, hxid.trans heid.symm, hxowner.trans howner.symm⟩
        · left
          have hopp : U = opposite S := eq_opposite_of_ne hU
          subst hopp
          have hside : n.1 (opposite S) =
              (sweep R S c.orderId (takerOwner A c) limit stp (B (opposite S)) c.qty).makers := by
            rcases hbook with hbook | ⟨_, hbook⟩
            · rw [hbook, Function.update_self]
            · rw [hbook, Function.update_of_ne (ne_opposite S).symm, Function.update_self]
          rw [show (n.1, first :: n.2).1 (opposite S) = _ from hside] at he
          obtain ⟨e', he', heq, -⟩ := sweep_sub R S c.orderId (takerOwner A c) limit stp
            (B (opposite S)) c.qty e he
          exact ⟨e', hsub _ e' he', by rw [heq], by rw [heq]⟩
      · exact .inr ⟨heid, howner.trans hc, congrArg some hty⟩
  · exact fun hacc => hfresh (Option.some.inj hacc)

theorem process_zero (fok : FokCheck) (A : PriorityBook) {c : Command} (hty : c.type = .newOrder)
    (hid : c.orderId = 0) :
    process R fok A c = (A, [rejectedEvent c .invalidOrderId]) := by
  simp [process, hty, add, hid]

theorem process_told (fok : FokCheck) (A : PriorityBook) (c : Command) :
    Told A c (process R fok A c) := by
  by_cases hzero : c.type = .newOrder ∧ c.orderId = 0
  · rw [process_zero fok A hzero.1 hzero.2]
    exact told_rejected A c .invalidOrderId
  have hpos : c.type = .newOrder → c.orderId ≠ 0 := fun hty hid => hzero ⟨hty, hid⟩
  rcases process_cases R fok A c with ⟨_, h⟩ | ⟨S, e, _, _, h⟩ | ⟨S, e, _, _, _, _, _, h⟩ |
    ⟨_, hty, _, hlook, _, _, _, h⟩ |
    ⟨limit, hty, _, hlook, _, _, h⟩ | ⟨S, e, ix, hty, _, hlook, _, _, h⟩
  all_goals rw [h]
  · exact told_rejected A c _
  · exact told_quiet (fun U x hx hid => mem_erased.mpr ⟨hx, fun _ => hid⟩) (by simp [canceledEvent])
      (fun U x hx => ⟨x, (mem_erased.mp hx).1, rfl, rfl⟩) (by simp [canceledEvent])
  · exact told_quiet (fun U x hx hid => mem_setQty hx hid _) (by simp [modifiedEvent])
      (fun U x hx => of_mem_setQty hx)
      (by simp [modifiedEvent])
  · exact told_quiet (fun U e he _ => he) (by simp [acceptedEvent, canceledEvent])
      (fun U e he => ⟨e, he, rfl, rfl⟩)
      fun _ => ⟨hty, hpos hty, lookup_eq_none hlook⟩
  · have howner : takerOwner A c = c.owner := by rw [takerOwner, hlook]
    have htold := told_enter (R := R) (A := A) (fun _ _ he => he) (fun _ _ he _ => he) c.side limit
      (effectiveStp c.flags R.cfg.stp) c.eventPrice (c.ordType = .limit ∧ c.tif = .day)
      (acceptedEvent R.symbol c.orderId c.side c.eventPrice c.qty) rfl rfl (.inr ⟨howner, rfl⟩)
      fun _ => ⟨hty, hpos hty, lookup_eq_none hlook⟩
    rw [howner] at htold
    exact htold
  · have howner : takerOwner A c = e.owner := by rw [takerOwner, hlook]
    obtain ⟨he, hid⟩ := lookup_mem hlook
    have htold := told_enter (R := R) (A := A) (B := Function.update A S (eraseId c.orderId (A S)))
      (fun U x hx => (mem_erased.mp hx).1)
        (fun U x hx hne => mem_erased.mpr ⟨hx, fun _ => hne⟩) S ix R.cfg.stp (R.priceOf ix)
      true (modifiedEvent R.symbol c.orderId S c.price c.qty) rfl rfl
        (.inl ⟨e, he, hid, howner.symm⟩) (by rintro ⟨⟩)
    rw [howner] at htold
    exact htold

/-! ### The order of the others -/

theorem filter_join (S : Side) {e : Resting} {l : List Resting} (hl : ∀ x ∈ l, x.id ≠ e.id) :
    ((join S e l).filter fun x => x.id ≠ e.id) = l := by
  induction l with
  | nil => simp [join]
  | cons x xs ih =>
      have hx : x.id ≠ e.id := hl x List.mem_cons_self
      have hxs : ∀ y ∈ xs, y.id ≠ e.id := fun y hy => hl y (List.mem_cons_of_mem x hy)
      rw [join]
      split
      · rw [List.filter_cons_of_pos (by simpa using hx), ih hxs]
      · rw [List.filter_cons_of_neg (by simp)]
        exact List.filter_eq_self.mpr fun y hy => by simpa using hl y hy

theorem process_places (hsmall : R.cfg.numLevels ≤ 2 ^ 30) (ok : Ok R A) (fok : FokCheck)
    (c : Command) (U : Side) :
    ((((process R fok A c).1 U).filter fun e => e.id ≠ c.orderId).map key).Sublist
      ((A U).map key) := by
  have hfilter : ∀ {B : PriorityBook}, Shrunk A B →
      (((B U).filter fun e => e.id ≠ c.orderId).map key).Sublist ((A U).map key) :=
    fun hB => (List.filter_sublist.map key).trans (hB U).1
  rcases process_shape hsmall ok fok c with ⟨_, h⟩ | ⟨_, B, hB, hid, heq | ⟨S, e, heid, _, _, heq⟩⟩
  · exact hfilter h
  · rw [heq]
    exact hfilter hB
  · rw [heq]
    by_cases hU : U = S
    · subst hU
      rw [Function.update_self, ← heid, filter_join U fun x hx => by rw [heid]; exact hid U x hx]
      exact (hB U).1
    · rw [Function.update_of_ne hU]
      exact hfilter hB

end ExchangeSim.Book.PriorityBook
