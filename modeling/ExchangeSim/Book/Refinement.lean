/- digest: The concrete book refines the abstract book command by command. -/

import ExchangeSim.Book.Representation

set_option autoImplicit false
set_option relaxedAutoImplicit false

namespace ExchangeSim.Book

open ExchangeSim.Lib
open PriorityBook (Rules Outcome ahead inRange)

namespace OrderBook

variable {σ : Type} [StoreLayout σ]

structure Follows (R : Rules) (b : OrderBook σ) : Prop where
  symbol : b.symbol = R.symbol
  minPrice : b.minPrice = R.cfg.minPrice
  n : b.n = R.cfg.numLevels
  stp : b.stp = R.cfg.stp
  cap : b.store.cap = R.cfg.maxOrders

/-- The concrete book stands for the abstract one. -/
def Refines (R : Rules) (b : OrderBook σ) (A : PriorityBook) : Prop :=
  ∃ L free, Rep b L free ∧ Follows R b ∧ A = b.abs L

/-- In the sweep of an order of side `opposite T` through level `ix` of side `T`, the next
maker is in slot `s`, or the level has no more. -/
def Front (R : Rules) (T : Side) (b : OrderBook σ) (ix s : Nat) (A : PriorityBook) : Prop :=
  ∃ L free, Rep (retire (opposite T) b ix s) L free ∧ Follows R b ∧ A = b.abs L ∧
    (∀ t ∈ L T, ahead T ix (b.store.level t) = true) ∧
    ((s = kNil ∧ ∀ t ∈ L T, b.store.level t ≠ ix) ∨ ∃ r, L T = s :: r ∧ b.store.level s = ix)

variable {R : Rules} {b b' : OrderBook σ} {A : PriorityBook} {T : Side} {ix s : Nat}

omit [StoreLayout σ] in
theorem Follows.of_keeps (h : Follows R b) (k : Keeps b b') : Follows R b' :=
  ⟨k.symbol.trans h.symbol, k.minPrice.trans h.minPrice, k.n.trans h.n, k.stp.trans h.stp,
    k.cap.trans h.cap⟩

omit [StoreLayout σ] in
theorem Follows.priceOf (h : Follows R b) (i : Int) : b.priceOf i = R.priceOf i := by
  rw [OrderBook.priceOf, Rules.priceOf, h.minPrice]

omit [StoreLayout σ] in
theorem Follows.relOf (h : Follows R b) (p : Price) : b.relOf p = R.relOf p := by
  rw [OrderBook.relOf, Rules.relOf, h.minPrice, h.n]

omit [StoreLayout σ] in
theorem Follows.limitOf (h : Follows R b) (S : Side) (c : Command) :
    OrderBook.limitOf S b c = R.limitOf S c := by
  cases hty : c.ordType with
  | market => cases S <;> simp only [OrderBook.limitOf, Rules.limitOf, hty, h.n]
  | limit => simp only [OrderBook.limitOf, Rules.limitOf, hty, h.relOf]

theorem abs_update (L : Side → List Nat) (l : List Nat) (h : ∀ t, b'.entry t = b.entry t) :
    b'.abs (Function.update L T l) = Function.update (b.abs L) T (l.map b.entry) := by
  funext U
  have he : b'.entry = b.entry := funext h
  by_cases hU : U = T
  · subst hU
    simp [abs, he]
  · simp [abs, he, Function.update_of_ne hU]

theorem Refines.front (h : Refines R b A) {e : Resting} {es : List Resting} (hA : A T = e :: es) :
    b.top T = e.level ∧ Front R T b e.level (b.levels e.level).head A := by
  obtain ⟨L, free, hrep, hfol, rfl⟩ := h
  obtain ⟨s, r, hL, he, _⟩ := List.map_eq_cons_iff.mp hA
  have hs : s ∈ L T := by simp [hL]
  have hlev : b.store.level s = e.level := by rw [← he]; rfl
  have hq := (hrep.queue_at hs).1
  rw [hlev] at hq
  have hhead : (b.levels e.level).head = s := by
    rw [hq.path.head_eq, hL]
    simp [lane, hlev]
  have hretire : retire (opposite T) b e.level (b.levels e.level).head = b := by
    rw [retire, if_neg (by rw [hhead]; exact hrep.slot_ne_nil hs), setLevel]
    simp
  refine ⟨?_, L, free, hretire.symm ▸ hrep, hfol, rfl, ?_, .inr ⟨r, ?_, ?_⟩⟩
  · rw [hrep.top_eq hL, hlev]
  · intro t ht
    rw [ahead_iff b.n, ← hlev]
    rcases List.mem_cons.mp (hL ▸ ht) with rfl | ht
    · exact le_rfl
    · have hp := hrep.sorted T
      rw [hL] at hp
      exact (ahead_iff b.n).mp (List.rel_of_pairwise_cons hp ht)
  · rw [hhead, hL]
  · rw [hhead, hlev]

theorem Front.refines (h : Front R T b ix s A) : Refines R (retire (opposite T) b ix s) A := by
  obtain ⟨L, free, hrep, hfol, rfl, _, _⟩ := h
  obtain ⟨hk, _, hst, _⟩ := retire_effect (b := b) T ix s
  refine ⟨L, free, hrep, hfol.of_keeps hk, ?_⟩
  funext U
  refine List.map_congr_left fun t _ => ?_
  simp only [entry, hst]

theorem Front.drop (h : Front R T b ix s A) (hs : s ≠ kNil) :
    ∃ es, A T = b.entry s :: es ∧ b.store.level s = ix ∧ ∃ ids',
      b.ids.eraseKnown (b.store.id s) s = some ids' ∧
      (IndexCall.eraseKnown b.ids (b.store.id s) s).Meets R.cfg.maxOrders ∧
      Front R T (b.popped ids' ix s) ix (b.store.next s) (Function.update A T es) := by
  obtain ⟨L, free, hrep, hfol, rfl, hahead, hat⟩ := h
  obtain ⟨hnil, _⟩ | ⟨r, hL, hlev⟩ := hat
  · exact absurd hnil hs
  obtain ⟨hk, hids, hst, _⟩ := retire_effect (b := b) T ix s
  have hmem : s ∈ L T := by simp [hL]
  obtain ⟨ids', hrun, herase, hheld⟩ := hrep.eraseKnown hmem
  rw [hids, hst] at hrun herase
  rw [hids, hst] at hheld
  have hdrop := hrep.popped hL hlev herase
  have hrep' := hdrop.rep hrep (by rw [hL]; rfl)
  have hentry : ∀ t, (b.popped ids' ix s).entry t = b.entry t := by
    intro t
    simp only [entry, popped, FreeListStore.level, FreeListStore.id, FreeListStore.qty,
      FreeListStore.owner, FreeListStore.release_at]
  have hlevel : ∀ t, (b.popped ids' ix s).store.level t = b.store.level t :=
    fun t => congrArg Resting.level (hentry t)
  refine ⟨r.map b.entry, by simp [abs, hL], hlev, ids', hrun, hheld, _, _, hrep', ?_, ?_, ?_, ?_⟩
  · exact hfol.of_keeps ⟨rfl, rfl, rfl, rfl, rfl⟩
  · rw [abs_update L ([] ++ r) hentry]
    rfl
  · intro t ht
    rw [Function.update_self] at ht
    rw [hlevel]
    exact hahead t (by rw [hL]; exact List.mem_cons_of_mem s ht)
  · have hq := hdrop.queue
    obtain ⟨_, _, _, hlv', _⟩ := retire_effect (b := b.popped ids' ix s) T ix (b.store.next s)
    simp only [hst, hlev, hlv', Function.update_self, List.nil_append] at hq
    have hlane : (retire (opposite T) b ix s).lane r ix = b.lane r ix := by
      simp only [lane, hst]
    rw [hlane] at hq
    have hhead := hq.path.head_eq
    simp only [Function.update_self, List.nil_append, hlevel]
    cases hr : b.lane r ix with
    | nil =>
        rw [hr] at hhead
        refine .inl ⟨hhead, fun t ht he => ?_⟩
        exact lane_ne_nil.mpr ⟨t, ht, he⟩ hr
    | cons t l =>
        rw [hr] at hhead
        simp only [List.headD_cons] at hhead
        have ht : t ∈ b.lane r ix := by simp [hr]
        -- the level of the front is the best one, so what is left of its queue comes first
        cases r with
        | nil => simp [lane] at hr
        | cons u r =>
            have hsort := hrep.sorted T
            simp only [hL, hst] at hsort
            have h2 := (List.pairwise_cons.mp hsort).2
            have hu : b.store.level u = ix := by
              have hsu := (ahead_iff b.n).mp (hahead u (by simp [hL]))
              have hut : rank T b.n (b.store.level u) ≤ rank T b.n ix := by
                obtain ⟨hmem, hlt⟩ := mem_lane.mp ht
                rw [← hlt]
                rcases List.mem_cons.mp hmem with rfl | hmem
                · exact le_rfl
                · exact (ahead_iff b.n).mp (List.rel_of_pairwise_cons h2 hmem)
              have := rank_inj (le_antisymm hut hsu)
              omega
            have htu : t = u := by
              simp only [lane, List.filter_cons, hu, decide_true, if_true] at hr
              exact ((List.cons.inj hr).1).symm
            refine .inr ⟨r, ?_, ?_⟩
            · rw [hhead, htu]
            · rw [hhead, htu, hu]

theorem Front.requantify (h : Front R T b ix s A) (hs : s ≠ kNil) {q d : Qty} (hq : q ≠ 0)
    (hd : b.store.qty s - d = q) :
    ∃ es, A T = b.entry s :: es ∧ b.store.level s = ix ∧
      Front R T (b.requantified ix s q d) ix s
        (Function.update A T ({ b.entry s with qty := q } :: es)) := by
  obtain ⟨L, free, hrep, hfol, rfl, hahead, hat⟩ := h
  obtain ⟨hnil, _⟩ | ⟨r, hL, hlev⟩ := hat
  · exact absurd hnil hs
  obtain ⟨_, _, hst, _⟩ := retire_effect (b := b) T ix s
  have hmem : s ∈ L T := by simp [hL]
  have hrep' := hrep.requantified (T := T) (s := s) (q := q) (d := d) hmem hq
    (by rw [hst]; exact hd)
  rw [hst, hlev, ← retire_requantified (opposite T) ix hs] at hrep'
  have hrec := FreeListStore.setQty_at b.store s q
  have hentry : ∀ t, (b.requantified ix s q d).entry t =
      if t = s then { b.entry s with qty := q } else b.entry t := by
    intro t
    simp only [entry, OrderBook.requantified, subLevelQty, setLevel, FreeListStore.level,
      FreeListStore.id, FreeListStore.qty, FreeListStore.owner, hrec]
    by_cases hts : t = s
    · simp [hts]
    · simp [hts]
  have hout : ∀ U, ∀ t ∈ L U, (t ≠ s ∨ U = T) := by
    intro U t ht
    by_cases hts : t = s
    · subst hts
      exact .inr (hrep.side_unique ht hmem)
    · exact .inl hts
  have hnd : s ∉ r := by
    have := hrep.nodup T
    rw [hL] at this
    exact (List.nodup_cons.mp this).1
  have hlevel : ∀ t, (b.requantified ix s q d).store.level t = b.store.level t := by
    intro t
    have := congrArg Resting.level (hentry t)
    by_cases hts : t = s
    · rw [if_pos hts] at this
      rw [hts] at this ⊢
      exact this
    · rw [if_neg hts] at this
      exact this
  refine ⟨r.map b.entry, by simp [abs, hL], hlev, L, free, hrep', ?_, ?_, ?_, .inr ⟨r, hL, ?_⟩⟩
  · exact hfol.of_keeps ⟨rfl, rfl, rfl, rfl, rfl⟩
  · funext U
    by_cases hU : U = T
    · subst hU
      rw [Function.update_self]
      simp only [abs, hL, List.map_cons, hentry, if_true]
      congr 1
      refine List.map_congr_left fun t ht => ?_
      rw [hentry, if_neg (ne_of_mem_of_not_mem ht hnd)]
    · rw [Function.update_of_ne hU]
      refine List.map_congr_left fun t ht => ?_
      rw [hentry, if_neg ((hout U t ht).resolve_right hU)]
  · intro t ht
    rw [hlevel]
    exact hahead t ht
  · rw [hlevel, hlev]

structure Sends (cap : Nat) (sink sink' : Sink) (evs : List Event) : Prop where
  events : sink'.events = sink.events ++ evs
  calls : ∀ c ∈ sink'.calls, c ∈ sink.calls ∨ c.Meets cap

namespace Sends

variable {cap : Nat} {sink sink' sink'' : Sink} {evs evs' : List Event}

theorem refl (cap : Nat) (sink : Sink) : Sends cap sink sink [] := ⟨by simp, fun _ => .inl⟩

theorem trans (h : Sends cap sink sink' evs) (h' : Sends cap sink' sink'' evs') :
    Sends cap sink sink'' (evs ++ evs') where
  events := by rw [h'.events, h.events, List.append_assoc]
  calls c hc := (h'.calls c hc).elim (h.calls c) .inr

theorem emit (h : Sends cap sink sink' evs) (e : Event) :
    Sends cap sink (sink'.emit e) (evs ++ [e]) where
  events := by simp [Sink.emit, h.events]
  calls := h.calls

theorem call (h : Sends cap sink sink' evs) {c : IndexCall} (hc : c.Meets cap) :
    Sends cap sink (sink'.call c) evs where
  events := h.events
  calls d hd := by
    rcases List.mem_append.mp hd with hd | hd
    · exact h.calls d hd
    · rw [List.mem_singleton.mp hd]
      exact .inr hc

end Sends

theorem Front.done (h : Front R T b ix kNil A) : ∀ e ∈ A T, e.level ≠ ix := by
  obtain ⟨L, free, hrep, _, rfl, _, hat⟩ := h
  obtain ⟨_, hnone⟩ | ⟨r, hL, _⟩ := hat
  · intro e he
    obtain ⟨t, ht, rfl⟩ := List.mem_map.mp he
    exact hnone t ht
  · exact absurd rfl (hrep.slot_ne_nil (T := T) (s := kNil) (by simp [hL]))

theorem dropMaker_eq (ix : Nat) {ids' : OrderIndex}
    (hrun : b.ids.eraseKnown (b.store.id s) s = some ids') (sink : Sink) :
    (b.subLevelQty ix (b.store.qty s)).dropMaker s sink =
      some (b.popped ids' ix s, sink.call (.eraseKnown b.ids (b.store.id s) s)) := by
  change (b.ids.eraseKnown (b.store.id s) s >>= _) = _
  rw [hrun]
  rfl

section Sweep

variable (taker : OrderId) (owner : OwnerId) (limit : Int) (stp : Stp)

/-- What one pass over a maker does, in terms of the abstract sweep. -/
inductive MakerPass (R : Rules) (T : Side) (ix : Nat) (A : PriorityBook) (q : Qty) (sink : Sink)
    (abstract : List Resting → Qty → Outcome) :
    Option (Loop.Pass (SweepState σ) (SweepState σ)) → Prop
  | stop {b' : OrderBook σ} {s' : Nat} {q' : Qty} {sink' : Sink} {l' : List Resting}
    {evs : List Event}
      (front : Front R T b' ix s' (Function.update A T l'))
        (sends : Sends R.cfg.maxOrders sink sink' evs)
      (eq : abstract (A T) q = ⟨l', q', true, evs⟩) :
      MakerPass R T ix A q sink abstract (some (.leave ⟨b', s', q', true, sink'⟩))
  | filled {b' : OrderBook σ} {s' : Nat} {sink' : Sink} {l' : List Resting} {evs : List Event}
      (front : Front R T b' ix s' (Function.update A T l'))
        (sends : Sends R.cfg.maxOrders sink sink' evs)
      (eq : abstract (A T) q = (abstract l' 0).behind evs) :
      MakerPass R T ix A q sink abstract (some (.leave ⟨b', s', 0, false, sink'⟩))
  | again {b' : OrderBook σ} {s' : Nat} {q' : Qty} {sink' : Sink} {l' : List Resting}
      {evs : List Event}
      (front : Front R T b' ix s' (Function.update A T l'))
        (sends : Sends R.cfg.maxOrders sink sink' evs)
      (left : q' ≠ 0) (shorter : l'.length < (A T).length)
      (eq : abstract (A T) q = (abstract l' q').behind evs) :
      MakerPass R T ix A q sink abstract (some (.again ⟨b', s', q', false, sink'⟩))

theorem sweepMaker_spec (h : Front R T b ix s A) (hs : s ≠ kNil) {q : Qty} (hq : q ≠ 0)
    (hin : inRange (opposite T) limit ix = true) (sink : Sink) :
    MakerPass R T ix A q sink (PriorityBook.sweep R (opposite T) taker owner limit stp)
      (sweepMaker (opposite T) taker owner limit stp ix ⟨b, s, q, false, sink⟩) := by
  obtain ⟨es, hA, hlev, ids', hrun, hmeets, hfront⟩ := h.drop hs
  have hfol : Follows R b := by
    obtain ⟨_, _, _, hfol, _⟩ := h
    exact hfol
  have hself : Function.update A T (A T) = A := Function.update_eq_self T A
  have hrange : ¬ (q = 0 ∨ ¬ inRange (opposite T) limit (b.entry s).level = true) := by
    simp only [hq, false_or, not_not]
    change inRange (opposite T) limit (b.store.level s) = true
    rw [hlev]
    exact hin
  have hpos : b.store.qty s ≠ 0 := by
    obtain ⟨L, _, hrep, _, _, _, hat⟩ := h
    obtain ⟨hnil, _⟩ | ⟨r, hL, _⟩ := hat
    · exact absurd hnil hs
    · obtain ⟨_, _, hst, _⟩ := retire_effect (b := b) T ix s
      have := (hrep.filed T s (by simp [hL])).2
      rwa [hst] at this
  have hdrop := fun sink => dropMaker_eq ix hrun sink
  have hprice : R.priceOf (b.entry s).level = b.priceOf ix := by
    rw [hfol.priceOf]
    change R.priceOf (b.store.level s) = _
    rw [hlev]
  by_cases hself_trade : stp ≠ .none ∧ b.store.owner s = owner
  · by_cases hci : stp = .cancelIncoming
    · have hpass : sweepMaker (opposite T) taker owner limit stp ix ⟨b, s, q, false, sink⟩ =
          some (.leave ⟨b, s, q, true, sink⟩) := by
        simp only [sweepMaker, if_neg hs, if_pos hself_trade, if_pos hci]
        rfl
      rw [hpass]
      have hsweep : PriorityBook.sweep R (opposite T) taker owner limit stp
          (A T) q = ⟨A T, q, true, []⟩ := by
        rw [hA]
        simp only [PriorityBook.sweep, if_neg hrange]
        rw [if_pos (show stp ≠ .none ∧ (b.entry s).owner = owner from hself_trade), if_pos hci]
      exact .stop (hself.symm ▸ h) (Sends.refl _ sink) hsweep
    by_cases hdec : stp = .decrementCancel ∧ q < b.store.qty s
    · obtain ⟨es', hA', _, hfront'⟩ := h.requantify hs (q := b.store.qty s - q) (d := q)
        (by have := hdec.2; grind) rfl
      obtain rfl : es' = es := by
        rw [hA] at hA'
        exact (List.cons.inj hA').2.symm
      have hpass : sweepMaker (opposite T) taker owner limit stp ix ⟨b, s, q, false, sink⟩ =
          some (.leave ⟨b.requantified ix s (b.store.qty s - q) q, s, q, true, sink.emit
            (stpDecrementEvent b.symbol (b.store.id s) (opposite (opposite T)) (b.priceOf ix)
              (b.store.qty s - q))⟩) := by
        simp only [sweepMaker, if_neg hs, if_pos hself_trade, if_neg hci, if_pos hdec]
        rfl
      rw [hpass]
      refine .stop hfront' ((Sends.refl _ sink).emit _) ?_
      rw [hA]
      simp only [PriorityBook.sweep, if_neg hrange, hprice, hfol.symbol]
      rw [if_pos (show stp ≠ .none ∧ (b.entry s).owner = owner from hself_trade), if_neg hci,
        if_pos (show stp = .decrementCancel ∧ q < (b.entry s).qty from hdec)]
      rfl
    have hstep : sweepMaker (opposite T) taker owner limit stp ix ⟨b, s, q, false, sink⟩ =
        (let sink' := (sink.emit (canceledEvent R.symbol (b.store.id s) (opposite (opposite T))
          (R.priceOf (b.entry s).level) (b.store.qty s) .selfTrade)).call
            (.eraseKnown b.ids (b.store.id s) s)
        if stp = .decrementCancel then
          if b.store.qty s = q then
            some (.leave ⟨b.popped ids' ix s, b.store.next s, q, true, sink'⟩)
          else some (.again ⟨b.popped ids' ix s, b.store.next s, q - b.store.qty s, false,
            sink'.emit (stpDecrementEvent R.symbol taker (opposite T) (R.priceOf limit)
              (q - b.store.qty s))⟩)
        else some (.again ⟨b.popped ids' ix s, b.store.next s, q, false, sink'⟩)) := by
      simp only [sweepMaker, if_neg hs, if_pos hself_trade, if_neg hci, if_neg hdec, hdrop, hprice,
        hfol.symbol, hfol.priceOf limit]
      rfl
    have hsend := ((Sends.refl R.cfg.maxOrders sink).emit (canceledEvent R.symbol (b.store.id s)
      (opposite (opposite T)) (R.priceOf (b.entry s).level) (b.store.qty s) .selfTrade)).call hmeets
    have hsweep : PriorityBook.sweep R (opposite T) taker owner limit stp (b.entry s :: es) q =
        (let ev := canceledEvent R.symbol (b.store.id s) (opposite (opposite T))
          (R.priceOf (b.entry s).level) (b.store.qty s) .selfTrade
        if stp = .decrementCancel then
          if b.store.qty s = q then ⟨es, q, true, [ev]⟩
          else
            (PriorityBook.sweep R (opposite T) taker owner limit stp es (q - b.store.qty s)).behind
            [ev, stpDecrementEvent R.symbol taker (opposite T) (R.priceOf limit)
              (q - b.store.qty s)]
        else (PriorityBook.sweep R (opposite T) taker owner limit stp es q).behind [ev]) := by
      rw [PriorityBook.sweep, if_neg hrange,
        if_pos (show stp ≠ .none ∧ (b.entry s).owner = owner from hself_trade), if_neg hci,
        if_neg (show ¬ (stp = .decrementCancel ∧ q < (b.entry s).qty) from hdec)]
      rfl
    rw [hstep]
    by_cases hdc : stp = .decrementCancel
    · simp only [if_pos hdc] at hsweep ⊢
      by_cases heq : b.store.qty s = q
      · simp only [if_pos heq] at hsweep ⊢
        exact .stop hfront hsend (hA ▸ hsweep)
      · simp only [if_neg heq] at hsweep ⊢
        refine .again hfront (hsend.emit _) ?_ (by rw [hA]; simp) (hA ▸ hsweep)
        intro h0
        exact heq (by grind)
    · simp only [if_neg hdc] at hsweep ⊢
      exact .again hfront hsend hq (by rw [hA]; simp) (hA ▸ hsweep)
  · have hstep : ∀ fill, fill = (if b.store.qty s < q then b.store.qty s else q) →
        sweepMaker (opposite T) taker owner limit stp ix ⟨b, s, q, false, sink⟩ =
        (let sink' := sink.emit (tradeEvent R.symbol taker (b.store.id s) (opposite T)
          (R.priceOf (b.entry s).level) fill (b.store.qty s - fill))
        if b.store.qty s - fill ≠ 0 then
          some (.leave ⟨b.requantified ix s (b.store.qty s - fill) fill, s, q - fill, false, sink'⟩)
        else ((b.subLevelQty ix fill).dropMaker s sink').bind fun r =>
          if q - fill = 0 then some (.leave ⟨r.1, b.store.next s, q - fill, false, r.2⟩)
          else some (.again ⟨r.1, b.store.next s, q - fill, false, r.2⟩)) := by
      rintro fill rfl
      simp only [sweepMaker, if_neg hs, if_neg hself_trade, hprice, hfol.symbol]
      rfl
    have hsweep : ∀ fill, fill = (if b.store.qty s < q then b.store.qty s else q) →
        PriorityBook.sweep R (opposite T) taker owner limit stp (b.entry s :: es) q =
        (let ev := tradeEvent R.symbol taker (b.store.id s) (opposite T)
          (R.priceOf (b.entry s).level) fill (b.store.qty s - fill)
        if b.store.qty s - fill ≠ 0 then
          ⟨{ b.entry s with qty := b.store.qty s - fill } :: es, q - fill, false, [ev]⟩
        else
          (PriorityBook.sweep R (opposite T) taker owner limit stp es (q - fill)).behind [ev]) := by
      rintro fill rfl
      rw [PriorityBook.sweep, if_neg hrange,
        if_neg (show ¬ (stp ≠ .none ∧ (b.entry s).owner = owner) from hself_trade)]
      rfl
    by_cases hless : b.store.qty s ≤ q
    · -- the whole maker trades
      have hfill : b.store.qty s = if b.store.qty s < q then b.store.qty s else q := by
        split
        · rfl
        · grind
      have hzero : b.store.qty s - b.store.qty s = 0 := by grind
      rw [hstep _ hfill]
      have hs' := hsweep _ hfill
      simp only [hzero, ne_eq, not_true_eq_false, if_false, hdrop] at hs' ⊢
      have hsend := ((Sends.refl R.cfg.maxOrders sink).emit (tradeEvent R.symbol taker
        (b.store.id s) (opposite T) (R.priceOf (b.entry s).level) (b.store.qty s) 0)).call hmeets
      by_cases hq0 : q - b.store.qty s = 0
      · rw [hq0] at hs'
        simp only [Option.bind_some, if_pos hq0]
        rw [hq0]
        exact .filled hfront hsend (hA ▸ hs')
      · simp only [Option.bind_some, if_neg hq0]
        exact .again hfront hsend hq0 (by rw [hA]; simp) (hA ▸ hs')
    · -- the taker is filled and the maker keeps a remainder
      have hfill : q = if b.store.qty s < q then b.store.qty s else q := by
        rw [if_neg]
        grind
      have hleft : b.store.qty s - q ≠ 0 := by grind
      have hzero : q - q = 0 := by grind
      obtain ⟨es', hA', _, hfront'⟩ := h.requantify hs (q := b.store.qty s - q) (d := q) hleft rfl
      obtain rfl : es' = es := by
        rw [hA] at hA'
        exact (List.cons.inj hA').2.symm
      rw [hstep _ hfill]
      have hs' := hsweep _ hfill
      simp only [if_pos hleft, hzero] at hs' ⊢
      refine .filled hfront' ((Sends.refl _ sink).emit _) ?_
      rw [hA, hs', PriorityBook.sweep, if_pos (.inl rfl)]
      rfl

theorem sweepMakers_spec (hin : inRange (opposite T) limit ix = true) (fuel : Nat) :
    ∀ {b : OrderBook σ} {s : Nat} {A : PriorityBook} {q : Qty} (sink : Sink),
      Front R T b ix s A → q ≠ 0 → (A T).length < fuel →
      ∃ st l' evs, Loop.runM (sweepMaker (opposite T) taker owner limit stp ix) fuel
        ⟨b, s, q, false, sink⟩ =
          some st ∧ Front R T st.book ix st.s (Function.update A T l') ∧
        Sends R.cfg.maxOrders sink st.sink evs ∧
        ((st.stpStop = true ∧
            PriorityBook.sweep R (opposite T) taker owner limit stp
              (A T) q = ⟨l', st.qty, true, evs⟩) ∨
          (st.stpStop = false ∧ PriorityBook.sweep R (opposite T) taker owner limit stp (A T) q =
              (PriorityBook.sweep R (opposite T) taker owner limit stp l' st.qty).behind evs ∧
            (st.qty = 0 ∨ ∀ e ∈ l', e.level ≠ ix))) := by
  induction fuel with
  | zero => intro b s A q sink _ _ hlen; omega
  | succ fuel ih =>
      intro b s A q sink h hq hlen
      by_cases hs : s = kNil
      · have hpass : sweepMaker (opposite T) taker owner limit stp ix ⟨b, s, q, false, sink⟩ =
            some (.leave ⟨b, s, q, false, sink⟩) := by
          simp only [sweepMaker, if_pos hs]
          rfl
        subst hs
        refine ⟨_, A T, [], Loop.runM_leave hpass fuel, ?_, Sends.refl _ sink,
          .inr ⟨rfl, rfl, .inr h.done⟩⟩
        rw [Function.update_eq_self]
        exact h
      · generalize hpass : sweepMaker (opposite T) taker owner limit stp ix
          ⟨b, s, q, false, sink⟩ = pass
        have hspec := sweepMaker_spec taker owner limit stp h hs hq hin sink
        rw [hpass] at hspec
        cases hspec with
        | stop front sends eq =>
            exact ⟨_, _, _, Loop.runM_leave hpass fuel, front, sends, .inl ⟨rfl, eq⟩⟩
        | filled front sends eq =>
            exact ⟨_, _, _, Loop.runM_leave hpass fuel, front, sends, .inr ⟨rfl, eq, .inl rfl⟩⟩
        | @again b' s' q' sink' l₁ evs₁ front sends left shorter eq =>
            obtain ⟨st, l', evs, hrun, hfront, hsends, hres⟩ :=
              ih sink' front left (by rw [Function.update_self]; omega)
            rw [Function.update_idem] at hfront
            rw [Function.update_self] at hres
            refine ⟨st, l', evs₁ ++ evs, (Loop.runM_again hpass fuel).trans hrun, hfront,
              sends.trans hsends, ?_⟩
            rcases hres with ⟨hstop, hres⟩ | ⟨hstop, hres, hend⟩
            · refine .inl ⟨hstop, ?_⟩
              rw [eq, hres]
              rfl
            · refine .inr ⟨hstop, ?_, hend⟩
              rw [eq, hres, Outcome.behind_behind]

/-- The number of levels from the best order of a side to the end of the ladder. -/
def depth (T : Side) (n : Nat) : List Resting → Nat
  | [] => 0
  | e :: _ => ((n : Int) - rank T n e.level).toNat

theorem Refines.length_le (h : Refines R b A) (T : Side) : (A T).length ≤ b.store.cap := by
  obtain ⟨L, free, hrep, _, rfl⟩ := h
  have := hrep.length_eq
  have := hrep.live_eq
  simp only [abs, List.length_map]
  cases T <;> omega

theorem Refines.level_lt (h : Refines R b A) {T : Side} : ∀ e ∈ A T, e.level < b.n := by
  obtain ⟨L, free, hrep, _, rfl⟩ := h
  intro e he
  obtain ⟨t, ht, rfl⟩ := List.mem_map.mp he
  exact hrep.level_lt ht

theorem Refines.crosses_eq (h : Refines R b A) (S : Side) {limit : Int} (h0 : 0 ≤ limit)
    (hn : limit < b.n) :
    b.crosses S limit = PriorityBook.crosses A S limit := by
  obtain ⟨L, free, hrep, _, rfl⟩ := h
  exact hrep.crosses_eq S h0 hn

theorem Refines.follows (h : Refines R b A) : Follows R b := by
  obtain ⟨_, _, _, hfol, _⟩ := h
  exact hfol

theorem Front.ahead (h : Front R T b ix s A) : ∀ e ∈ A T, ahead T ix e.level = true := by
  obtain ⟨L, free, _, _, rfl, hahead, _⟩ := h
  intro e he
  obtain ⟨t, ht, rfl⟩ := List.mem_map.mp he
  exact hahead t ht

private theorem sweep_not_crosses {q : Qty}
    (h : ¬ (q ≠ 0 ∧ PriorityBook.crosses A (opposite T) limit = true)) :
    PriorityBook.sweep R (opposite T) taker owner limit stp (A T) q = ⟨A T, q, false, []⟩ := by
  cases hA : A T with
  | nil => simp [PriorityBook.sweep]
  | cons e es =>
      rw [PriorityBook.sweep, if_pos]
      simp only [PriorityBook.crosses, opposite_opposite, hA] at h
      by_contra hc
      rw [not_or, not_not] at hc
      exact h hc

theorem sweepLevels_spec (h0 : 0 ≤ limit) (hn : limit < R.cfg.numLevels) (fuel : Nat) :
    ∀ {b : OrderBook σ} {s : Nat} {A : PriorityBook} {q : Qty} (sink : Sink),
      Refines R b A → (if q = 0 then 0 else depth T R.cfg.numLevels (A T)) < fuel →
      ∃ st, Loop.runM (sweepLevel (opposite T) taker owner limit stp) fuel
        ⟨b, s, q, false, sink⟩ = some st ∧
        let o := PriorityBook.sweep R (opposite T) taker owner limit stp (A T) q
        Refines R st.book (Function.update A T o.makers) ∧ st.qty = o.qty ∧ st.stpStop = o.stop ∧
          Sends R.cfg.maxOrders sink st.sink o.events := by
  induction fuel with
  | zero => intro b s A q sink _ hlt; omega
  | succ fuel ih =>
      intro b s A q sink h hlt
      have hfol := h.follows
      have hcross := h.crosses_eq (opposite T) h0 (by rw [hfol.n]; exact hn)
      by_cases hgo : q ≠ 0 ∧ b.crosses (opposite T) limit = true
      · obtain ⟨e, es, hA⟩ : ∃ e es, A T = e :: es := by
          rw [hcross] at hgo
          cases hA : A T with
          | nil => simp [PriorityBook.crosses, hA] at hgo
          | cons e es => exact ⟨e, es, rfl⟩
        have hin : inRange (opposite T) limit e.level = true := by
          rw [hcross] at hgo
          simpa [PriorityBook.crosses, hA] using hgo.2
        obtain ⟨htop, hfront⟩ := h.front hA
        have hix : (b.best (opposite T)).toNat = e.level := by
          change (b.top T).toNat = _
          rw [htop, Int.toNat_natCast]
        obtain ⟨st, l', evs, hrun, hfront', hsends, hres⟩ :=
          sweepMakers_spec taker owner limit stp hin
          b.queueFuel sink hfront hgo.1 (Nat.lt_succ_of_le (h.length_le T))
        have hrep' := hfront'.refines
        have hlevel : sweepLevel (opposite T) taker owner limit stp ⟨b, s, q, false, sink⟩ =
            (let st' := { st with book := retire (opposite T) st.book e.level st.s }
            if st.stpStop then some (.leave st') else some (.again st')) := by
          simp only [sweepLevel, if_pos hgo, hix, hrun]
          rfl
        rcases hres with ⟨hstop, hres⟩ | ⟨hstop, hres, hend⟩
        · rw [hstop] at hlevel
          refine ⟨_, Loop.runM_leave hlevel fuel, ?_⟩
          rw [hres]
          exact ⟨hrep', rfl, rfl, hsends⟩
        · simp only [hstop, Bool.false_eq_true, if_false] at hlevel
          have hless : (if st.qty = 0 then 0 else depth T R.cfg.numLevels l') < fuel := by
            rw [if_neg hgo.1, hA] at hlt
            have hel := h.level_lt e (by rw [hA]; simp)
            rw [hfol.n] at hel
            have hd : 0 < depth T R.cfg.numLevels (e :: es) := by
              simp only [depth]
              cases T <;> simp only [rank] <;> omega
            split
            · omega
            · have hne := hend.resolve_left (by assumption)
              cases l' with
              | nil => simp only [depth]; omega
              | cons x xs =>
                  have hx := (ahead_iff R.cfg.numLevels).mp (hfront'.ahead x (by simp))
                  have hxe : rank T R.cfg.numLevels x.level ≠ rank T R.cfg.numLevels e.level :=
                    fun hc => hne x (by simp) (by exact_mod_cast rank_inj hc)
                  simp only [depth] at hlt hd ⊢
                  omega
          obtain ⟨st', hrun', hrep'', hq', hs', hsends'⟩ := ih (s := st.s) st.sink hrep'
            (by rw [Function.update_self]; exact hless)
          rw [Function.update_idem] at hrep''
          rw [Function.update_self] at hrep'' hq' hs' hsends'
          obtain ⟨stBook, stS, stQty, stStop, stSink⟩ := st
          simp only at hstop
          subst hstop
          refine ⟨st', (Loop.runM_again hlevel fuel).trans hrun', ?_⟩
          rw [hres]
          exact ⟨hrep'', hq', hs', hsends.trans hsends'⟩
      · have hpass : sweepLevel (opposite T) taker owner limit stp ⟨b, s, q, false, sink⟩ =
            some (.leave ⟨b, s, q, false, sink⟩) := by
          simp only [sweepLevel, if_neg hgo]
          rfl
        refine ⟨_, Loop.runM_leave hpass fuel, ?_⟩
        rw [hcross] at hgo
        simp only [sweep_not_crosses taker owner limit stp hgo, Function.update_eq_self]
        exact ⟨h, trivial, trivial, Sends.refl _ sink⟩

theorem Refines.sweep (h : Refines R b A) (h0 : 0 ≤ limit) (hn : limit < R.cfg.numLevels) (S : Side)
    (q : Qty) (sink : Sink) :
    ∃ st, b.sweep S taker owner limit q stp sink = some st ∧
      let o := PriorityBook.sweep R S taker owner limit stp (A (opposite S)) q
      Refines R st.book (Function.update A (opposite S) o.makers) ∧ st.qty = o.qty ∧
        st.stpStop = o.stop ∧
        Sends R.cfg.maxOrders sink st.sink o.events := by
  have hfuel :
      (if q = 0 then 0 else depth (opposite S) R.cfg.numLevels (A (opposite S))) < b.levelFuel := by
    rw [levelFuel, h.follows.n]
    split
    · omega
    · cases hA : A (opposite S) with
      | nil => simp [depth]
      | cons e es =>
          have := h.level_lt e (by rw [hA]; simp)
          rw [h.follows.n] at this
          simp only [depth]
          cases S <;> simp only [opposite, rank] <;> omega
  have := sweepLevels_spec (T := opposite S) taker owner limit stp h0 hn b.levelFuel
    (s := kNil) sink h hfuel
  rw [opposite_opposite] at this
  exact this

end Sweep

end OrderBook
end ExchangeSim.Book
