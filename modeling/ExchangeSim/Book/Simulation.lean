/- digest: Every command of the concrete book is simulated by the abstract book. -/

import ExchangeSim.Book.Traversal

set_option autoImplicit false
set_option relaxedAutoImplicit false

namespace ExchangeSim.Book

open ExchangeSim.Lib
open PriorityBook (Rules ahead inRange lookup eraseId join)

namespace OrderBook

variable {σ : Type} [StoreLayout σ] {b : OrderBook σ} {L : Side → List Nat}
    {free : List Nat} {T : Side}
  {R : Rules} {A : PriorityBook}

theorem Refines.ok (h : Refines R b A) : PriorityBook.Ok R A := by
  obtain ⟨L, free, hrep, hfol, rfl⟩ := h
  refine ⟨fun S => ?_, fun S => ?_, fun S => ?_, ?_, ?_, ?_⟩
  · exact List.pairwise_map.mpr (hrep.sorted S)
  · intro e he
    obtain ⟨t, ht, rfl⟩ := List.mem_map.mp he
    exact (hrep.filed S t ht).2
  · intro e he
    obtain ⟨t, ht, rfl⟩ := List.mem_map.mp he
    rw [← hfol.n]
    exact hrep.level_lt ht
  · have hnd : (L .buy ++ L .sell).Nodup := (List.nodup_append.mp hrep.pool_nodup).1
    have hside : ∀ t ∈ L .buy ++ L .sell, ∃ U, t ∈ L U := by
      intro t ht
      rcases List.mem_append.mp ht with ht | ht
      · exact ⟨_, ht⟩
      · exact ⟨_, ht⟩
    have hpw : (L .buy ++ L .sell).Pairwise fun s t => (b.entry s).id ≠ (b.entry t).id := by
      refine hnd.imp_of_mem fun hs ht hne he => ?_
      obtain ⟨U, hU⟩ := hside _ hs
      obtain ⟨V, hV⟩ := hside _ ht
      exact hne (hrep.ids_inj U V _ hU _ hV he)
    rw [show b.abs L .buy ++ b.abs L .sell = (L .buy ++ L .sell).map b.entry by simp [abs],
      List.pairwise_map]
    exact hpw
  · intro x hx y hy
    obtain ⟨s, hs, rfl⟩ := List.mem_map.mp hx
    obtain ⟨t, ht, rfl⟩ := List.mem_map.mp hy
    exact hrep.apart s hs t ht
  · have := hrep.length_eq
    have := hrep.live_eq
    rw [← hfol.cap]
    simp only [PriorityBook.count, abs, List.length_map]
    omega

theorem refines_make (hash : IndexHash) (symbol : SymbolId) {cfg : BookConfig} (ok : cfg.Accepted) :
    Refines ⟨symbol, cfg⟩ (make hash symbol cfg : OrderBook σ) PriorityBook.empty := by
  have hcap := (FreeListStore.free_make (σ := σ) cfg.maxOrders ok.orders_lt.le).2.2
  exact ⟨_, _, rep_make hash symbol ok, ⟨rfl, rfl, rfl, rfl, hcap⟩, rfl⟩

private theorem Rep.entry_id_ne (h : Rep b L free) {s : Nat} (hs : s ∈ L T) {U : Side}
    {t : Nat} (ht : t ∈ L U) (hne : t ≠ s) : (b.entry t).id ≠ b.store.id s :=
  fun he => hne (h.ids_inj U T t ht s hs he)

theorem Rep.lookup_some (h : Rep b L free) {s : Nat} (hs : s ∈ L T) :
    lookup (b.abs L) (b.store.id s) = some (T, b.entry s) := by
  have hfind : ((L T).map b.entry).find? (·.id = b.store.id s) = some (b.entry s) := by
    rw [List.find?_map, Option.map_eq_some_iff]
    refine ⟨s, ?_, rfl⟩
    obtain ⟨p, r, hL⟩ := List.append_of_mem hs
    have hnd := h.nodup T
    rw [hL, List.find?_append, List.find?_eq_none.mpr, Option.none_or]
    · simp [entry]
    · intro t ht
      have hts : t ≠ s := by
        rintro rfl
        rw [hL] at hnd
        exact (List.nodup_middle.mp hnd).notMem (List.mem_append_left _ ht)
      have := h.entry_id_ne hs (U := T) (t := t) (by rw [hL]; simp [ht]) hts
      simpa using this
  cases T with
  | buy => simp only [lookup, abs, hfind]
  | sell =>
      have hnone : ((L .buy).map b.entry).find? (·.id = b.store.id s) = none := by
        rw [List.find?_eq_none]
        intro e he
        obtain ⟨t, ht, rfl⟩ := List.mem_map.mp he
        have hts : t ≠ s := by
          rintro rfl
          exact absurd (h.side_unique ht hs) (by decide)
        simpa using h.entry_id_ne hs ht hts
      simp only [lookup, abs, hnone, hfind, Option.map_some]

theorem lookup_none {id : OrderId} (h : ∀ U, ∀ t ∈ L U, b.store.id t ≠ id) :
    lookup (b.abs L) id = none := by
  have hnone : ∀ U, ((L U).map b.entry).find? (·.id = id) = none := by
    intro U
    rw [List.find?_eq_none]
    intro e he
    obtain ⟨t, ht, rfl⟩ := List.mem_map.mp he
    rw [decide_eq_true_eq]
    exact h U t ht
  simp only [lookup, abs, hnone, Option.map_none]

theorem Rep.eraseId_eq (h : Rep b L free) {s : Nat} {p r : List Nat} (hL : L T = p ++ s :: r) :
    eraseId (b.store.id s) (b.abs L T) = (p ++ r).map b.entry := by
  have hs : s ∈ L T := by simp [hL]
  have hnd := h.nodup T
  rw [hL] at hnd
  have hout := (List.nodup_middle.mp hnd).notMem
  have hkeep : ∀ l : List Nat, (∀ t ∈ l, t ∈ p ++ r) →
      eraseId (b.store.id s) (l.map b.entry) = l.map b.entry := by
    intro l hl
    rw [eraseId, List.filter_eq_self]
    intro e he
    obtain ⟨t, ht, rfl⟩ := List.mem_map.mp he
    have htL : t ∈ L T := by
      have := hl t ht
      rw [hL]
      simp only [List.mem_append, List.mem_cons] at this ⊢
      tauto
    have hts : t ≠ s := ne_of_mem_of_not_mem (hl t ht) hout
    simpa using h.entry_id_ne hs htL hts
  have h1 := hkeep p fun t ht => List.mem_append_left _ ht
  have h2 := hkeep r fun t ht => List.mem_append_right _ ht
  have hself : eraseId (b.store.id s) [b.entry s] = [] := by simp [eraseId, entry]
  have hsplit : ∀ l l', eraseId (b.store.id s) (l ++ l') = eraseId (b.store.id s) l ++ eraseId
      (b.store.id s) l' :=
    fun l l' => List.filter_append ..
  rw [abs, hL, List.map_append, List.map_cons, ← List.singleton_append, hsplit,
    hsplit, h1, h2, hself, List.nil_append, List.map_append]

theorem Rep.cut (h : Rep b L free) (T : Side) (ix : Nat) : ∃ p r, L T = p ++ r ∧
    (∀ t ∈ p, ahead T (b.store.level t) ix = true) ∧ ∀ t ∈ r,
    ahead T (b.store.level t) ix = false := by
  set f : Nat → Bool := fun t => ahead T (b.store.level t) ix with hf
  refine ⟨(L T).takeWhile f, (L T).dropWhile f, List.takeWhile_append_dropWhile.symm, ?_, ?_⟩
  · intro t ht
    exact List.mem_takeWhile_imp (p := f) ht
  · have hsort := (h.sorted T).sublist (List.dropWhile_sublist f)
    intro t ht
    cases hd : (L T).dropWhile f with
    | nil => rw [hd] at ht; cases ht
    | cons u l =>
        have hu : f u = false := by
          have := List.head_dropWhile_not f (l := L T) (by rw [hd]; simp)
          simpa only [hd, List.head_cons] using this
        rw [hd] at ht hsort
        rcases List.mem_cons.mp ht with rfl | ht
        · exact hu
        · have hut := (ahead_iff b.n).mp (List.rel_of_pairwise_cons hsort ht)
          simp only [hf] at hu
          rw [← Bool.not_eq_true, ahead_iff b.n] at hu ⊢
          omega

theorem Refines.rest (h : Refines R b A) {id : OrderId} (hid : ∀ U, ∀ e ∈ A U, e.id ≠ id)
    (owner : OwnerId) (ix : Nat) (hix : ix < R.cfg.numLevels)
    (hfar : ∀ e ∈ A (opposite T), inRange T ix e.level = false) {qty : Qty} (hq : qty ≠ 0)
    (ts : UInt64) (sink : Sink) :
    ∃ b' sink', b.rest T id owner ix qty ts sink = some (b', sink') ∧
      let r := PriorityBook.rest R A T ⟨ix, id, qty, owner⟩
      Refines R b' r.1 ∧ Sends R.cfg.maxOrders sink sink' r.2 := by
  have hmine : Refines R b A := h
  obtain ⟨L, free, hrep, hfol, rfl⟩ := h
  have hcount : PriorityBook.count (b.abs L) + free.length = R.cfg.maxOrders := by
    rw [← hfol.cap, ← hrep.length_eq, hrep.live_eq]
    simp only [PriorityBook.count, abs, List.length_map]
  cases free with
  | nil =>
      have hnil : b.store.free = kNil := hrep.unused
      refine ⟨b, sink.emit (canceledEvent b.symbol id T (b.priceOf ix) qty .bookFull), ?_, ?_⟩
      · simp only [OrderBook.rest, FreeListStore.alloc, hnil, ne_eq, not_true_eq_false,
          if_false, if_true]
        rfl
      · rw [PriorityBook.rest, if_pos (by simp only [List.length_nil] at hcount; omega)]
        rw [hfol.priceOf, hfol.symbol]
        exact ⟨hmine, (Sends.refl _ sink).emit _⟩
  | cons s f =>
      obtain ⟨hfree, hsnil, _⟩ := hrep.unused
      have hsfree : s ∈ s :: f := List.mem_cons_self
      have hid' : ∀ U, ∀ t ∈ L U, b.store.id t ≠ id :=
        fun U t ht => hid U _ (List.mem_map_of_mem ht)
      have hfar' : ∀ t ∈ L (opposite T), inRange T ix (b.store.level t) = false :=
        fun t ht => hfar _ (List.mem_map_of_mem ht)
      obtain ⟨p, r, hL, hp, hr⟩ := hrep.cut T ix
      set b₀ : OrderBook σ :=
        { b with store := { b.store with free := b.store.next s, live := b.store.live + 1 } } with
          hb₀
      have halloc : b.store.alloc = (s, b₀.store) := by
        simp only [FreeListStore.alloc, hfree, ne_eq, hsnil, not_false_eq_true, if_true, hb₀]
      have hkeepids : (b₀.enqueue T s id owner ix qty ts).ids = b.ids :=
        (enqueue_effect (b := b₀) T s id owner ix qty ts).2.1
      have hrec := enqueue_at (b := b₀) T s id owner ix qty ts
      have hentry : ∀ t, (b₀.enqueue T s id owner ix qty ts).entry t =
          if t = s then ⟨ix, id, qty, owner⟩ else b.entry t := by
        intro t
        simp only [entry, FreeListStore.level, FreeListStore.id, FreeListStore.qty,
          FreeListStore.owner, hrec]
        by_cases hts : t = s
        · simp [hts]
        · simp [hts, hb₀]
      have hroom : b.ids.size < b.store.cap := by
        have := hrep.length_eq
        rw [hrep.ids_size]
        simp only [List.length_cons] at this
        omega
      have hout : ∀ U, s ∉ L U := fun U hs => hrep.not_free hs hsfree
      have hnew : ∀ e, b.ids.Holds e → e.value ≠ s := by
        intro e he hes
        obtain ⟨U, t, ht, rfl⟩ := (hrep.ids_holds e).mp he
        exact hout U (hes ▸ ht)
      obtain ⟨ids', hrun, hok, hsize, hhash, _, hbits, hholds⟩ :=
        OrderIndex.insert_spec hrep.ids_ok id hsnil hroom hnew
      have hmeets : (IndexCall.insert b.ids (b₀.enqueue T s id owner ix qty ts).store.id id s).Meets
          R.cfg.maxOrders := by
        refine ⟨?_, by rw [← hfol.cap]; exact hroom⟩
        obtain ⟨v, hv, _, hsome⟩ :=
          OrderIndex.find_spec hrep.ids_ok id (b₀.enqueue T s id owner ix qty ts).store.id
        by_cases hk : v = kNil
        · rw [hv, hk]
        · obtain ⟨hheld, hkey⟩ := hsome hk
          obtain ⟨U, t, ht, he⟩ := (hrep.ids_holds _).mp hheld
          obtain rfl : v = t := congrArg IndexSlot.value he
          have := congrArg Resting.id (hentry v)
          rw [if_neg (ne_of_mem_of_not_mem ht (hout U))] at this
          exact absurd (this.symm.trans hkey) (hid' U v ht)
      have hrep' :=
        hrep.enqueued hL hp hr (by rw [hfol.n]; exact hix) hfar' hid' hq owner ts ids' hok hsize
        hhash hbits hholds
      refine ⟨{ b₀.enqueue T s id owner ix qty ts with ids := ids' }, sink.call (.insert
        (b₀.enqueue T s id owner ix qty ts).ids (b₀.enqueue T s id owner ix qty ts).store.id id s),
          ?_, ?_⟩
      · simp only [OrderBook.rest, halloc, if_neg hsnil]
        change ((b₀.enqueue T s id owner ix qty ts).ids.insert id s >>= _) = _
        rw [hkeepids, hrun]
        rfl
      · rw [PriorityBook.rest, if_neg (by simp only [List.length_cons] at hcount; omega)]
        refine ⟨⟨_, _, hrep', ?_, ?_⟩, (Sends.refl _ sink).call (by rw [hkeepids]; exact hmeets)⟩
        · have hk := (enqueue_effect (b := b₀) T s id owner ix qty ts).1
          exact hfol.of_keeps ⟨hk.symbol, hk.minPrice, hk.n, hk.stp, hk.cap⟩
        · have hmap : ∀ l : List Nat, s ∉ l →
              l.map (b₀.enqueue T s id owner ix qty ts).entry = l.map b.entry := by
            intro l hl
            refine List.map_congr_left fun t ht => ?_
            rw [hentry, if_neg (ne_of_mem_of_not_mem ht hl)]
          have hpr : s ∉ p ∧ s ∉ r := by
            have := hout T
            rw [hL] at this
            simpa using this
          have hjoin : join T ⟨ix, id, qty, owner⟩ (b.abs L T) =
              p.map b.entry ++ ⟨ix, id, qty, owner⟩ :: r.map b.entry := by
            rw [abs, hL, List.map_append]
            refine PriorityBook.join_append T _ ?_ ?_
            · intro e he
              obtain ⟨t, ht, rfl⟩ := List.mem_map.mp he
              exact hp t ht
            · intro e he
              obtain ⟨t, ht, rfl⟩ := List.mem_map.mp he
              exact hr t ht
          funext U
          change Function.update (b.abs L) T (join T ⟨ix, id, qty, owner⟩ (b.abs L T)) U =
            (Function.update L T (p ++ s :: r) U).map (b₀.enqueue T s id owner ix qty ts).entry
          by_cases hU : U = T
          · subst hU
            rw [Function.update_self, hjoin, Function.update_self, List.map_append,
              List.map_cons, hmap p hpr.1, hmap r hpr.2, hentry, if_pos rfl]
          · rw [Function.update_of_ne hU, Function.update_of_ne hU, hmap _ (hout U)]
            rfl

theorem Refines.enter (h : Refines R b A) (S : Side) {id : OrderId}
    (hid : ∀ U, ∀ e ∈ A U, e.id ≠ id) (owner : OwnerId) (limit : Int) (h0 : 0 ≤ limit)
    (hn : limit < R.cfg.numLevels) (qty : Qty) (stp : Stp) (px : Price) (mayRest : Bool)
    (ts : UInt64) (sink : Sink) :
    ∃ st, b.sweep S id owner limit qty stp sink = some st ∧ Follows R st.book ∧
      let r := PriorityBook.enter R A S id owner limit qty stp px mayRest
      (st.qty = 0 → Refines R st.book r.1 ∧ Sends R.cfg.maxOrders sink st.sink r.2) ∧
      (st.qty ≠ 0 → st.stpStop = true → Refines R st.book r.1 ∧ Sends R.cfg.maxOrders sink
        (st.sink.emit (canceledEvent R.symbol id S px st.qty .selfTrade)) r.2) ∧
      (st.qty ≠ 0 → st.stpStop = false → mayRest = false → Refines R st.book r.1 ∧
        Sends R.cfg.maxOrders sink
        (st.sink.emit (canceledEvent R.symbol id S px st.qty .iocExpired)) r.2) ∧
      (st.qty ≠ 0 → st.stpStop = false → mayRest = true → ∃ b' sink',
        st.book.rest S id owner limit.toNat st.qty ts st.sink = some (b', sink') ∧
        Refines R b' r.1 ∧ Sends R.cfg.maxOrders sink sink' r.2) := by
  obtain ⟨st, hrun, hrep, hqty, hstop, hsends⟩ := h.sweep id owner limit stp h0 hn S qty sink
  have hfar := PriorityBook.sweep_done R S id owner limit stp (A (opposite S)) qty
  have hsub := PriorityBook.sweep_sub R S id owner limit stp (A (opposite S)) qty
  refine ⟨st, hrun, hrep.follows, ?_⟩
  simp only [PriorityBook.enter]
  generalize PriorityBook.sweep R S id owner limit stp (A (opposite S)) qty = o at *
  refine ⟨fun hz => ?_, fun hz hs => ?_, fun hz hs hm => ?_, fun hz hs hm => ?_⟩
  · rw [if_pos (hqty ▸ hz)]
    exact ⟨hrep, hsends⟩
  · rw [if_neg (hqty ▸ hz), if_pos (hstop ▸ hs), hqty]
    exact ⟨hrep, hsends.emit _⟩
  · rw [if_neg (hqty ▸ hz), if_neg (by rw [← hstop, hs]; decide), if_pos (by simp [hm]), hqty]
    exact ⟨hrep, hsends.emit _⟩
  · rw [if_neg (hqty ▸ hz), if_neg (by rw [← hstop, hs]; decide), if_neg (by simp [hm])]
    have hfresh : ∀ U, ∀ e ∈ Function.update A (opposite S) o.makers U, e.id ≠ id := by
      intro U e he
      by_cases hU : U = opposite S
      · subst hU
        rw [Function.update_self] at he
        obtain ⟨e', he', heq, _⟩ := hsub e he
        rw [show e.id = e'.id from (congrArg Resting.id heq).symm]
        exact hid _ e' he'
      · rw [Function.update_of_ne hU] at he
        exact hid U e he
    have hlim : ((limit.toNat : Nat) : Int) = limit := Int.toNat_of_nonneg h0
    have hclear : ∀ e ∈ Function.update A (opposite S) o.makers (opposite S),
        inRange S (limit.toNat : Nat) e.level = false := by
      have hsort := hrep.ok.sorted (opposite S)
      rw [Function.update_self] at hsort ⊢
      rw [hlim]
      have hhead := hfar (hqty ▸ hz) (hstop ▸ hs)
      intro e he
      cases hm' : o.makers with
      | nil => rw [hm'] at he; cases he
      | cons x xs =>
          rw [hm'] at hhead hsort he
          have hx := hhead x rfl
          rcases List.mem_cons.mp he with rfl | he
          · exact hx
          · have hxe := (ahead_iff R.cfg.numLevels).mp (List.rel_of_pairwise_cons hsort he)
            have hiff := inRange_iff (T := opposite S) R.cfg.numLevels limit
            simp only [opposite_opposite] at hiff
            rw [← Bool.not_eq_true, hiff] at hx ⊢
            omega
    obtain ⟨b', sink', hrest, hrep', hsends'⟩ := hrep.rest (T := S) hfresh owner limit.toNat
      (by omega) hclear hz ts st.sink
    refine ⟨b', sink', hrest, ?_⟩
    rw [hqty] at hrep' hsends'
    exact ⟨hrep', hsends.trans hsends'⟩

theorem Refines.limit_range (h : Refines R b A) {S : Side} {c : Command} {limit : Int}
    (hlim : R.limitOf S c = some limit) : 0 ≤ limit ∧ limit < R.cfg.numLevels := by
  have hpos : 0 < R.cfg.numLevels := by
    obtain ⟨_, _, hrep, hfol, _⟩ := h
    rw [← hfol.n]
    exact hrep.n_pos
  cases hty : c.ordType with
  | market =>
      simp only [Rules.limitOf, hty, Option.some.injEq] at hlim
      cases S <;> simp only at hlim <;> omega
  | limit =>
      simp only [Rules.limitOf, hty, Rules.relOf] at hlim
      split at hlim
      · cases hlim
      · simp only [Option.map_some, Option.some.injEq] at hlim
        omega

theorem Refines.find (h : Refines R b A) (id : OrderId) :
    (b.ids.find id b.store.id = some kNil ∧ lookup A id = none ∧ ∀ U, ∀ e ∈ A U, e.id ≠ id) ∨
      ∃ s, s ≠ kNil ∧ b.ids.find id b.store.id = some s ∧ (lookup A id).isSome = true := by
  obtain ⟨L, free, hrep, hfol, rfl⟩ := h
  rcases hrep.find id with ⟨hf, hnone⟩ | ⟨T, s, hs, hf, rfl⟩
  · refine .inl ⟨hf, lookup_none hnone, fun U e he => ?_⟩
    obtain ⟨t, ht, rfl⟩ := List.mem_map.mp he
    exact hnone U t ht
  · exact .inr ⟨s, hrep.slot_ne_nil hs, hf, by rw [hrep.lookup_some hs]; rfl⟩

theorem Refines.killed (h : Refines R b A) (S : Side) (c : Command) {limit : Int}
    (hn : limit < R.cfg.numLevels) (stp : Stp) :
    b.killed S c limit stp = some (decide (c.tif = .fok ∧
      ¬ PriorityBook.fillableAgg S limit c.owner stp (A (opposite S)) c.qty)) := by
  rw [OrderBook.killed, h.fillable S hn]
  cases c.tif <;> simp

theorem Refines.execute (h : Refines R b A) (S : Side) (c : Command)
    (hid : ∀ U, ∀ e ∈ A U, e.id ≠ c.orderId) {limit : Int} (h0 : 0 ≤ limit)
    (hn : limit < R.cfg.numLevels) (px : Price) (stp : Stp) (sink : Sink) :
    ∃ b' sink', b.execute S c limit px stp sink = some (b', sink') ∧
      let r := PriorityBook.enter R A S c.orderId c.owner limit c.qty stp px
        (decide (c.ordType = .limit ∧ c.tif = .day))
      Refines R b' r.1 ∧ Sends R.cfg.maxOrders sink sink' r.2 := by
  obtain ⟨st, hrun, _, hzero, hstp, hexp, hrest⟩ :=
    h.enter S hid c.owner limit h0 hn c.qty stp px
      (decide (c.ordType = .limit ∧ c.tif = .day)) c.ts sink
  simp only [OrderBook.execute, hrun, Option.bind_eq_bind, Option.bind_some, h.follows.symbol]
  by_cases hz : st.qty = 0
  · simp only [if_pos hz]
    exact ⟨_, _, rfl, hzero hz⟩
  by_cases hs : st.stpStop = true
  · simp only [if_neg hz, if_pos hs]
    exact ⟨_, _, rfl, hstp hz hs⟩
  rw [Bool.not_eq_true] at hs
  by_cases hday : c.ordType = .market ∨ c.tif ≠ .day
  · simp only [if_neg hz, hs, Bool.false_eq_true, if_false, if_pos hday]
    refine ⟨_, _, rfl, hexp hz hs ?_⟩
    rw [decide_eq_false_iff_not]
    rintro ⟨h1, h2⟩
    rcases hday with h3 | h3
    · rw [h1] at h3
      cases h3
    · exact h3 h2
  · simp only [if_neg hz, hs, Bool.false_eq_true, if_false, if_neg hday]
    refine hrest hz hs ?_
    rw [not_or, not_not] at hday
    rw [decide_eq_true_eq]
    refine ⟨?_, hday.2⟩
    cases hty : c.ordType with
    | limit => rfl
    | market => exact absurd hty hday.1

theorem Refines.add (h : Refines R b A) (c : Command) (sink : Sink) :
    ∃ b' sink', b.add c sink = some (b', sink') ∧
      let r := PriorityBook.add R PriorityBook.fillableAgg A c
      Refines R b' r.1 ∧ Sends R.cfg.maxOrders sink sink' r.2 := by
  have hadd : b.add c sink = b.addSide c.side c sink := by
    rw [OrderBook.add]
    cases c.side <;> rfl
  rw [hadd]
  have hfol := h.follows
  have hnow : ∀ e : Event, Refines R b A ∧ Sends R.cfg.maxOrders sink (sink.emit e) [e] :=
    fun e => ⟨h, (Sends.refl _ sink).emit e⟩
  simp only [addSide, PriorityBook.add, hfol.limitOf]
  by_cases hid0 : c.orderId = 0
  · simp only [if_pos hid0]
    exact ⟨_, _, rfl, hnow _⟩
  by_cases hq0 : c.qty = 0
  · simp only [if_neg hid0, if_pos hq0]
    exact ⟨_, _, rfl, hnow _⟩
  simp only [if_neg hid0, if_neg hq0]
  cases hlim : R.limitOf c.side c with
  | none => exact ⟨_, _, rfl, hnow _⟩
  | some limit =>
      obtain ⟨h0, hn⟩ := h.limit_range hlim
      rcases h.find c.orderId with ⟨hfind, hlook, hfresh⟩ | ⟨s, hs, hfind, hlook⟩
      · simp only [hfind, hlook, Option.isSome_none, Bool.false_eq_true, if_false,
          Option.bind_eq_bind, Option.bind_some, ne_eq, not_true_eq_false,
          h.crosses_eq c.side h0 (by rw [hfol.n]; exact hn)]
        by_cases hpost : ¬ c.flags &&& kFlagPostOnly = 0 ∧
          PriorityBook.crosses A c.side limit = true
        · simp only [if_pos hpost]
          exact ⟨_, _, rfl, hnow _⟩
        simp only [if_neg hpost, h.killed c.side c hn, Option.bind_some, hfol.symbol, hfol.stp,
          decide_eq_true_eq]
        split
        · exact ⟨_, _, rfl, h, ((Sends.refl _ sink).emit _).emit _⟩
        · obtain ⟨b', sink', hrun, hrep, hsends⟩ := h.execute c.side c hfresh h0 hn c.eventPrice
            (effectiveStp c.flags R.cfg.stp)
              (sink.emit (acceptedEvent R.symbol c.orderId c.side c.eventPrice c.qty))
          exact ⟨b', sink', hrun, hrep, ((Sends.refl _ sink).emit _).trans hsends⟩
      · simp only [hfind, hlook, if_true, Option.bind_eq_bind, Option.bind_some, if_pos hs]
        exact ⟨_, _, rfl, hnow _⟩

private theorem cons_of_erase {ids' : OrderIndex} (h : Rep b L free) {s : Nat} (hs : s ∈ L T)
    (he : Erases b.store.cap s b.ids ids') (hfol : Follows R b) :
    Refines R (b.takeOut ids' s)
      (Function.update (b.abs L) T (eraseId (b.store.id s) (b.abs L T))) := by
  obtain ⟨p, r, hL⟩ := List.append_of_mem hs
  have hdrop := h.takeOut hL he
  refine ⟨_, _, hdrop.rep h hL, hfol.of_keeps hdrop.keeps, ?_⟩
  rw [abs_update L (p ++ r) hdrop.entry, h.eraseId_eq hL]

theorem Refines.cancel (h : Refines R b A) (c : Command) (sink : Sink) :
    ∃ b' sink', b.cancel c sink = some (b', sink') ∧
      let r := PriorityBook.cancel R A c
      Refines R b' r.1 ∧ Sends R.cfg.maxOrders sink sink' r.2 := by
  have hself := h
  obtain ⟨L, free, hrep, hfol, rfl⟩ := h
  rcases hrep.erase c.orderId with ⟨hrun, hnone⟩ | ⟨T, s, hs, ids', hrun, hid, he⟩
  · simp only [OrderBook.cancel, PriorityBook.cancel, hrun, lookup_none hnone, Option.bind_eq_bind,
      Option.bind_some, if_true]
    exact ⟨_, _, rfl, hself, (Sends.refl _ sink).emit _⟩
  · have hlook := hrep.lookup_some hs
    rw [hid] at hlook
    simp only [OrderBook.cancel, PriorityBook.cancel, hrun, hlook, Option.bind_eq_bind,
      Option.bind_some,
      if_neg (hrep.slot_ne_nil hs), (hrep.filed T s hs).1, hfol.symbol, hfol.priceOf]
    have href := cons_of_erase hrep hs he hfol
    rw [hid] at href
    exact ⟨_, _, rfl, href, (Sends.refl _ sink).emit _⟩

private theorem amended (h : Rep b L free) (hfol : Follows R b) {s : Nat} (hs : s ∈ L T)
    {q d : Qty} (hq : q ≠ 0) (hd : b.store.qty s - d = q) :
    Refines R (b.requantified (b.store.level s) s q d)
      (Function.update (b.abs L) T (PriorityBook.setQty (b.store.id s) q (b.abs L T))) := by
  have hrec := FreeListStore.setQty_at b.store s q
  have hentry : ∀ t, (b.requantified (b.store.level s) s q d).entry t =
      if t = s then { b.entry s with qty := q } else b.entry t := by
    intro t
    simp only [entry, OrderBook.requantified, subLevelQty, setLevel, FreeListStore.level,
      FreeListStore.id, FreeListStore.qty, FreeListStore.owner, hrec]
    by_cases hts : t = s
    · simp [hts]
    · simp [hts]
  refine ⟨L, free, h.requantified hs hq hd, hfol.of_keeps ⟨rfl, rfl, rfl, rfl, rfl⟩, ?_⟩
  funext U
  by_cases hU : U = T
  · subst hU
    rw [Function.update_self, PriorityBook.setQty, abs, List.map_map]
    refine List.map_congr_left fun t ht => ?_
    rw [hentry, Function.comp_apply]
    by_cases hts : t = s
    · subst hts
      rw [if_pos rfl, if_pos (show (b.entry t).id = b.store.id t from rfl)]
    · rw [if_neg hts, if_neg (h.entry_id_ne hs ht hts)]
  · rw [Function.update_of_ne hU]
    refine List.map_congr_left fun t ht => ?_
    rw [hentry, if_neg]
    rintro rfl
    exact hU (h.side_unique ht hs)

theorem Refines.reenter (h : Refines R b A) (S : Side) {id : OrderId}
    (hid : ∀ U, ∀ e ∈ A U, e.id ≠ id) (owner : OwnerId) {ix : Nat} (hn : ix < R.cfg.numLevels)
    (qty : Qty) (ts : UInt64) (sink : Sink) :
    ∃ b' sink', b.reenter S id owner ix qty ts sink = some (b', sink') ∧
      let r := PriorityBook.enter R A S id owner ix qty R.cfg.stp (R.priceOf ix) true
      Refines R b' r.1 ∧ Sends R.cfg.maxOrders sink sink' r.2 := by
  obtain ⟨st, hrun, _, hzero, hstp, _, hrest⟩ := h.enter S hid owner ix (by omega) (by omega) qty
    R.cfg.stp (R.priceOf ix) true ts sink
  simp only [OrderBook.reenter, h.follows.stp, hrun, Option.bind_eq_bind, Option.bind_some,
    h.follows.symbol, h.follows.priceOf]
  by_cases hz : st.qty = 0
  · simp only [if_pos hz]
    exact ⟨_, _, rfl, hzero hz⟩
  by_cases hs : st.stpStop = true
  · simp only [if_neg hz, if_pos hs]
    exact ⟨_, _, rfl, hstp hz hs⟩
  rw [Bool.not_eq_true] at hs
  simp only [if_neg hz, hs, Bool.false_eq_true, if_false]
  have := hrest hz hs rfl
  rwa [Int.toNat_natCast] at this

theorem Refines.modify (h : Refines R b A) (c : Command) (sink : Sink) :
    ∃ b' sink', b.modify c sink = some (b', sink') ∧
      let r := PriorityBook.modify R A c
      Refines R b' r.1 ∧ Sends R.cfg.maxOrders sink sink' r.2 := by
  have hself := h
  have hnow : ∀ e : Event, Refines R b A ∧ Sends R.cfg.maxOrders sink (sink.emit e) [e] :=
    fun e => ⟨hself, (Sends.refl _ sink).emit e⟩
  obtain ⟨L, free, hrep, hfol, rfl⟩ := h
  simp only [OrderBook.modify, PriorityBook.modify, hfol.relOf]
  by_cases hq0 : c.qty = 0
  · simp only [if_pos hq0]
    exact ⟨_, _, rfl, hnow _⟩
  simp only [if_neg hq0]
  rcases hrep.find c.orderId with ⟨hfind, hnone⟩ | ⟨T, s, hs, hfind, hid⟩
  · simp only [hfind, lookup_none hnone, Option.bind_eq_bind, Option.bind_some, if_true]
    exact ⟨_, _, rfl, hnow _⟩
  have hlook := hrep.lookup_some hs
  rw [hid] at hlook
  simp only [hfind, hlook, Option.bind_eq_bind, Option.bind_some, if_neg (hrep.slot_ne_nil hs)]
  cases hrel : R.relOf c.price with
  | none => exact ⟨_, _, rfl, hnow _⟩
  | some ix =>
      simp only [(hrep.filed T s hs).1]
      by_cases hin : ix = b.store.level s ∧ c.qty ≤ b.store.qty s
      · simp only [if_pos hin, if_pos (show ix = (b.entry s).level ∧
          c.qty ≤ (b.entry s).qty from hin)]
        have href := amended hrep hfol hs (q := c.qty) (d := b.store.qty s - c.qty) hq0 (by grind)
        rw [hid, ← hin.1] at href
        refine ⟨_, _, rfl, href, ?_⟩
        rw [← hfol.symbol]
        exact (Sends.refl _ sink).emit _
      · simp only [if_neg hin, if_neg
          (show ¬ (ix = (b.entry s).level ∧ c.qty ≤ (b.entry s).qty) from hin)]
        obtain ⟨ids', hrun, he, hheld⟩ := hrep.eraseKnown hs
        rw [hid] at hrun hheld
        have href := cons_of_erase hrep hs he hfol
        rw [hid] at href
        have hfresh : ∀ U, ∀ e ∈ Function.update (b.abs L) T (eraseId c.orderId (b.abs L T)) U,
            e.id ≠ c.orderId := by
          intro U e hmem
          by_cases hU : U = T
          · subst hU
            rw [Function.update_self] at hmem
            simpa using (List.mem_filter.mp hmem).2
          · rw [Function.update_of_ne hU] at hmem
            obtain ⟨t, ht, rfl⟩ := List.mem_map.mp hmem
            rw [← hid]
            refine hrep.entry_id_ne hs ht ?_
            rintro rfl
            exact hU (hrep.side_unique ht hs)
        have hsend := ((Sends.refl R.cfg.maxOrders sink).call
          (c := .eraseKnown b.ids c.orderId s) hheld).emit
            (modifiedEvent R.symbol c.orderId T c.price c.qty)
        obtain ⟨b', sink', hrun', href', hsend'⟩ :=
          href.reenter T hfresh (b.store.owner s) (Rules.relOf_lt hrel) c.qty c.ts
          ((sink.call (.eraseKnown b.ids c.orderId s)).emit
            (modifiedEvent R.symbol c.orderId T c.price c.qty))
        refine ⟨b', sink', ?_, href', hsend.trans hsend'⟩
        simp only [hrun, Option.bind_some, hfol.symbol]
        cases T <;> exact hrun'

theorem Refines.process (h : Refines R b A) (c : Command) (sink : Sink) :
    ∃ b' sink', b.process c sink = some (b', sink') ∧
      let r := PriorityBook.process R PriorityBook.fillableAgg A c
      Refines R b' r.1 ∧ Sends R.cfg.maxOrders sink sink' r.2 := by
  rw [OrderBook.process, PriorityBook.process]
  cases c.type with
  | newOrder => exact h.add c sink
  | cancel => exact h.cancel c sink
  | modify => exact h.modify c sink

end OrderBook
end ExchangeSim.Book
