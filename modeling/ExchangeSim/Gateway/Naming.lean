/- digest: Orders under the names of their clients, and the reports of a command as events in these
   names tell them. -/

import ExchangeSim.Gateway.Gateway

set_option autoImplicit false
set_option relaxedAutoImplicit false

namespace ExchangeSim.Gateway

structure Naming where
  name : OwnerId → OrderId → OrderId
  owner : OrderId → OwnerId
  client : OrderId → OrderId
  /-- The client ids that it tells apart. -/
  Covers : OwnerId → OrderId → Prop
  invalid : ∀ o, name o 0 = 0
  valid : ∀ {o k}, Covers o k → name o k ≠ 0
  owner_name : ∀ {o k}, Covers o k → owner (name o k) = o
  client_name : ∀ {o k}, Covers o k → client (name o k) = k

namespace Naming

private theorem packed_toNat {o : OwnerId} {k : OrderId} (ho : o.toNat < 2 ^ 16)
    (hk : k.toNat < 2 ^ 48) :
    (o.toUInt64 * 2 ^ 48 + k).toNat = o.toNat * 2 ^ 48 + k.toNat := by
  have hbase : (2 ^ 48 : UInt64).toNat = 2 ^ 48 := rfl
  rw [UInt64.toNat_add, UInt64.toNat_mul, UInt32.toNat_toUInt64, hbase]
  omega

/-- Owners of 16 bits above client ids of 48. -/
def packed : Naming where
  name o k := if k = 0 then 0 else o.toUInt64 * 2 ^ 48 + k
  owner x := (x / 2 ^ 48).toUInt32
  client x := x % 2 ^ 48
  Covers o k := o.toNat < 2 ^ 16 ∧ k ≠ 0 ∧ k.toNat < 2 ^ 48
  invalid _ := if_pos rfl
  valid := by
    rintro o k ⟨ho, hk, hlt⟩ hzero
    rw [if_neg hk] at hzero
    have hval := congrArg UInt64.toNat hzero
    rw [packed_toNat ho hlt] at hval
    have hk : k.toNat ≠ 0 := fun h => hk (UInt64.toNat_inj.mp h)
    have hbase : (0 : UInt64).toNat = 0 := rfl
    omega
  owner_name := by
    rintro o k ⟨ho, hk, hlt⟩
    rw [if_neg hk, ← UInt32.toNat_inj, UInt64.toNat_toUInt32, UInt64.toNat_div, packed_toNat ho hlt,
      show (2 ^ 48 : UInt64).toNat = 2 ^ 48 from rfl]
    have := o.toNat_lt
    omega
  client_name := by
    rintro o k ⟨ho, hk, hlt⟩
    rw [if_neg hk, ← UInt64.toNat_inj, UInt64.toNat_mod, packed_toNat ho hlt,
      show (2 ^ 48 : UInt64).toNat = 2 ^ 48 from rfl]
    omega

/-- What a viewer may see of an order: its own client id, or nothing. -/
def shown (v : Naming) (viewer : OwnerId) (x : OrderId) : OrderId :=
  if x ≠ 0 ∧ v.owner x = viewer then v.client x else 0

/-- An event as a viewer may see it. -/
def seen (v : Naming) (viewer : OwnerId) (e : Event) : Event :=
  { e with orderId := v.shown viewer e.orderId, makerId := v.shown viewer e.makerId }

/-- A fill as the maker may see it: nothing of the taker, and its own client id. -/
def filled (v : Naming) (e : Event) : Event :=
  { e with orderId := 0, makerId := v.client e.makerId }

/-- Where the maker of a trade with this taker is connected, if it is somebody else. -/
def makerFd (v : Naming) (ownerFd : OwnerId → Option Fd) (taker : OwnerId)
    (e : Event) : Option Fd :=
  if e.makerId = 0 ∨ e.type ≠ .trade ∨ v.owner e.makerId = taker then none else
    ownerFd (v.owner e.makerId)

/-- What an event of the command `c` of the session at `fd` brings to the session at `f`. -/
def items (v : Naming) (ownerFd : OwnerId → Option Fd) (fd : Fd) (clientSeq : UInt64) (c : Command)
    (f : Fd) (e : Event) :
    List Item :=
  (if f = fd then [⟨c.seq, .exec (v.seen c.owner e) clientSeq⟩] else []) ++
    if v.makerFd ownerFd c.owner e = some f then [⟨c.seq, .exec (v.filled e) 0⟩] else []

/-- The reports of the command `c` of the session at `fd` to the session at `f`, when these are its
events. -/
def reports (v : Naming) (ownerFd : OwnerId → Option Fd) (fd : Fd) (clientSeq : UInt64)
    (c : Command) (events : List Event) (f : Fd) : List Item :=
  events.flatMap (v.items ownerFd fd clientSeq c f) ++ if f = fd then
    [⟨c.seq, .done c.symbol clientSeq⟩] else []

theorem shown_name (v : Naming) {o : OwnerId} {k : OrderId} (h : k = 0 ∨ v.Covers o k)
    (viewer : OwnerId) :
    v.shown viewer (v.name o k) = if o = viewer then k else 0 := by
  rcases h with rfl | h
  · rw [v.invalid, shown, if_neg fun hand => hand.1 rfl]
    split <;> rfl
  · rw [shown, v.owner_name h, v.client_name h]
    simp [v.valid h]

/-! ### Two namings -/

private theorem place_toNat {ps : List (OwnerId × OrderId)} (short : ps.length < 2 ^ 64)
    {p : OwnerId × OrderId} (hmem : p ∈ ps) :
    (UInt64.ofNat (ps.idxOf p + 1)).toNat = ps.idxOf p + 1 := by
  have hlt := List.idxOf_lt_length_of_mem hmem
  rw [UInt64.toNat_ofNat', Nat.mod_eq_of_lt (by omega)]

private theorem getElem?_place {ps : List (OwnerId × OrderId)} (short : ps.length < 2 ^ 64)
    {p : OwnerId × OrderId} (hmem : p ∈ ps) :
    ps[(UInt64.ofNat (ps.idxOf p + 1)).toNat - 1]? = some p := by
  rw [place_toNat short hmem, Nat.add_sub_cancel]
  exact List.getElem?_idxOf hmem

/-- The names of the pairs of a list are their places in it, from 1 on. -/
def numbered (ps : List (OwnerId × OrderId)) (short : ps.length < 2 ^ 64) : Naming where
  name o k := if k = 0 then 0 else UInt64.ofNat (ps.idxOf (o, k) + 1)
  owner x := (ps[x.toNat - 1]?).elim 0 Prod.fst
  client x := (ps[x.toNat - 1]?).elim 0 Prod.snd
  Covers o k := k ≠ 0 ∧ (o, k) ∈ ps
  invalid _ := if_pos rfl
  valid := by
    rintro o k ⟨hk, hmem⟩ hzero
    rw [if_neg hk, ← UInt64.toNat_inj, place_toNat short hmem] at hzero
    exact absurd hzero (Nat.succ_ne_zero _)
  owner_name := by
    rintro o k ⟨hk, hmem⟩
    rw [if_neg hk, getElem?_place short hmem]
    rfl
  client_name := by
    rintro o k ⟨hk, hmem⟩
    rw [if_neg hk, getElem?_place short hmem]
    rfl

/-- The client ids of one owner, as they are. -/
def sole (o : OwnerId) : Naming where
  name _ k := k
  owner _ := o
  client x := x
  Covers o' k := o' = o ∧ k ≠ 0
  invalid _ := rfl
  valid h := h.2
  owner_name h := h.1.symm
  client_name _ := rfl

theorem sole_shown (o : OwnerId) (x : OrderId) : (sole o).shown o x = x := by
  by_cases hx : x = 0
  · rw [shown, if_neg fun h => h.1 hx, hx]
  · exact if_pos ⟨hx, rfl⟩

theorem sole_items (ownerFd : OwnerId → Option Fd) (fd : Fd) (clientSeq : UInt64) (c : Command)
    (f : Fd) (e : Event) :
    (sole c.owner).items ownerFd fd clientSeq c f e =
      if f = fd then [⟨c.seq, .exec e clientSeq⟩] else [] := by
  have hseen : (sole c.owner).seen c.owner e = e := by
    rw [seen, sole_shown, sole_shown]
  have hnone : (sole c.owner).makerFd ownerFd c.owner e = none :=
    if_pos (.inr (.inr rfl))
  rw [items, hseen, hnone, if_neg (c := none = some f) nofun, List.append_nil]

theorem sole_reports (ownerFd : OwnerId → Option Fd) (fd : Fd) (clientSeq : UInt64) (c : Command)
    (events : List Event) (f : Fd) :
    (sole c.owner).reports ownerFd fd clientSeq c events f =
      if f = fd then (events.map fun e => ⟨c.seq, .exec e clientSeq⟩) ++
        [⟨c.seq, .done c.symbol clientSeq⟩] else [] := by
  rw [reports, List.flatMap_congr fun e _ => sole_items ownerFd fd clientSeq c f e]
  split
  · rw [List.map_eq_flatMap]
  · simp

end Naming

end ExchangeSim.Gateway
