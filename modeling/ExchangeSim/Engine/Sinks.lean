/- digest: The digest of an event stream, its counters, and which changes of a stream it cannot
   miss. -/

import ExchangeSim.Lib.Mixing
import ExchangeSim.Wire.EventBytes

set_option autoImplicit false
set_option relaxedAutoImplicit false

namespace ExchangeSim.Engine

open Wire (eventTypeCode eventWords eventWords_injective)
open Lib.Mixing (rotl rotl_injective mul_injective xor_injective xorshift_injective foldl_injective
    foldl_ne_of_word)

/-! ### The sinks -/

structure EventDigest where
  h : UInt64 := 0xcbf29ce484222325
  count : UInt64 := 0
  deriving DecidableEq, Repr

namespace EventDigest

def mix (h x : UInt64) : UInt64 := rotl ((h ^^^ x) * 0x9E3779B97F4A7C15) 27

def onWords (d : EventDigest) (w : List UInt64) : EventDigest :=
  { h := w.foldl mix d.h, count := d.count + 1 }

def onEvent (d : EventDigest) (e : Event) : EventDigest := d.onWords (eventWords e)

/-- The last scrambling. -/
def finish (k : UInt64) : UInt64 :=
  let k := k ^^^ (k >>> 33)
  let k := k * 0xff51afd7ed558ccd
  let k := k ^^^ (k >>> 33)
  let k := k * 0xc4ceb9fe1a85ec53
  k ^^^ (k >>> 33)

def value (d : EventDigest) : UInt64 := finish (d.h ^^^ d.count)

/-- The digest of a stream. -/
def of (events : List Event) : EventDigest := events.foldl onEvent {}

end EventDigest

structure CountingSink where
  digest : EventDigest := {}
  byType : Nat → UInt64 := fun _ => 0
  volume : UInt64 := 0

namespace CountingSink

def onEvent (s : CountingSink) (e : Event) : CountingSink where
  digest := s.digest.onEvent e
  byType := Function.update s.byType (eventTypeCode e.type &&& 7).toNat
    (s.byType (eventTypeCode e.type &&& 7).toNat + 1)
  volume := if e.type = .trade then s.volume + e.qty else s.volume

def of (events : List Event) : CountingSink := events.foldl onEvent {}

end CountingSink

/-! ### What the digest tells apart -/

namespace EventDigest

theorem mix_injective (x : UInt64) : Function.Injective fun h => mix h x := by
  have hxor : Function.Injective (· ^^^ x) := by
    intro a b h
    exact (UInt64.xor_left_inj x).mp h
  exact (rotl_injective 27).comp ((mul_injective (d := 0xf1de83e19937733d) (by decide)).comp hxor)

theorem mix_word_injective (h : UInt64) : Function.Injective (mix h) :=
  (rotl_injective 27).comp ((mul_injective (d := 0xf1de83e19937733d) (by decide)).comp
    (xor_injective h))

theorem finish_injective : Function.Injective finish :=
  (xorshift_injective (k := 33) (by decide)).comp <|
    (mul_injective (d := 0x9cb4b2f8129337db) (by decide)).comp <|
    (xorshift_injective (k := 33) (by decide)).comp <|
    (mul_injective (d := 0x4f74430c22a54005) (by decide)).comp <|
    xorshift_injective (k := 33) (by decide)

theorem foldl_onEvent (events : List Event) (d : EventDigest) :
    events.foldl onEvent d =
      { h := (events.flatMap eventWords).foldl mix d.h
        count := d.count + UInt64.ofNat events.length } := by
  induction events generalizing d with
  | nil => simp
  | cons e events ih =>
      rw [List.foldl_cons, ih, List.flatMap_cons, List.foldl_append]
      simp only [onEvent, onWords, List.length_cons, EventDigest.mk.injEq, true_and]
      rw [UInt64.ofNat_add, UInt64.add_assoc, UInt64.add_comm (UInt64.ofNat events.length)]
      rfl

/-- A stream in which one event is another that differs from it in one word has another digest. -/
theorem one_word_changes_digest (before after : List Event) (e e' : Event) (i : Nat) (x : UInt64)
    (other : eventWords e' = (eventWords e).set i x) (differs : e' ≠ e) :
    (of (before ++ e' :: after)).value ≠ (of (before ++ e :: after)).value := by
  intro heq
  rw [value, value, of, of, foldl_onEvent, foldl_onEvent] at heq
  have hstate := finish_injective heq
  simp only [List.length_append, List.length_cons, UInt64.xor_left_inj, List.flatMap_append,
    List.flatMap_cons] at hstate
  have hsame : eventWords e' ≠ eventWords e := fun hwords => differs (eventWords_injective hwords)
  generalize eventWords e = w at other hstate hsame
  have hi : i < w.length := by
    by_contra hout
    rw [other, List.set_eq_of_length_le (Nat.not_lt.mp hout)] at hsame
    exact hsame rfl
  have hx : x ≠ w[i] := by
    rintro rfl
    rw [other, List.set_getElem_self] at hsame
    exact hsame rfl
  have hcut : w = w.take i ++ w[i] :: w.drop (i + 1) := by
    rw [List.getElem_cons_drop, List.take_append_drop]
  have hcut' : eventWords e' = w.take i ++ x :: w.drop (i + 1) := by
    rw [other, List.set_eq_take_append_cons_drop, if_pos hi]
  rw [hcut'] at hstate
  nth_rewrite 3 [hcut] at hstate
  refine foldl_ne_of_word mix_injective mix_word_injective ({} : EventDigest).h
    (before.flatMap eventWords ++ w.take i)
    (w.drop (i + 1) ++ after.flatMap eventWords) hx ?_
  simpa only [List.append_assoc, List.cons_append] using hstate

theorem one_word_changes_digest_qty :
    (of [acceptedEvent 0 1 .sell 100 7, tradeEvent 0 2 1 .buy 100 6 1]).value ≠
    (of [acceptedEvent 0 1 .sell 100 7, tradeEvent 0 2 1 .buy 100 5 1]).value :=
  one_word_changes_digest [acceptedEvent 0 1 .sell 100 7] [] (tradeEvent 0 2 1 .buy 100 5 1)
    (tradeEvent 0 2 1 .buy 100 6 1) 3 6
    (by decide +kernel) (by decide)

end EventDigest

end ExchangeSim.Engine
