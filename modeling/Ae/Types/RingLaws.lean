/- source: types/ring_index.h
   digest: The operators of a ring index, in words of 64 bits, are those of a cyclic group. -/

import Ae.Types.Ring

set_option autoImplicit false

namespace Ae.Types.RingLaws
open Types.Ring RingIndex IndexComparable

variable {max : Nat} (i : RingIndex max)

/-- `value_` becomes this word, reduced. -/
def store (word : Nat) : RingIndex max :=
  ⟨word % 2 ^ 64 % max, Nat.mod_lt _ i.max_pos⟩

def plus (val : Nat) : RingIndex max := store i (i.value + val)

def minus (val : Nat) : RingIndex max :=
  store i (if val > i.value then (max + 2 ^ 64 - val) % 2 ^ 64 + i.value else i.value - val)

def increment : RingIndex max := store i (i.value + 1)

def decrement : RingIndex max := store i (i.value + 2 ^ 64 - 1)

/-- The default index `0` is below `Max`, and the operators are those of a cyclic group. -/
structure Cyclic (max : Nat) : Prop where
  start : 0 < max
  distance_plus : ∀ (a : RingIndex max) n, n ≤ max → a.distance (plus a n) = n % max
  plus_minus : ∀ (a : RingIndex max) n, n ≤ max → minus (plus a n) n = a
  minus_plus : ∀ (a : RingIndex max) n, n ≤ max → plus (minus a n) n = a
  increment : ∀ a : RingIndex max, increment a = plus a 1
  decrement : ∀ a : RingIndex max, decrement a = minus a 1
  agrees : ∀ b x y : RingIndex max, (mk x b).lt y ↔ b.distance x < b.distance y
  order : ∀ b : RingIndex max, IsStrictTotalOrder (RingIndex max) fun x y => (mk x b).lt y

section

variable (small : max < 2 ^ 63 - 1) (a : RingIndex max) {n : Nat} (within : n ≤ max)
include small within

theorem plus_eq : plus a n = a.add n := by
  have := a.value_lt
  refine RingIndex.ext ?_
  change (a.value + n) % 2 ^ 64 % max = (a.value + n) % max
  rw [Nat.mod_eq_of_lt (by omega : a.value + n < 2 ^ 64)]

theorem minus_eq : minus a n = a.add (max - n) := by
  have := a.value_lt
  refine RingIndex.ext ?_
  rw [add_value (Nat.sub_le max n)]
  change (if n > a.value then _ else _) % 2 ^ 64 % max = _
  split
  · have hw : (max + 2 ^ 64 - n) % 2 ^ 64 = max - n := by omega
    rw [hw, Nat.mod_eq_of_lt (by omega : max - n + a.value < 2 ^ 64),
      Nat.mod_eq_of_lt (by omega), if_pos (by omega), add_comm]
  · rw [Nat.mod_eq_of_lt (by omega : a.value - n < 2 ^ 64), Nat.mod_eq_of_lt (by omega)]
    split <;> omega

omit small in
theorem add_turn : (a.add n).add (max - n) = a ∧ (a.add (max - n)).add n = a := by
  have ht : a.add max = a := by simpa using add_add_max a 0
  rw [add_add, add_add, Nat.sub_add_cancel within, Nat.add_sub_cancel' within]
  exact ⟨ht, ht⟩

end

theorem mod_eq_last_iff (hp : 0 < max) (w : Nat) : w % max = max - 1 ↔ max ∣ w + 1 := by
  have hls := Nat.mod_lt w hp
  rw [Nat.dvd_iff_mod_eq_zero, ← Nat.mod_add_mod]
  constructor
  · intro hl
    rw [hl, Nat.sub_add_cancel hp, Nat.mod_self]
  · intro hz
    by_contra inner
    rw [Nat.mod_eq_of_lt (by omega)] at hz
    omega

/-- Below zero the word wraps to `2 ^ 64 - 1`, which is the last index only of a ring whose order
divides `2 ^ 64`. -/
theorem decrement_eq_iff (small : max < 2 ^ 63 - 1) (hp : 0 < max) :
    (∀ a : RingIndex max, decrement a = minus a 1) ↔ max ∣ 2 ^ 64 := by
  have hl := mod_eq_last_iff hp (2 ^ 64 - 1)
  have hb (a : RingIndex max) :
      (minus a 1).value = if a.value = 0 then max - 1 else a.value - 1 := by
    have := a.value_lt
    rw [minus_eq small a hp, add_value (Nat.sub_le max 1)]
    split <;> split <;> omega
  have hw (a : RingIndex max) : (a.value + 2 ^ 64 - 1) % 2 ^ 64 =
      if a.value = 0 then 2 ^ 64 - 1 else a.value - 1 := by
    have := a.value_lt
    split <;> omega
  refine Iff.trans ⟨fun ha => ?_, fun ht a => RingIndex.ext ?_⟩ hl
  · have hv := congrArg RingIndex.value (ha ⟨0, hp⟩)
    change ((⟨0, hp⟩ : RingIndex max).value + 2 ^ 64 - 1) % 2 ^ 64 % max = _ at hv
    rwa [hb, hw] at hv
  · have := a.value_lt
    rw [hb]
    change (a.value + 2 ^ 64 - 1) % 2 ^ 64 % max = _
    rw [hw]
    split
    · exact ht
    · exact Nat.mod_eq_of_lt (by omega)

theorem strictTotalOrder (b : RingIndex max) :
    IsStrictTotalOrder (RingIndex max) fun x y => (mk x b).lt y :=
  RelEmbedding.isStrictTotalOrder (s := ((· < ·) : Nat → Nat → Prop))
    ⟨⟨b.distance, fun _ _ => distance_inj.mp⟩, (lt_iff _ b _).symm⟩

/-- For the sizes that the template admits, the ring index is a cyclic group exactly where its
order divides `2 ^ 64`. -/
theorem cyclic_iff (max : Nat) (small : max < 2 ^ 63 - 1) : Cyclic max ↔ max ∣ 2 ^ 64 := by
  constructor
  · intro hc
    exact (decrement_eq_iff small hc.start).mp hc.decrement
  · intro hd
    have hp : 0 < max := Nat.pos_of_dvd_of_pos hd (by decide)
    refine ⟨hp, fun a n le => ?_, fun a n le => ?_, fun a n le => ?_, fun a => rfl,
      (decrement_eq_iff small hp).mpr hd, fun b x y => lt_iff x b y,
      strictTotalOrder⟩
    · rw [plus_eq small a le, distance_add]
    · rw [minus_eq small _ le, plus_eq small a le, (add_turn a le).1]
    · rw [plus_eq small _ le, minus_eq small a le, (add_turn a le).2]

theorem cyclic_iff_four : Cyclic 4 := (cyclic_iff 4 (by decide)).mpr (by decide)

/-- In a ring of three, the index before `0` is `0`. -/
theorem zero_decremented : ¬ Cyclic 3 := fun hc =>
  absurd (hc.decrement ⟨0, by decide⟩) (by decide)

end Ae.Types.RingLaws
