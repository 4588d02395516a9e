/- digest: Prefix codes of numbers, whose decoder fails exactly on the proper prefixes of a code word. -/

import Mathlib.Data.List.Infix

set_option autoImplicit false

namespace Ae.Lib.PrefixCode
open List
universe u

/-- A code of the numbers up to `maxValue` over the alphabet `β`, with its decoder: from
the front of a string it reads one code word and says how many letters the word has. -/
structure Code (β : Type u) where
  maxValue : Nat
  encode : Nat → List β
  decode : List β → Option (Nat × Nat)
  encode_ne_nil : ∀ v, v ≤ maxValue → encode v ≠ []
  decode_encode : ∀ v, v ≤ maxValue →
    ∀ rest, decode (encode v ++ rest) = some (v, (encode v).length)
  encode_of_decode : ∀ s v n, decode s = some (v, n) →
    v ≤ maxValue ∧ n = (encode v).length ∧ encode v <+: s
  prefix_of_decode_none : ∀ s, decode s = none → ∃ v, v ≤ maxValue ∧ s <+: encode v ∧ s ≠ encode v

namespace Code

variable {β : Type u} (code : Code β) {s t : List β} {v n : Nat}

theorem decode_append (h : code.decode s = some (v, n)) (t : List β) :
    code.decode (s ++ t) = some (v, n) := by
  obtain ⟨hv, rfl, rest, rfl⟩ := code.encode_of_decode s v n h
  rw [append_assoc]
  exact code.decode_encode v hv (rest ++ t)

theorem decode_none_of_append (h : code.decode (s ++ t) = none) : code.decode s = none := by
  cases hs : code.decode s with
  | none => rfl
  | some r => rw [code.decode_append hs t] at h; exact absurd h (by simp)

theorem decode_length_le (h : code.decode s = some (v, n)) : n ≤ s.length := by
  obtain ⟨-, rfl, hp⟩ := code.encode_of_decode s v n h
  exact hp.length_le

theorem decode_take (h : code.decode s = some (v, n)) {k : Nat} (he : n ≤ k) :
    code.decode (s.take k) = some (v, n) := by
  obtain ⟨hv, rfl, rest, rfl⟩ := code.encode_of_decode s v n h
  rw [take_append, take_of_length_le he]
  exact code.decode_encode v hv _

@[simp] theorem decode_nil : code.decode [] = none := by
  cases h : code.decode [] with
  | none => rfl
  | some r =>
    obtain ⟨hv, -, hp⟩ := code.encode_of_decode [] r.1 r.2 h
    exact absurd (prefix_nil.mp hp) (code.encode_ne_nil _ hv)

theorem length_lt_of_decode_append (hs : code.decode s = none)
    (h : code.decode (s ++ t) = some (v, n)) : s.length < n := by
  by_contra hn
  have hc := code.decode_take h (not_lt.mp hn)
  rw [take_left] at hc
  rw [hc] at hs
  exact absurd hs (by simp)

theorem length_lt_of_decode_none {bound : Nat}
    (hs : ∀ v, v ≤ code.maxValue → (code.encode v).length ≤ bound)
    (h : code.decode s = none) : s.length < bound := by
  obtain ⟨v, hv, pre, hp⟩ := code.prefix_of_decode_none s h
  have hl := pre.length_le
  have hw : s.length ≠ (code.encode v).length := fun he => hp (pre.eq_of_length he)
  have := hs v hv
  omega

end Code

end Ae.Lib.PrefixCode
