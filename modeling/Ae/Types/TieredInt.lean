/- source: transport/data_packet_collector.h, api_protocol/api_message.h
   digest: The tiered integers of the size prefixes, as a prefix code of at most eight bytes. -/

import Ae.Lib.PrefixCode
import Mathlib.Algebra.Group.Nat.Defs

set_option autoImplicit false

namespace Ae.Types
open List
open Lib.PrefixCode (Code)

/-- `TieredInt<std::uint64_t, std::uint8_t, 250>`: its stream operators come from another
library and enter as a prefix code of 64-bit values with words of at most
`sizeof(ValueType)` bytes. -/
structure TieredInt extends Code UInt8 where
  length_le : ∀ v, v ≤ maxValue → (encode v).length ≤ 8
  maxValue_lt : maxValue < 2 ^ 64

namespace TieredInt

theorem length_lt_of_decode_none (code : TieredInt) {s : List UInt8}
    (h : code.decode s = none) : s.length < 8 :=
  code.toCode.length_lt_of_decode_none code.length_le h

theorem decode_lt (code : TieredInt) {s : List UInt8} {v n : Nat}
    (h : code.decode s = some (v, n)) : v < 2 ^ 64 :=
  lt_of_le_of_lt (code.encode_of_decode s v n h).1 code.maxValue_lt

/-- The word of a value in the first two tiers: one byte up to 250, a larger first byte
and a second one above. -/
def encodeTwoTiers (v : Nat) : List UInt8 :=
  if v ≤ 250 then [UInt8.ofNat v]
  else [UInt8.ofNat (251 + (v - 251) / 256), UInt8.ofNat ((v - 251) % 256)]

def decodeTwoTiers : List UInt8 → Option (Nat × Nat)
  | [] => none
  | b :: rest =>
    if b.toNat ≤ 250 then some (b.toNat, 1)
    else match rest with
      | [] => none
      | c :: _ => some (251 + (b.toNat - 251) * 256 + c.toNat, 2)

theorem decode_encodeTwoTiers (v : Nat) (hv : v ≤ 1530) (rest : List UInt8) :
    decodeTwoTiers (encodeTwoTiers v ++ rest) = some (v, (encodeTwoTiers v).length) := by
  unfold encodeTwoTiers
  split
  · rename_i hs
    have hb : v % 256 = v := Nat.mod_eq_of_lt (by omega)
    simp [decodeTwoTiers, hb, hs]
  · have hh : (UInt8.ofNat (251 + (v - 251) / 256)).toNat = 251 + (v - 251) / 256 :=
      by
      rw [UInt8.toNat_ofNat']; omega
    have hl : (UInt8.ofNat ((v - 251) % 256)).toNat = (v - 251) % 256 :=
      by
      rw [UInt8.toNat_ofNat']; omega
    simp only [cons_append, nil_append, decodeTwoTiers, hh, hl, length_cons, length_nil]
    rw [if_neg (by omega)]
    simp only [Option.some.injEq, Prod.mk.injEq, and_true]
    omega

theorem encodeTwoTiers_of_decode (s : List UInt8) (v n : Nat)
    (h : decodeTwoTiers s = some (v, n)) :
    v ≤ 1530 ∧ n = (encodeTwoTiers v).length ∧ encodeTwoTiers v <+: s := by
  cases s with
  | nil => simp [decodeTwoTiers] at h
  | cons b rest =>
    have hb := b.toNat_lt
    simp only [decodeTwoTiers] at h
    split at h
    · rename_i hs
      simp only [Option.some.injEq, Prod.mk.injEq] at h
      obtain ⟨rfl, rfl⟩ := h
      simp only [encodeTwoTiers, if_pos hs, UInt8.ofNat_toNat]
      exact ⟨by omega, rfl, rest, rfl⟩
    · cases rest with
      | nil => simp at h
      | cons c rest =>
        have hc := c.toNat_lt
        simp only [Option.some.injEq, Prod.mk.injEq] at h
        obtain ⟨rfl, rfl⟩ := h
        have hh : 251 + (251 + (b.toNat - 251) * 256 + c.toNat - 251) / 256 = b.toNat := by omega
        have hl : (251 + (b.toNat - 251) * 256 + c.toNat - 251) % 256 = c.toNat := by omega
        rw [encodeTwoTiers, if_neg (by omega), hh, hl, UInt8.ofNat_toNat, UInt8.ofNat_toNat]
        exact ⟨by omega, rfl, rest, rfl⟩

theorem prefix_of_decodeTwoTiers_none (s : List UInt8) (h : decodeTwoTiers s = none) :
    ∃ v, v ≤ 1530 ∧ s <+: encodeTwoTiers v ∧ s ≠ encodeTwoTiers v := by
  cases s with
  | nil => exact ⟨0, by omega, nil_prefix, by simp [encodeTwoTiers]⟩
  | cons b rest =>
    have hb := b.toNat_lt
    simp only [decodeTwoTiers] at h
    split at h
    · simp at h
    · cases rest with
      | cons c rest => simp at h
      | nil =>
        have hh : 251 + (251 + (b.toNat - 251) * 256 - 251) / 256 = b.toNat := by omega
        refine ⟨251 + (b.toNat - 251) * 256, by omega, ?_, ?_⟩
        · rw [encodeTwoTiers, if_neg (by omega), hh, UInt8.ofNat_toNat]
          exact ⟨_, rfl⟩
        · rw [encodeTwoTiers, if_neg (by omega)]
          simp

def twoTiers : TieredInt where
  maxValue := 1530
  encode := encodeTwoTiers
  decode := decodeTwoTiers
  encode_ne_nil v _ := by unfold encodeTwoTiers; split <;> simp
  decode_encode := decode_encodeTwoTiers
  encode_of_decode := encodeTwoTiers_of_decode
  prefix_of_decode_none := prefix_of_decodeTwoTiers_none
  length_le v _ := by unfold encodeTwoTiers; split <;> simp
  maxValue_lt := by decide

end TieredInt

end Ae.Types
