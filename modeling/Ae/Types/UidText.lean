/- source: types/{uid,literal_array}.h
   digest: The text of a uid, and the uid read from any text. -/

import Ae.Types.AddressParser

set_option autoImplicit false

namespace Ae.Types.UidText
open List SerialPorts.AtBuffer AddressParser

abbrev Bytes (n : Nat) := { value : List UInt8 // value.length = n }

abbrev Uid := Bytes 16

def zero : Uid := ⟨replicate 16 0, length_replicate⟩

structure UidString where
  valid : Bool
  data : Line

/-- `str[i] == '-'` for one index after the other, up to the first that is not; `none` is a read
outside the text. -/
def dashes (str : Line) : List Nat → Option Bool
  | [] => some true
  | i :: others => (str[i]?).bind fun c => if c = 45 then dashes str others else some false

/-- The constructor from a view. The index of the last character of an empty text wraps. -/
def uidString (str : Line) : Option UidString := do
  let last ← str[str.length - 1]?
  let valid ← if (if last = 0 then str.length - 1 = 36 else str.length = 36) then
    dashes str [8, 13, 18, 23] else some false
  some ⟨valid, str⟩

def hexByte (a b : UInt8) : UInt8 := UInt8.ofNat (fromHex a * 16 + fromHex b)

def hexBytes : Line → List UInt8
  | [] => []
  | [a] => [UInt8.ofNat (fromHex a)]
  | a :: b :: rest => hexByte a b :: hexBytes rest

def makeArray (n : Nat) (str : Line) : Option (Bytes n) :=
  if inside : (hexBytes str).length ≤ n then
    some ⟨hexBytes str ++ replicate (n - (hexBytes str).length) 0, by simp; omega⟩
  else none

def substr (str : Line) (pos count : Nat) : Option Line :=
  if pos ≤ str.length then some ((str.drop pos).take count) else none

def subArray (n : Nat) (data : Line) (pos count : Nat) : Option (Bytes n) :=
  (substr data pos count).bind (makeArray n)

def toArray (data : Line) : Option Uid := do
  let a ← subArray 4 data 0 8
  let b ← subArray 2 data 9 4
  let c ← subArray 2 data 14 4
  let d ← subArray 2 data 19 4
  let e ← subArray 6 data 24 12
  some ⟨a.1 ++ b.1 ++ c.1 ++ d.1 ++ e.1, by simp [a.2, b.2, c.2, d.2, e.2]⟩

def fromString (str : UidString) : Option Uid :=
  if ¬ str.valid then some zero else toArray str.data

/-- A `UidString` made from a text, and `FromString` of it. -/
def parse (str : Line) : Option Uid := (uidString str).bind fromString

/-- Two characters for a value, with a leading zero. -/
def hexPair (v : UInt8) : Line := if v.toNat < 16 then 48 :: hexText v else hexText v

def formatFrom : Nat → List UInt8 → Line
  | _, [] => []
  | i, v :: rest =>
    (if i = 4 ∨ i = 6 ∨ i = 8 ∨ i = 10 then [45] else []) ++ hexPair v ++ formatFrom (i + 1) rest

def format (u : Uid) : Line := formatFrom 0 u.1

def Dashed (s : Line) : Prop := ∀ i ∈ [8, 13, 18, 23], s[i]? = some 45

def digitsOf (s : Line) : Line :=
  s.take 8 ++ (s.drop 9).take 4 ++ (s.drop 14).take 4 ++ (s.drop 19).take 4 ++ (s.drop 24).take 12

/-- The form of RFC 4122. -/
def Rfc4122 (s : Line) : Prop := s.length = 36 ∧ Dashed s ∧ ∀ c ∈ digitsOf s, isXDigit c

/-- What the constructor takes for valid: a zero character may follow. -/
def Accepted (s : Line) : Prop := s.length = (if s.getLast? = some 0 then 37 else 36) ∧ Dashed s

def lower (c : UInt8) : UInt8 := if 65 ≤ c ∧ c ≤ 70 then c + 32 else c

/-- The text is read inside its bounds, and a uid that is not empty has that text. -/
def Faithful (s : Line) : Prop :=
  ∃ u, parse s = some u ∧ (u ≠ zero → Rfc4122 s ∧ format u = s.map lower)

theorem hexPair_eq (v : UInt8) :
    hexPair v = [hexDigit (v.toNat / 16), hexDigit (v.toNat % 16)] := by
  rw [hexPair, hexText]
  split_ifs with hs
  · rw [Nat.div_eq_of_lt hs, Nat.mod_eq_of_lt hs]
    rfl
  · rfl

theorem toNat_hexByte (a b : UInt8) : (hexByte a b).toNat = fromHex a * 16 + fromHex b := by
  have hsa := fromHex_lt a
  have hsb := fromHex_lt b
  rw [hexByte, UInt8.toNat_ofNat']
  omega

theorem hexByte_eq_zero {a b : UInt8} : hexByte a b = 0 ↔ fromHex a = 0 ∧ fromHex b = 0 := by
  rw [← UInt8.toNat_inj, toNat_hexByte, UInt8.toNat_zero]
  omega

theorem hexByte_hexDigit (v : UInt8) :
    hexByte (hexDigit (v.toNat / 16)) (hexDigit (v.toNat % 16)) = v := by
  have hb : ∀ n < 16, fromHex (hexDigit n) = n := by decide
  have hs := v.toNat_lt
  rw [← UInt8.toNat_inj, toNat_hexByte, hb _ (by omega), hb _ (by omega)]
  omega

theorem hexPair_hexByte {a b : UInt8} (ha : isXDigit a) (hb : isXDigit b) :
    hexPair (hexByte a b) = [lower a, lower b] := by
  have hd : ∀ n < 256, isXDigit (UInt8.ofNat n) →
      hexDigit (fromHex (UInt8.ofNat n)) = lower (UInt8.ofNat n) := by decide +kernel
  have hda := hd a.toNat a.toNat_lt
  have hdb := hd b.toNat b.toNat_lt
  rw [UInt8.ofNat_toNat] at hda hdb
  have hs := fromHex_lt b
  rw [hexPair_eq, toNat_hexByte, ← hda ha, ← hdb hb]
  congr 3 <;> omega

theorem format_eq (u : Uid) : hexBytes (digitsOf (format u)) = u.1 ∧ Accepted (format u) := by
  obtain ⟨va, hln⟩ := u
  let [_, _, _, _, _, _, _, _, _, _, _, _, _, _, _, v] := va
  have hl : hexDigit (v.toNat % 16) ≠ 0 := by
    have hd : ∀ n < 16, hexDigit n ≠ 0 := by decide
    exact hd _ (by omega)
  simp only [format, formatFrom, hexPair_eq]
  refine ⟨?_, ?_, ?_⟩
  · simp [digitsOf, hexBytes, hexByte_hexDigit]
  · simp [hl]
  · simp [Dashed]

variable {s : Line}

theorem exists_twelves (hl : 36 ≤ s.length) : ∃ a b c r,
    s = a ++ (b ++ (c ++ r)) ∧ a.length = 12 ∧ b.length = 12 ∧ c.length = 12 := by
  refine ⟨s.take 12, (s.drop 12).take 12, ((s.drop 12).drop 12).take 12,
    ((s.drop 12).drop 12).drop 12, ?_, ?_⟩
  · simp only [take_append_drop]
  · simp only [length_take, length_drop]
    omega

/-- What is made of the characters around the dashes. -/
theorem toArray_eq (hl : 36 ≤ s.length) : ∃ u, toArray s = some u ∧ u.1 = hexBytes (digitsOf s) ∧
    (u = zero ↔ ∀ c ∈ digitsOf s, fromHex c = 0) ∧ (Rfc4122 s → format u = s.map lower) := by
  obtain ⟨a, b, c, r, rfl, ha, hb, hc⟩ := exists_twelves hl
  let [_, _, _, _, _, _, _, _, _, _, _, _] := a
  let [_, _, _, _, _, _, _, _, _, _, _, _] := b
  let [_, _, _, _, _, _, _, _, _, _, _, _] := c
  refine ⟨_, rfl, rfl, Subtype.ext_iff.trans ?_, ?_⟩
  · simp [zero, digitsOf, hexBytes, hexByte_eq_zero, and_assoc]
  · rintro ⟨hl, hd, hx⟩
    obtain rfl : r = [] := by simpa using hl
    simp only [Dashed, forall_mem_cons] at hd
    obtain ⟨⟨⟩, ⟨⟩, ⟨⟩, ⟨⟩, -⟩ := hd
    simp [digitsOf] at hx
    simp [format, hexBytes, formatFrom, hexPair_hexByte, hx, show lower 45 = 45 from rfl]

theorem dashes_eq {ins : List Nat} (hi : ∀ i ∈ ins, i < s.length) :
    dashes s ins = some (decide (∀ i ∈ ins, s[i]? = some 45)) := by
  induction ins with
  | nil => rfl
  | cons i os ih =>
    obtain ⟨hh, hi⟩ := forall_mem_cons.mp hi
    rw [dashes, getElem?_eq_getElem hh, Option.bind_some]
    split
    · rename_i hd
      rw [ih hi]
      simp [hd, hh]
    · rename_i other
      simp [other, hh]

theorem parse_eq (hn : s ≠ []) :
    (Accepted s → parse s = toArray s) ∧ (¬ Accepted s → parse s = some zero) := by
  obtain ⟨last, ha⟩ := Option.ne_none_iff_exists'.mp (mt getLast?_eq_none_iff.mp hn)
  have he : (if last = 0 then s.length - 1 = 36 else s.length = 36) ↔
      s.length = if some last = some 0 then 37 else 36 := by
    simp only [Option.some.injEq]
    split <;> omega
  simp only [parse, uidString, ← getLast?_eq_getElem?, ha, Option.bind_eq_bind, Option.bind_some,
    he, Accepted]
  by_cases hs : s.length = if some last = some 0 then 37 else 36
  · have hl : 36 ≤ s.length := by split at hs <;> omega
    rw [if_pos hs, dashes_eq (by simp; omega)]
    exact ⟨fun h => if_neg (by simpa [Dashed] using h.2), fun h =>
      if_pos (by simpa [hs, Dashed] using h)⟩
  · rw [if_neg hs]
    exact ⟨fun h => absurd h.1 hs, fun _ => rfl⟩

theorem parse_accepted (ha : Accepted s) : ∃ u, parse s = some u ∧ u.1 = hexBytes (digitsOf s) ∧
    (u = zero ↔ ∀ c ∈ digitsOf s, fromHex c = 0) ∧ (Rfc4122 s → format u = s.map lower) := by
  have hl : 36 ≤ s.length := by
    rw [ha.1]
    split <;> omega
  rw [(parse_eq (by rintro rfl; simp at hl)).1 ha]
  exact toArray_eq hl

/-- Every uid comes back from its text. A text stands for another uid than its own where it is
accepted with a character that is no digit, or with a zero behind it; and the last character of
the empty text is not there. -/
theorem uid_text_faithful_iff (u : Uid) (s : Line) : parse (format u) = some u ∧
    (Faithful s ↔ s ≠ [] ∧ (Accepted s → Rfc4122 s ∨ ∀ c ∈ digitsOf s, fromHex c = 0)) := by
  refine ⟨?_, ?_, ?_⟩
  · obtain ⟨hd, ha⟩ := format_eq u
    obtain ⟨v, hp, hv, -⟩ := parse_accepted ha
    rw [hp, Subtype.ext (hv.trans hd)]
  · rintro ⟨u, hp, hnm⟩
    refine ⟨?_, fun ha => or_iff_not_imp_left.mpr fun ho => ?_⟩
    · rintro rfl
      cases hp
    · obtain ⟨v, hp', -, hz, -⟩ := parse_accepted ha
      cases hp.symm.trans hp'
      exact hz.mp (by_contra fun hne => ho (hnm hne).1)
  · rintro ⟨hn, hrd⟩
    by_cases ha : Accepted s
    · obtain ⟨u, hp, -, hz, hf⟩ := parse_accepted ha
      refine ⟨u, hp, fun hne => ?_⟩
      have hr := (hrd ha).resolve_right (mt hz.mpr hne)
      exact ⟨hr, hf hr⟩
    · exact ⟨zero, (parse_eq hn).2 ha, fun hne => absurd rfl hne⟩

/-- The empty text is read outside, and a letter `g` is read as a zero. -/
theorem letter_read_as_zero : ¬ Faithful [] ∧ ¬ Faithful (49 :: (replicate 7 103 ++
    45 :: (replicate 4 103 ++ 45 :: (replicate 4 103 ++ 45 :: (replicate 4 103 ++
      45 :: replicate 12 103))))) := by
  constructor
  · rintro ⟨u, hp, -⟩
    cases hp
  · rintro ⟨u, hp, hn⟩
    cases hp.symm.trans (show _ = some ⟨16 :: replicate 15 0, rfl⟩ by decide)
    have he := (hn (by decide)).1.2.2 103 (by decide)
    cases he

end Ae.Types.UidText
