/- source: {mstream,mstream_buffers}.h
   digest: How an input operator moves its reader, for every type and any input. -/

import Ae.MStream.TypeDesc
import Ae.MStream.Inversion

set_option autoImplicit false

namespace Ae.MStream.Reads
open List VectorReader Operators TypeDesc Inversion

/-- A reader at a later time: it goes on through the same input, the history grows, a refused
read stays on record, and a result of `kNo` is either old or recorded as a refusal. -/
structure Later (before after : Reader) : Prop where
  data : after.data = before.data
  offset : before.offset ≤ after.offset
  failed : after.failed = false → before.failed = false
  refused : after.result = .no → after.failed = false → before.result = .no
  resizes : before.resizes <:+ after.resizes

namespace Later

variable {r s t : Reader}

theorem refl (r : Reader) : Later r r := ⟨rfl, le_rfl, id, fun h _ => h, suffix_rfl⟩

theorem trans (first : Later r s) (second : Later s t) : Later r t where
  data := second.data.trans first.data
  offset := first.offset.trans second.offset
  failed clean := first.failed (second.failed clean)
  refused no clean := first.refused (second.refused no clean) (second.failed clean)
  resizes := first.resizes.trans second.resizes

theorem spend (h : Later r s) (n : Nat) : Later r (s.spend n) :=
  ⟨h.data, h.offset, h.failed, h.refused, h.resizes⟩

theorem refuse (h : Later r s) : Later r s.refuse :=
  ⟨h.data, h.offset, nofun, nofun, h.resizes⟩

theorem yes (h : Later r s) (hc : s.failed = false) (hs : r.result = .yes) : s.result = .yes := by
  cases result : s.result with
  | yes => rfl
  | no =>
    rw [h.refused result hc] at hs
    cases hs

end Later

section

variable {size : SizeType} {r r' : Reader} {o : Option (List UInt8)}

theorem read_cases {n : Nat} (h : r.read n = (r', o)) :
    (∃ ht : n ≤ r.rest.length, r' = r.took n ht ∧ o = some (r.rest.take n)) ∨
      r.rest.length < n ∧ r' = r.refuse.spend 1 ∧ o = none := by
  rw [Reader.read] at h
  split at h
  · rename_i ht
    cases h
    exact .inl ⟨ht, rfl, rfl⟩
  · rename_i hs
    cases h
    exact .inr ⟨not_le.mp hs, rfl, rfl⟩

theorem read_later {n : Nat} (h : r.read n = (r', o)) : Later r r' := by
  rcases read_cases h with ⟨ht, rfl, -⟩ | ⟨-, rfl, -⟩
  · exact ⟨rfl, Nat.le_add_right _ _, id, nofun, suffix_rfl⟩
  · exact (Later.refl r).refuse.spend 1

theorem read_granted {n : Nat} (h : r.read n = (r', o)) (clean : r'.failed = false) :
    o = some (r.rest.take n) ∧ n ≤ r.rest.length ∧ r'.offset = r.offset + n ∧ r'.result = .yes := by
  rcases read_cases h with ⟨there, rfl, some⟩ | ⟨-, rfl, -⟩
  · exact ⟨some, there, rfl, rfl⟩
  · cases clean

theorem readSize_cases {o : Option Nat} (h : r.readSize size = (r', o)) :
    (∃ (n m : Nat) (hf : size.decode r.rest = some (n, m)),
      r' = r.took m (size.decode_length_le hf) ∧ o = some n) ∨
      size.decode r.rest = none ∧ o = none ∧ r'.data = r.data ∧
        r'.offset = r.offset + size.skipped r.rest ∧ r'.failed = true ∧ r'.result = .no ∧
          r'.cost = r.cost + 1 ∧ r'.resizes = r.resizes := by
  unfold Reader.readSize at h
  split at h
  · rename_i n m hf
    cases h
    exact .inl ⟨n, m, hf, rfl, rfl⟩
  · rename_i missing
    cases h
    exact .inr ⟨missing, rfl, rfl, rfl, rfl, rfl, rfl, rfl⟩

theorem readSize_later {o : Option Nat} (h : r.readSize size = (r', o)) : Later r r' := by
  rcases readSize_cases h with ⟨n, m, hfn, rfl, -⟩ | ⟨-, -, hd, ho, hf, -, -, hr⟩
  · exact ⟨rfl, Nat.le_add_right _ _, id, nofun, suffix_rfl⟩
  · refine ⟨hd, ?_, ?_, ?_, ?_⟩
    · rw [ho]
      exact Nat.le_add_right _ _
    · rw [hf]
      intro hc
      cases hc
    · rw [hf]
      intro _ hc
      cases hc
    · rw [hr]

theorem readSize_refused {P : Prop} (h : r.readSize size = (r', none))
    (hc : r'.failed = false) : P := by
  rcases readSize_cases h with ⟨n, m, hfn, -, hs⟩ | ⟨-, -, -, -, hf, -⟩
  · cases hs
  · cases hc.symm.trans hf

theorem readSize_some_yes {n : Nat} (h : r.readSize size = (r', some n)) : r'.result = .yes := by
  rcases readSize_cases h with ⟨k, m, hf, rfl, -⟩ | ⟨-, hn, -⟩
  · rfl
  · cases hn

theorem resize_ok {co nd : Nat} (h : r.resize co nd = .ok r') :
    nd < 2 ^ 63 ∧ r' = { r.spend co with
      resizes := ⟨co, nd, r.rest.length⟩ :: r.resizes } := by
  rw [Reader.resize] at h
  split at h
  · cases h
  · rename_i hs
    cases h
    exact ⟨not_le.mp hs, rfl⟩

theorem resize_later {co nd : Nat} (h : r.resize co nd = .ok r') : Later r r' := by
  obtain ⟨-, rfl⟩ := resize_ok h
  exact ⟨rfl, le_rfl, id, (fun no _ => no), suffix_cons _ _⟩

theorem readRaw_later {w : Nat} {t v : Bytes w} (h : readRaw w t r = (r', v)) : Later r r' := by
  have hm := readRaw_fst t r
  rw [h] at hm
  exact read_later (Prod.ext hm.symm rfl)

end

structure Steady {α : Type} (c : Codec α) : Prop where
  later : ∀ {t : α} {r r' : Reader} {v : α}, c.get t r = .ok (r', v) → Later r r'

section

variable {size : SizeType} {α β : Type} {c : Codec α} {a : Codec α} {b : Codec β}

theorem steady_of_once {w : Nat} (ho : ReadsOnce w c) : Steady c :=
  ⟨fun h => read_later (ho.read h)⟩

structure Prefixed (size : SizeType) {α : Type} (c : Codec α) : Prop where
  sized : ∀ {t : α} {r r' : Reader} {v : α}, c.get t r = .ok (r', v) →
    r.readSize size = (r', none) ∨ ∃ r₁ n, r.readSize size = (r₁, some n) ∧ Later r₁ r'

theorem Prefixed.steady (hp : Prefixed size c) : Steady c := by
  constructor
  intro t r r' v h
  rcases hp.sized h with hs | ⟨r1, n, hs, hl⟩
  · exact readSize_later hs
  · exact (readSize_later hs).trans hl

theorem prefixed_string : Prefixed size (string size) := by
  constructor
  intro t r r' v h
  rcases string_ok h with ⟨hs, -⟩ | ⟨r1, n, r2, o, hs, hr, hrd, -⟩
  · exact .inl hs
  · exact .inr ⟨r1, n, hs, (resize_later hr).trans (read_later hrd)⟩

theorem prefixed_scalarVector {w : Nat} : Prefixed size (scalarVector size w) := by
  constructor
  intro t r r' v h
  rcases scalarVector_ok h with ⟨hs, -⟩ | ⟨r1, n, r2, o, hs, hr, hrd, -⟩
  · exact .inl hs
  · exact .inr ⟨r1, n, hs, (resize_later hr).trans (read_later hrd)⟩

variable {r r' : Reader}

theorem getEach_later (hs : Steady c) {ts vs : List α} (h : getEach c ts r = .ok (r', vs)) :
    Later r r' := by
  induction ts generalizing r vs with
  | nil =>
    cases h
    exact Later.refl _
  | cons t ts ih =>
    obtain ⟨r1, v, hg, ⟨-, rfl, -⟩ | ⟨-, l, hr, -⟩⟩ := getEach_cons_ok h
    · exact hs.later hg
    · exact (hs.later hg).trans (ih hr)

theorem prefixed_vector (hst : Steady c) : Prefixed size (vector size c) := by
  constructor
  intro t r r' v h
  rcases vector_ok h with ⟨hs, -⟩ | ⟨r1, n, r2, hs, hr, he⟩
  · exact .inl hs
  · exact .inr ⟨r1, n, hs, (resize_later hr).trans (getEach_later hst he)⟩

theorem steady_array {n : Nat} (hs : Steady c) : Steady (array n c) := by
  constructor
  intro t r r' v h
  exact getEach_later hs (array_ok h)

theorem listLoop_later (hs : Steady c) {n fuel : Nat} {i : UInt32} {t v : List α}
    (h : listLoop c n fuel i t r = .ok (r', v)) : Later r r' := by
  induction fuel generalizing i t r with
  | zero => cases h
  | succ fuel ih =>
    rcases listLoop_ok h with ⟨-, rfl, -⟩ | ⟨-, r1, x, hg, ⟨-, rfl, -⟩ | ⟨-, hr⟩⟩
    · exact Later.refl r'
    · exact hs.later hg
    · exact ((hs.later hg).spend 1).trans (ih hr)

theorem prefixed_list (hst : Steady c) : Prefixed size (list size c) := by
  constructor
  intro t r r' v h
  rcases list_ok h with ⟨hs, -⟩ | ⟨r1, n, hs, hl⟩
  · exact .inl hs
  · exact .inr ⟨r1, n, hs, listLoop_later hst hl⟩

theorem steady_pair (h1 : Steady a) (h2 : Steady b) : Steady (pair a b) := by
  constructor
  intro t r r' v h
  obtain ⟨r1, hg1, hg2⟩ := pair_ok h
  exact (h1.later hg1).trans (h2.later hg2)

theorem mapLoop_later {od : KeyOrder α} {c : Codec (α × β)} (hs : Steady c) {n : Nat}
    {m v : OrderedMap od β} (h : mapLoop c n m r = .ok (r', v)) : Later r r' := by
  induction n generalizing m r with
  | zero =>
    cases h
    exact Later.refl _
  | succ n ih =>
    obtain ⟨r1, kv, hg, ⟨-, rfl, -⟩ | ⟨-, hr⟩⟩ := mapLoop_ok h
    · exact hs.later hg
    · exact ((hs.later hg).spend 1).trans (ih hr)

theorem prefixed_map {od : KeyOrder α} (h1 : Steady a) (h2 : Steady b) :
    Prefixed size (map size od a b) := by
  constructor
  intro t r r' v h
  rcases map_ok h with ⟨hs, -⟩ | ⟨r1, n, hs, hl⟩
  · exact .inl hs
  · exact .inr ⟨r1, n, hs, mapLoop_later (steady_pair h1 h2) hl⟩

theorem steady_optional (hs : Steady c) : Steady (optionalValue c) := by
  constructor
  intro t r r' v h
  obtain ⟨r1, m, hg, ⟨-, rfl, -⟩ | ⟨-, x, hv, -⟩⟩ := optionalValue_ok h
  · exact (steady_of_once once_boolean).later hg
  · exact ((steady_of_once once_boolean).later hg).trans (hs.later hv)

variable {n w : Nat} {A : Fin (n + 1) → Type} {alts : (i : Fin (n + 1)) → Codec (A i)}

theorem steady_variant (hs : ∀ i, Steady (alts i)) : Steady (variant alts) := by
  constructor
  intro t r r' v h
  obtain ⟨r1, tag, hr, ⟨rfl | rfl, -⟩ | ⟨i, x, r2, hg, rfl, -⟩⟩ := variant_ok h
  · exact readRaw_later hr
  · exact (readRaw_later hr).refuse
  · have hb := (readRaw_later hr).trans ((hs i).later hg)
    split
    · exact hb.refuse
    · exact hb

theorem steady_variantType {ta : Fin (n + 1) → Bytes w} (hs : ∀ i, Steady (alts i)) :
    Steady (variantType ta alts) := by
  constructor
  intro t r r' v h
  obtain ⟨r1, ix, x, hr, hg, -⟩ := variantType_ok h
  exact (readRaw_later hr).trans ((hs _).later hg)

theorem steady_noFields : Steady noFields := by
  constructor
  intro t r r' v h
  cases h
  exact Later.refl _

structure MaskedSteady {β : Type} (fields : Masked β) : Prop where
  later : ∀ {mask : Nat} {t : β} {r r' : Reader} {v : β},
    fields.get mask t r = .ok (r', v) → Later r r'

theorem masked_steady_noFields : MaskedSteady noMaskedFields := by
  constructor
  intro m t r r' v h
  cases h
  exact Later.refl r

variable {others : Masked β}

theorem steady_maskedField {init : α} (h1 : Steady c) (h2 : MaskedSteady others) :
    MaskedSteady (maskedField c init others) := by
  constructor
  intro m t r r' v h
  obtain ⟨r1, hg1, hg2⟩ := maskedField_ok h
  exact (h1.later hg1).trans (h2.later hg2)

theorem steady_maskedOptional {init : Option α} (h1 : Steady c) (h2 : MaskedSteady others) :
    MaskedSteady (maskedOptional c init others) := by
  constructor
  intro m t r r' v h
  rcases maskedOptional_ok h with ⟨-, -, hg2⟩ | ⟨r1, x, hg1, -, hg2⟩
  · exact h2.later hg2
  · exact (h1.later hg1).trans (h2.later hg2)

theorem steady_nullable (hs : MaskedSteady others) : Steady (nullable others) := by
  constructor
  intro t r r' v h
  obtain ⟨r1, m, hr, hg⟩ := nullable_ok h
  exact (readRaw_later hr).trans (hs.later hg)

theorem pushLoop_later {cap : Nat} {hp : 0 < cap} (hs : Steady c) {n : Nat}
    {t v : Window cap α} (h : pushLoop c hp n t r = .ok (r', v)) : Later r r' := by
  induction n generalizing t r with
  | zero =>
    cases h
    exact Later.refl _
  | succ n ih =>
    obtain ⟨r1, x, hg, hr⟩ := pushLoop_ok h
    exact ((hs.later hg).spend 1).trans (ih hr)

theorem prefixed_statistics {cap : Nat} {hp : 0 < cap} (hst : Steady c) :
    Prefixed size (statistics size c hp) := by
  constructor
  intro t r r' v h
  rcases statistics_ok h with ⟨hs, -⟩ | ⟨r1, n, hs, hl⟩
  · exact .inl hs
  · exact .inr ⟨r1, n, hs, pushLoop_later hst hl⟩

end

mutual

theorem desc_steady (size : SizeType) {k : Kind} {α : Type} :
    (d : Desc k α) → Steady (d.codec size)
  | .int _ _ => steady_of_once once_int
  | .enum _ _ => steady_of_once once_enum
  | .bool => steady_of_once once_boolean
  | .string => prefixed_string.steady
  | .scalarVector _ _ => prefixed_scalarVector.steady
  | .scalarArray _ _ _ => steady_of_once once_scalarArray
  | .boolArray _ => steady_of_once once_boolArray
  | .vector e | .deque e => (prefixed_vector (desc_steady size e)).steady
  | .array _ e => steady_array (desc_steady size e)
  | .list e => (prefixed_list (desc_steady size e)).steady
  | .pair a b => steady_pair (desc_steady size a) (desc_steady size b)
  | .map _ a b => (prefixed_map (desc_steady size a) (desc_steady size b)).steady
  | .optional e | .uniquePtr e | .sharedPtr e => steady_optional (desc_steady size e)
  | .variant _ alts => steady_variant (fun i => desc_steady size (alts i))
  | .variantType _ _ _ alts => steady_variantType (fun i => desc_steady size (alts i))
  | .record fields => fields_steady size fields
  | .nullable _ fields => steady_nullable (masked_steady size fields)
  | .statistics _ _ e => (prefixed_statistics (desc_steady size e)).steady

theorem fields_steady (size : SizeType) {n : Nat} {β : Type} :
    (fs : Fields n β) → Steady (fs.codec size)
  | .nil => steady_noFields
  | .plain e _ others =>
    ⟨(steady_pair (desc_steady size e) (fields_steady size others)).later⟩
  | .optional e _ others =>
    ⟨(steady_pair (steady_optional (desc_steady size e)) (fields_steady size others)).later⟩

theorem masked_steady (size : SizeType) {n : Nat} {β : Type} :
    (fs : Fields n β) → MaskedSteady (fs.masked size)
  | .nil => masked_steady_noFields
  | .plain e _ others => steady_maskedField (desc_steady size e) (masked_steady size others)
  | .optional e _ others => steady_maskedOptional (desc_steady size e) (masked_steady size others)

end

end Ae.MStream.Reads
