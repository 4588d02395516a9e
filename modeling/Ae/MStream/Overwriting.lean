/- source: mstream.h, types/{nullable_type,statistic_counter}.h
   digest: For which types what was in the target before does not matter. -/

import Ae.MStream.Reads
import Ae.MStream.RoundTrip

set_option autoImplicit false

namespace Ae.MStream.Overwriting
open VectorReader Operators TypeDesc Inversion Reads Decoding RoundTrip Reader

/-- Where no read is refused, the operator leaves nothing of the old target. That it did not
read a byte and reports the `kNo` it started with happens for types of a single value only. -/
structure Overwrites {α : Type} (c : Codec α) : Prop where
  same : ∀ {t : α} {r r' : Reader} {v : α}, c.get t r = .ok (r', v) → r'.failed = false →
    ∀ t', c.get t' r = .ok (r', v)
  hollow : ∀ {t : α} {r r' : Reader} {v : α}, c.get t r = .ok (r', v) → r'.failed = false →
    r'.result = .no → ∀ a b : α, a = b

open Overwrites

section

variable {size : SizeType} {α β : Type} {c : Codec α} {a : Codec α} {b : Codec β}

theorem Overwrites.of_yes
    (he : ∀ {t : α} {r r' : Reader} {v : α}, c.get t r = .ok (r', v) → r'.failed = false →
      ∀ t', c.get t' r = .ok (r', v))
    (hy : ∀ {t : α} {r r' : Reader} {v : α}, c.get t r = .ok (r', v) → r'.failed = false →
      r'.result = .yes) : Overwrites c :=
  ⟨he, fun hg hc no => no_of_yes (hy hg hc) no⟩

variable {w : Nat}

theorem Overwrites.of_once (ho : ReadsOnce w c)
    (he : ∀ {t : α} {r r' : Reader} {v : α}, c.get t r = .ok (r', v) → r'.failed = false →
      ∀ t', c.get t' r = .ok (r', v)) : Overwrites c :=
  .of_yes he fun h hc => (read_granted (ho.read h) hc).2.2.2

theorem Overwrites.of_prefixed (hp : Prefixed size c)
    (he : ∀ {t : α} {r r' : Reader} {v : α}, c.get t r = .ok (r', v) → r'.failed = false →
      ∀ t', c.get t' r = .ok (r', v)) : Overwrites c := by
  refine .of_yes he fun h hc => ?_
  rcases hp.sized h with hs | ⟨r1, n, hs, hl⟩
  · exact readSize_refused hs hc
  · exact hl.yes hc (readSize_some_yes hs)

theorem readRaw_same {t v : Bytes w} {r r' : Reader} (h : readRaw w t r = (r', v))
    (hc : r'.failed = false) (t' : Bytes w) : readRaw w t' r = (r', v) ∧ r'.result = .yes := by
  rw [readRaw] at h ⊢
  rcases hr : r.read w with ⟨r1, o⟩
  rw [hr] at h
  cases o with
  | none =>
    cases h
    cases (read_granted hr hc).1
  | some bs =>
    cases h
    exact ⟨rfl, (read_granted hr hc).2.2.2⟩

theorem overwrites_int : Overwrites (int w) := by
  apply of_once once_int
  intro t r r' v h hc t'
  have hr : readRaw w t r = (r', v) := Except.ok.inj h
  exact congrArg Except.ok (readRaw_same hr hc t').1

theorem overwrites_enum : Overwrites (enum w) := by
  apply of_once once_enum
  intro t r r' v h hc t'
  have hg := (read_granted (once_enum.read h) hc).2.2.2
  simp only [enum, Except.ok.injEq, Prod.mk.injEq] at h ⊢
  obtain ⟨hm, hv⟩ := h
  rw [hm, if_pos hg] at hv ⊢
  exact ⟨rfl, hv⟩

theorem overwrites_boolean : Overwrites boolean := .of_once once_boolean fun h _ _ => h

theorem overwrites_string : Overwrites (string size) := by
  apply of_prefixed prefixed_string
  intro t r r' v h hc t'
  rcases string_ok h with ⟨hs, -⟩ | ⟨r1, n, r2, o, hs, hr, hrd, rfl⟩
  · exact readSize_refused hs hc
  · obtain ⟨rfl, -⟩ := read_granted hrd hc
    simp only [string, hs, hr, Except.bind, hrd, Option.getD_some]

theorem overwrites_scalarVector : Overwrites (scalarVector size w) := by
  apply of_prefixed prefixed_scalarVector
  intro t r r' v h hc t'
  rcases scalarVector_ok h with ⟨hs, -⟩ | ⟨r1, n, r2, o, hs, hr, hrd, rfl⟩
  · exact readSize_refused hs hc
  · obtain ⟨rfl, -⟩ := read_granted hrd hc
    simp only [scalarVector, hs, hr, Except.bind, hrd, Option.map_some, Option.getD_some]

theorem overwrites_scalarArray {n w : Nat} : Overwrites (scalarArray n w) := by
  apply of_once once_scalarArray
  intro t r r' v h hc t'
  obtain ⟨o, hr, rfl⟩ := scalarArray_ok h
  obtain ⟨rfl, -⟩ := read_granted hr hc
  simp only [scalarArray, hr]
  rfl

theorem overwrites_boolArray {n : Nat} : Overwrites (boolArray n) := by
  apply of_once once_boolArray
  intro t r r' v h hc t'
  obtain ⟨o, hr, rfl⟩ := boolArray_ok h
  obtain ⟨rfl, -⟩ := read_granted hr hc
  simp only [boolArray, hr]
  rfl

theorem getEach_same (hs : Steady c) (hw : Overwrites c) {ts ts' vs : List α}
    (hl : ts'.length = ts.length) {r r' : Reader} (h : getEach c ts r = .ok (r', vs))
    (hc : r'.failed = false) : getEach c ts' r = .ok (r', vs) := by
  induction ts generalizing ts' r vs with
  | nil =>
    rw [List.eq_nil_of_length_eq_zero hl]
    exact h
  | cons t ts ih =>
    cases ts' with
    | nil => simp at hl
    | cons t' ts' =>
      have hl : ts'.length = ts.length := Nat.succ.inj hl
      obtain ⟨r1, v, get, ⟨hr, rfl, rfl⟩ | ⟨hg, l, hrs, rfl⟩⟩ := getEach_cons_ok h
      · have ha := hw.hollow get hc hr
        have he : ts' = ts := List.ext_getElem hl (fun i _ _ => ha _ _)
        simp only [getEach, hw.same get hc t', Except.bind, hr, if_true, he]
      · have hc1 := (getEach_later hs hrs).failed hc
        simp only [getEach, hw.same get hc1 t', Except.bind, hg, if_false, ih hl hrs]

theorem overwrites_vector (hst : Steady c) (hw : Overwrites c) : Overwrites (vector size c) := by
  apply of_prefixed (prefixed_vector hst)
  intro t r r' v h hc t'
  rcases vector_ok h with ⟨hs, -⟩ | ⟨r1, n, r2, hs, hr, he⟩
  · exact readSize_refused hs hc
  · have hl : (resizeTo c.init n t').length = (resizeTo c.init n t).length := by
      rw [resizeTo_length, resizeTo_length]
    simp only [vector, hs, hr, Except.bind, getEach_same hst hw hl he hc]

theorem overwrites_array {n : Nat} (hs : Steady c) (hw : Overwrites c) :
    Overwrites (array n c) := by
  constructor
  · intro t r r' v h hc t'
    have he := getEach_same hs hw (t'.2.trans t.2.symm) (array_ok h) hc
    obtain ⟨hl, get⟩ := array_get_of_each he
    exact get
  · intro t r r' v h hc no x y
    have he := array_ok h
    apply Subtype.ext
    apply List.ext_getElem (x.2.trans y.2.symm)
    intro i hi _
    -- the array has an element, and the first one already left the result at `kNo`
    cases elements : t.1 with
    | nil =>
      have : 0 = n := by rw [← t.2, elements, List.length_nil]
      rw [x.2] at hi
      omega
    | cons t0 ts =>
      rw [elements] at he
      obtain ⟨r1, v0, get, ⟨hr, rfl, -⟩ | ⟨hg, l, hrs, -⟩⟩ := getEach_cons_ok he
      · exact hw.hollow get hc hr _ _
      · exact absurd ((getEach_later hs hrs).refused no hc) hg

theorem overwrites_emptyArray : Overwrites (array 0 c) := by
  have ha (x y : List.Vector α 0) : x = y := by
    rw [List.Vector.eq_nil x, List.Vector.eq_nil y]
  constructor
  · intro t r r' v h hc t'
    rw [ha t' t]
    exact h
  · intro t r r' v h hc no
    exact ha

theorem overwrites_list (hst : Steady c) : Overwrites (list size c) := by
  apply of_prefixed (prefixed_list hst)
  intro t r r' v h hc t'
  rcases list_ok h with ⟨hs, -⟩ | ⟨r1, n, hs, hl⟩
  · exact readSize_refused hs hc
  · simp only [list, hs, hl]

theorem overwrites_pair (hs : Steady b) (h1 : Overwrites a) (h2 : Overwrites b) :
    Overwrites (pair a b) := by
  constructor
  · intro t r r' v h hc t'
    obtain ⟨r1, hg1, hg2⟩ := pair_ok h
    have hc1 := (hs.later hg2).failed hc
    simp only [pair, h1.same hg1 hc1 t'.1, Except.bind, h2.same hg2 hc t'.2]
  · intro t r r' v h hc no x y
    obtain ⟨r1, hg1, hg2⟩ := pair_ok h
    have hl := hs.later hg2
    exact Prod.ext (h1.hollow hg1 (hl.failed hc) (hl.refused no hc) _ _)
      (h2.hollow hg2 hc no _ _)

theorem overwrites_map {o : KeyOrder α} (h1 : Steady a) (h2 : Steady b) :
    Overwrites (map size o a b) := by
  apply of_prefixed (prefixed_map h1 h2)
  intro t r r' v h hc t'
  rcases map_ok h with ⟨hs, -⟩ | ⟨r1, n, hs, hl⟩
  · exact readSize_refused hs hc
  · simp only [map, hs, hl]

theorem overwrites_variantType {n w : Nat} {A : Fin (n + 1) → Type}
    {al : (i : Fin (n + 1)) → Codec (A i)} {ta : Fin (n + 1) → Bytes w}
    (hs : ∀ i, Steady (al i)) : Overwrites (variantType ta al) := by
  apply of_yes
  · intro t r r' v h hc t'
    exact h
  · intro t r r' v h hc
    obtain ⟨r1, ix, x, hr, hg, -⟩ := variantType_ok h
    have hl := (hs _).later hg
    have hy := (readRaw_same hr (hl.failed hc) (zeros w)).2
    exact hl.yes hc hy

theorem overwrites_noFields : Overwrites noFields :=
  ⟨fun h _ _ => h, fun _ _ _ _ _ => rfl⟩

structure MaskedOverwrites {β : Type} (fields : Masked β) : Prop where
  same : ∀ {mask : Nat} {t : β} {r r' : Reader} {v : β}, fields.get mask t r = .ok (r', v) →
    r'.failed = false → ∀ t', fields.get mask t' r = .ok (r', v)

theorem masked_overwrites_noFields : MaskedOverwrites noMaskedFields := ⟨fun h _ _ => h⟩

variable {others : Masked β}

theorem overwrites_maskedField {i : α} (hs : MaskedSteady others) (h1 : Overwrites c)
    (h2 : MaskedOverwrites others) : MaskedOverwrites (maskedField c i others) := by
  constructor
  intro m t r r' v h hc t'
  obtain ⟨r1, hg1, hg2⟩ := maskedField_ok h
  have hc1 := (hs.later hg2).failed hc
  simp only [maskedField, h1.same hg1 hc1 t'.1, Except.bind, h2.same hg2 hc t'.2]

theorem overwrites_nullable (hs : MaskedSteady others) (hf : MaskedOverwrites others) :
    Overwrites (nullable others) := by
  apply of_yes
  · intro t r r' v h hc t'
    obtain ⟨r1, m, hr, hg⟩ := nullable_ok h
    simp only [nullable, hr, hf.same hg hc t']
  · intro t r r' v h hc
    obtain ⟨r1, m, hr, hg⟩ := nullable_ok h
    have hl := hs.later hg
    have hy := (readRaw_same hr (hl.failed hc) (zeros 1)).2
    exact hl.yes hc hy

end

mutual

/-- Whether a type has no part that is read over its old value and may be left out: an
optional, a pointer, a variant, an optional field or a statistics counter. What is read over
a new object does not count. -/
def overwritten {k : Kind} {α : Type} : Desc k α → Bool
  | .int _ _ => true
  | .enum _ _ => true
  | .bool => true
  | .string => true
  | .scalarVector _ _ => true
  | .scalarArray _ _ _ => true
  | .boolArray _ => true
  | .vector e => overwritten e
  | .deque e => overwritten e
  | .array n e => n == 0 || overwritten e
  | .list _ => true
  | .pair a b => overwritten a && overwritten b
  | .map _ _ _ => true
  | .optional _ => false
  | .uniquePtr _ => false
  | .sharedPtr _ => false
  | .variant _ _ => false
  | .variantType _ _ _ _ => true
  | .record fields => allOverwritten fields
  | .nullable _ fields => allOverwritten fields
  | .statistics _ _ _ => false

def allOverwritten {n : Nat} {β : Type} : Fields n β → Bool
  | .nil => true
  | .plain e _ others => overwritten e && allOverwritten others
  | .optional _ _ _ => false

end

mutual

theorem desc_overwrites (size : SizeType) {k : Kind} {α : Type} :
    (d : Desc k α) → overwritten d = true → Overwrites (d.codec size)
  | .int _ _, _ => overwrites_int
  | .enum _ _, _ => overwrites_enum
  | .bool, _ => overwrites_boolean
  | .string, _ => overwrites_string
  | .scalarVector _ _, _ => overwrites_scalarVector
  | .scalarArray _ _ _, _ => overwrites_scalarArray
  | .boolArray _, _ => overwrites_boolArray
  | .vector e, h | .deque e, h => overwrites_vector (desc_steady size e) (desc_overwrites size e h)
  | .array n e, h => by
    rcases Bool.or_eq_true_iff.mp h with hn | whole
    · obtain rfl : n = 0 := beq_iff_eq.mp hn
      exact overwrites_emptyArray
    · exact overwrites_array (desc_steady size e) (desc_overwrites size e whole)
  | .list e, _ => overwrites_list (desc_steady size e)
  | .pair a b, h =>
    have both := Bool.and_eq_true_iff.mp h
    overwrites_pair (desc_steady size b) (desc_overwrites size a both.1)
      (desc_overwrites size b both.2)
  | .map _ a b, _ => overwrites_map (desc_steady size a) (desc_steady size b)
  | .variantType _ _ _ alts, _ => overwrites_variantType (fun i => desc_steady size (alts i))
  | .record fields, h => fields_overwrite size fields h
  | .nullable _ fields, h =>
    overwrites_nullable (masked_steady size fields) (masked_overwrite size fields h)

theorem fields_overwrite (size : SizeType) {n : Nat} {β : Type} :
    (fs : Fields n β) → allOverwritten fs = true → Overwrites (fs.codec size)
  | .nil, _ => overwrites_noFields
  | .plain e _ others, h =>
    have both := Bool.and_eq_true_iff.mp h
    have pair := overwrites_pair (fields_steady size others) (desc_overwrites size e both.1)
      (fields_overwrite size others both.2)
    ⟨pair.same, pair.hollow⟩

theorem masked_overwrite (size : SizeType) {n : Nat} {β : Type} :
    (fs : Fields n β) → allOverwritten fs = true → MaskedOverwrites (fs.masked size)
  | .nil, _ => masked_overwrites_noFields
  | .plain e _ others, h =>
    have both := Bool.and_eq_true_iff.mp h
    overwrites_maskedField (masked_steady size others) (desc_overwrites size e both.1)
      (masked_overwrite size others both.2)

end

section

variable {size : SizeType} {α β : Type}

theorem good_cons {si : Site} {ss : List Site} (h1 : si.Good size)
    (others : ∀ s ∈ ss, s.Good size) : ∀ s ∈ si :: ss, s.Good size :=
  List.forall_mem_cons.mpr ⟨h1, others⟩

theorem good_nil : ∀ s ∈ ([] : List Site), s.Good size :=
  fun _ hi => absurd hi List.not_mem_nil

theorem good_append {xs ys : List Site} (h1 : ∀ s ∈ xs, s.Good size)
    (h2 : ∀ s ∈ ys, s.Good size) : ∀ s ∈ xs ++ ys, s.Good size :=
  List.forall_mem_append.mpr ⟨h1, h2⟩

theorem good_replicate {s : Shape α} {v : α} (n : Nat) (hg : ∀ si ∈ s.sites v, si.Good size) :
    ∀ si ∈ (List.replicate n v).flatMap s.sites, si.Good size := by
  intro si hi
  obtain ⟨u, hm, hi⟩ := List.mem_flatMap.mp hi
  rw [List.eq_of_mem_replicate hm] at hi
  exact hg si hi

theorem good_resized_zero {w : Nat} : (Site.resized 0 (0 * w)).Good size :=
  ⟨⟨Nat.zero_le _, by rw [Nat.zero_mul]; exact Nat.two_pow_pos 63⟩, trivial⟩

theorem good_counted_zero : (Site.counted 0).Good size := ⟨Nat.zero_le _, trivial⟩

mutual

theorem desc_sample (size : SizeType) {k : Kind} {α : Type} :
    (d : Desc k α) → ∃ v, ∀ si ∈ (descShape size d).sites v, si.Good size
  | .int w _ | .enum w _ => ⟨zeros w, good_nil⟩
  | .bool => ⟨false, good_nil⟩
  | .string | .scalarVector _ _ => ⟨[], good_cons good_resized_zero good_nil⟩
  | .scalarArray n w _ => ⟨List.Vector.replicate n (zeros w), good_nil⟩
  | .boolArray n => ⟨List.Vector.replicate n false, good_nil⟩
  | .vector _ | .deque _ => ⟨[], good_cons (@good_resized_zero size 0) good_nil⟩
  | .array n e =>
    have ⟨v, good⟩ := desc_sample size e
    ⟨⟨List.replicate n v, List.length_replicate⟩, good_replicate n good⟩
  | .list _ => ⟨[], good_cons ⟨Nat.zero_le _, Nat.two_pow_pos 32⟩ good_nil⟩
  | .pair a b =>
    have ⟨v, good⟩ := desc_sample size a
    have ⟨v', good'⟩ := desc_sample size b
    ⟨(v, v'), good_append good good'⟩
  | .map _ _ _ => ⟨emptyMap, good_cons good_counted_zero good_nil⟩
  | .optional _ | .uniquePtr _ | .sharedPtr _ | .variant _ _ => ⟨none, good_nil⟩
  | .variantType _ _ _ alts =>
    have ⟨v, good⟩ := desc_sample size (alts 0)
    ⟨some ⟨0, v⟩, good_cons ⟨trivial, rfl⟩ good⟩
  | .record fields | .nullable _ fields => fields_sample size fields
  | .statistics _ _ _ => ⟨⟨[], Nat.zero_le _⟩, good_cons good_counted_zero good_nil⟩

theorem fields_sample (size : SizeType) {n : Nat} {β : Type} :
    (fs : Fields n β) → ∃ v, ∀ si ∈ (fieldsShape size fs).sites v, si.Good size
  | .nil => ⟨(), good_nil⟩
  | .plain e _ others =>
    have ⟨v, good⟩ := desc_sample size e
    have ⟨v', good'⟩ := fields_sample size others
    ⟨(v, v'), good_append good good'⟩
  | .optional _ _ others =>
    have ⟨v', good'⟩ := fields_sample size others
    ⟨(none, v'), good_append good_nil good'⟩

end

def Shows (size : SizeType) (s : Shape α) : Prop :=
  ∃ v t₁ t₂, (∀ site ∈ s.sites v, site.Good size) ∧ s.merge v t₁ ≠ s.merge v t₂

variable {s : Shape α} {u : Shape β}

theorem shows_sequence (ho : 0 < size.maxValue) (i : α) (hs : Shows size s) :
    Shows size (sequenceOf i s) := by
  obtain ⟨v, t1, t2, hg, hd⟩ := hs
  refine ⟨[v], [t1], [t2], good_cons ⟨⟨ho, by simp⟩, trivial⟩ ?_, ?_⟩
  · exact good_replicate 1 hg
  · intro he
    exact hd (List.cons.inj he).1

theorem shows_array {n : Nat} (hp : n ≠ 0) (hs : Shows size s) : Shows size (arrayOf n s) := by
  obtain ⟨v, t1, t2, hg, hd⟩ := hs
  obtain ⟨m, rfl⟩ := Nat.exists_eq_succ_of_ne_zero hp
  refine ⟨⟨List.replicate (m + 1) v, List.length_replicate⟩,
    ⟨List.replicate (m + 1) t1, List.length_replicate⟩,
    ⟨List.replicate (m + 1) t2, List.length_replicate⟩, good_replicate (m + 1) hg, ?_⟩
  intro he
  exact hd (List.cons.inj (congrArg Subtype.val he)).1

theorem shows_left (hs : ∃ v, ∀ si ∈ u.sites v, si.Good size) (hsh : Shows size s) :
    Shows size (pairOf s u) := by
  obtain ⟨v, t1, t2, hg, hd⟩ := hsh
  obtain ⟨v', hg'⟩ := hs
  refine ⟨(v, v'), (t1, v'), (t2, v'), good_append hg hg', ?_⟩
  intro he
  exact hd (Prod.mk.inj he).1

theorem shows_right (hs : ∃ v, ∀ si ∈ s.sites v, si.Good size) (hsh : Shows size u) :
    Shows size (pairOf s u) := by
  obtain ⟨v, t1, t2, hg, hd⟩ := hsh
  obtain ⟨v', hg'⟩ := hs
  refine ⟨(v', v), (v', t1), (v', t2), good_append hg' hg, ?_⟩
  intro he
  exact hd (Prod.mk.inj he).2

theorem shows_option (i : α) : Shows size (optionOf i s) :=
  ⟨none, none, some i, good_nil, nofun⟩

theorem shows_variant {n : Nat} {A : Fin (n + 1) → Type} (init : (i : Fin (n + 1)) → A i)
    (ss : (i : Fin (n + 1)) → Shape (A i)) : Shows size (variantOf init ss) :=
  ⟨none, none, some ⟨0, init 0⟩, good_nil, nofun⟩

theorem shows_window {cap : Nat} (hp : 0 < cap) (i : α) : Shows size (windowOf hp i s) := by
  refine ⟨⟨[], Nat.zero_le _⟩, ⟨[], Nat.zero_le _⟩, ⟨[i], hp⟩,
    good_cons good_counted_zero good_nil, ?_⟩
  intro he
  cases congrArg Subtype.val he

mutual

theorem desc_shows (size : SizeType) (ho : 0 < size.maxValue) {k : Kind} {α : Type} :
    (d : Desc k α) → overwritten d = false → Shows size (descShape size d)
  | .vector e, h | .deque e, h => shows_sequence ho _ (desc_shows size ho e h)
  | .array _ e, h =>
    have both := Bool.or_eq_false_iff.mp h
    shows_array (beq_eq_false_iff_ne.mp both.1) (desc_shows size ho e both.2)
  | .pair a b, h => by
    rcases Bool.and_eq_false_iff.mp h with left | right
    · exact shows_left (desc_sample size b) (desc_shows size ho a left)
    · exact shows_right (desc_sample size a) (desc_shows size ho b right)
  | .optional _, _ | .uniquePtr _, _ | .sharedPtr _, _ => shows_option _
  | .variant _ _, _ => shows_variant _ _
  | .record fields, h | .nullable _ fields, h => fields_show size ho fields h
  | .statistics _ pos _, _ => shows_window pos _

theorem fields_show (size : SizeType) (ho : 0 < size.maxValue) {n : Nat} {β : Type} :
    (fs : Fields n β) → allOverwritten fs = false → Shows size (fieldsShape size fs)
  | .plain e _ others, h => by
    rcases Bool.and_eq_false_iff.mp h with left | right
    · exact shows_left (fields_sample size others) (desc_shows size ho e left)
    · exact shows_right (desc_sample size e) (fields_show size ho others right)
  | .optional _ _ others, _ => shows_left (fields_sample size others) (shows_option _)

end

end

def Succeeds (r : Reader) : Prop := r.result = .yes ∧ r.failed = false

/-- The old target never shows after a successful decoding, for exactly those types that have
no part of which a successful decoding may leave out the value. -/
theorem target_overwritten_iff (size : SizeType) (one : 0 < size.maxValue) {k : Kind} {α : Type}
    (d : Desc k α) :
    (∀ (bytes : List UInt8) (t₁ t₂ : α) (r : Reader) (v : α),
      (d.codec size).get t₁ (start bytes) = .ok (r, v) → Succeeds r →
        (d.codec size).get t₂ (start bytes) = .ok (r, v)) ↔ overwritten d = true := by
  constructor
  · intro hl
    cases hw : overwritten d with
    | true => rfl
    | false =>
      exfalso
      obtain ⟨v, t₁, t₂, hg, hdf⟩ := desc_shows size one d hw
      have hd := desc_decodes size d
      have hs : (start ((d.codec size).put v)).rest = (d.codec size).put v ++ [] := by
        rw [List.append_nil]
        rfl
      obtain ⟨r1, hg1, hc⟩ := hd.leaves v t₁ hg _ [] hs
      obtain ⟨r2, hg2, -⟩ := hd.leaves v t₂ hg _ [] hs
      have hy : r1.result = .yes := by
        rcases hc.result with hy | ⟨hn, -⟩
        · exact hy
        · -- two targets that differ are of a type with more than one value
          have hem := List.eq_nil_of_length_eq_zero hn
          exact absurd (hd.hollow v hg hem _ _) hdf
      have he := hl _ t₁ t₂ _ _ hg1 ⟨hy, hc.failed⟩
      rw [hg2, Except.ok.injEq, Prod.mk.injEq] at he
      exact hdf he.2.symm
  · intro hw bytes t₁ t₂ r v get hsc
    exact (desc_overwrites size d hw).same get hsc.2 t₂

theorem target_overwritten_iff_points :
    (0 < shortSizes.maxValue) ∧
      ∀ (bytes : List UInt8) (t₁ t₂ : List (Bytes 2 × Bytes 2 × Unit)) (r : Reader) v,
        ((Desc.vector (.record (.plain (.int 2 (by decide)) (zeros 2)
          (.plain (.int 2 (by decide)) (zeros 2) .nil)))).codec shortSizes).get t₁
            (start bytes) = .ok (r, v) → Succeeds r →
        ((Desc.vector (.record (.plain (.int 2 (by decide)) (zeros 2)
          (.plain (.int 2 (by decide)) (zeros 2) .nil)))).codec shortSizes).get t₂
            (start bytes) = .ok (r, v) :=
  ⟨by decide, (target_overwritten_iff shortSizes (by decide) _).mpr rfl⟩

/-- The mark of an absent value leaves an optional as it was. -/
theorem absent_optional_keeps_old :
    ∃ r, Succeeds r ∧ ((Desc.optional (.int 1 (by decide))).codec shortSizes).get none (start [0]) =
        .ok (r, none) ∧
      ((Desc.optional (.int 1 (by decide))).codec shortSizes).get (some ⟨[5], rfl⟩)
        (start [0]) = .ok (r, some ⟨[5], rfl⟩) :=
  ⟨(start [0]).took 1 (by decide), ⟨rfl, rfl⟩, rfl, rfl⟩

end Ae.MStream.Overwriting
