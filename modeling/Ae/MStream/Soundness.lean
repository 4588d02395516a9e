/- source: {mstream,mstream_buffers}.h, types/variant_type.h
   digest: When a decoding reported as successful has read every field of a record. -/

import Ae.MStream.Reads
import Ae.MStream.RoundTrip

set_option autoImplicit false

namespace Ae.MStream.Soundness
open List VectorReader Operators TypeDesc Inversion Reads Decoding RoundTrip

mutual

/-- Records of scalars, strings, vectors and `VariantType`s, and what they are made of. -/
def Received {k : Kind} {α : Type} : Desc k α → Prop
  | .int _ _ => True
  | .enum _ _ => True
  | .bool => True
  | .string => True
  | .scalarVector _ _ => True
  | .vector e => Received e
  | .variantType _ _ _ alts => ∀ i, Received (alts i)
  | .record fields => AllReceived fields
  | _ => False

def AllReceived {n : Nat} {β : Type} : Fields n β → Prop
  | .nil => True
  | .plain e _ others => Received e ∧ AllReceived others
  | .optional _ _ _ => False

end

mutual

theorem received_speaks (size : SizeType) {k : Kind} {α : Type} :
    (d : Desc k α) → Received d → ∀ v t, (descShape size d).speaks v t
  | .int _ _, _, _, _ | .enum _ _, _, _, _ | .bool, _, _, _ | .string, _, _, _
  | .scalarVector _ _, _, _, _ => trivial
  | .vector e, h, v, t => by
    have every := received_speaks size e h
    apply forall₂_iff_get.mpr
    exact ⟨(resizeTo_length _ t).symm, fun _ _ _ => every _ _⟩
  | .variantType _ _ _ alts, h, v, t => by
    cases v with
    | none => trivial
    | some v => exact received_speaks size (alts v.1) (h v.1) v.2 _
  | .record fields, h, v, t => allReceived_speak size fields h v t

theorem allReceived_speak (size : SizeType) {n : Nat} {β : Type} :
    (fs : Fields n β) → AllReceived fs → ∀ v t, (fieldsShape size fs).speaks v t
  | .nil, _, _, _ => trivial
  | .plain e _ others, h, v, t =>
    ⟨received_speaks size e h.1 v.1 t.1, allReceived_speak size others h.2 v.2 t.2⟩

end

structure GoodRead (size : SizeType) {α : Type} (c : Codec α) (s : Shape α) : Prop where
  good : ∀ {t : α} {r r' : Reader} {v : α}, c.get t r = .ok (r', v) → r'.failed = false →
    ∀ site ∈ s.sites v, site.Good size

section

variable {size : SizeType} {α β : Type} {c : Codec α} {s : Shape α}

theorem goodRead_atom : GoodRead size c atom :=
  ⟨fun _ _ _ hi => absurd hi not_mem_nil⟩

theorem readSize_le {r r' : Reader} {n : Nat} (h : r.readSize size = (r', some n)) :
    n ≤ size.maxValue := by
  rcases readSize_cases h with ⟨k, m, found, -, some⟩ | ⟨-, none, -⟩
  · cases some
    exact (size.encode_of_decode _ _ _ found).1
  · cases none

theorem goodRead_string : GoodRead size (string size) (block 1) := by
  constructor
  intro t r r' v h hc si hi
  rcases string_ok h with ⟨hs, -⟩ | ⟨r1, n, r2, o, hs, hr, hrd, rfl⟩
  · exact readSize_refused hs hc
  · obtain ⟨rfl, ht, -⟩ := read_granted hrd hc
    have hl : (r2.rest.take n).length = n := length_take_of_le ht
    rw [Option.getD_some] at hi
    rw [mem_singleton.mp hi, hl, mul_one]
    exact ⟨⟨readSize_le hs, (resize_ok hr).1⟩, trivial⟩

theorem goodRead_scalarVector {w : Nat} : GoodRead size (scalarVector size w) (block w) := by
  constructor
  intro t r r' v h hc si hi
  rcases scalarVector_ok h with ⟨hs, -⟩ | ⟨r1, n, r2, o, hs, hr, hrd, rfl⟩
  · exact readSize_refused hs hc
  · obtain ⟨rfl, -⟩ := read_granted hrd hc
    rw [Option.map_some, Option.getD_some] at hi
    rw [mem_singleton.mp hi, slices_length]
    exact ⟨⟨readSize_le hs, (resize_ok hr).1⟩, trivial⟩

theorem getEach_good (hs : Steady c) (hrd : GoodRead size c s) {ts vs : List α}
    {r r' : Reader} (h : getEach c ts r = .ok (r', vs)) (hc : r'.failed = false)
    (hy : r.result = .yes) : ∀ v ∈ vs, ∀ si ∈ s.sites v, si.Good size := by
  induction ts generalizing r vs with
  | nil =>
    cases h
    intro v hm
    exact absurd hm not_mem_nil
  | cons t ts ih =>
    obtain ⟨r1, v, hg, ⟨hr, rfl, -⟩ | ⟨-, l, hrs, rfl⟩⟩ := getEach_cons_ok h
    · rw [(hs.later hg).yes hc hy] at hr
      cases hr
    · have hc1 := (getEach_later hs hrs).failed hc
      exact forall_mem_cons.mpr
        ⟨hrd.good hg hc1, ih hrs ((hs.later hg).yes hc1 hy)⟩

theorem goodRead_vector (hst : Steady c) (hrd : GoodRead size c s) :
    GoodRead size (vector size c) (sequenceOf c.init s) := by
  constructor
  intro t r r' v h hc
  rcases vector_ok h with ⟨hs, -⟩ | ⟨r1, n, r2, hs, hr, he⟩
  · exact readSize_refused hs hc
  · have hl : v.length = n := (getEach_length c _ he).trans (resizeTo_length n t)
    have hc2 := (getEach_later hst he).failed hc
    have hy := (resize_later hr).yes hc2 (readSize_some_yes hs)
    have hel := getEach_good hst hrd he hc hy
    refine forall_mem_cons.mpr ⟨?_, ?_⟩
    · rw [hl]
      exact ⟨⟨readSize_le hs, (resize_ok hr).1⟩, trivial⟩
    · intro si hi
      obtain ⟨x, hm, hi⟩ := mem_flatMap.mp hi
      exact hel x hm si hi

theorem goodRead_variantType {n w : Nat} {A : Fin (n + 1) → Type}
    {a : (i : Fin (n + 1)) → Codec (A i)} {ss : (i : Fin (n + 1)) → Shape (A i)}
    {ta : Fin (n + 1) → Bytes w} (hr : ∀ i, GoodRead size (a i) (ss i)) :
    GoodRead size (variantType ta a) (variantTypeOf (fun i => (a i).init) ss) := by
  constructor
  intro t r r' v h hc
  obtain ⟨r1, ix, x, -, hg, rfl⟩ := variantType_ok h
  exact forall_mem_cons.mpr ⟨⟨trivial, rfl⟩, (hr _).good hg hc⟩

theorem goodRead_pair {a : Codec α} {b : Codec β} {u : Shape β} (hs : Steady b)
    (h1 : GoodRead size a s) (h2 : GoodRead size b u) : GoodRead size (pair a b) (pairOf s u) := by
  constructor
  intro t r r' v h hc
  obtain ⟨r1, hg1, hg2⟩ := pair_ok h
  have hc1 := (hs.later hg2).failed hc
  exact forall_mem_append.mpr ⟨h1.good hg1 hc1, h2.good hg2 hc⟩

end

mutual

theorem received_goodRead (size : SizeType) {k : Kind} {α : Type} :
    (d : Desc k α) → Received d → GoodRead size (d.codec size) (descShape size d)
  | .int _ _, _ | .enum _ _, _ | .bool, _ => goodRead_atom
  | .string, _ => goodRead_string
  | .scalarVector _ _, _ => goodRead_scalarVector
  | .vector e, h => goodRead_vector (desc_steady size e) (received_goodRead size e h)
  | .variantType _ _ _ alts, h =>
    goodRead_variantType (fun i => received_goodRead size (alts i) (h i))
  | .record fields, h => allReceived_goodRead size fields h

theorem allReceived_goodRead (size : SizeType) {n : Nat} {β : Type} :
    (fs : Fields n β) → AllReceived fs → GoodRead size (fs.codec size) (fieldsShape size fs)
  | .nil, _ => goodRead_atom
  | .plain e _ others, h =>
    have pair := goodRead_pair (fields_steady size others) (received_goodRead size e h.1)
      (allReceived_goodRead size others h.2)
    ⟨pair.good⟩

end

/-- A decoding has read every field, and the decoded value encodes to the bytes taken,
exactly when the input starts with the whole encoding of some value. -/
theorem complete_iff_starts_with_encoding (size : SizeType) {k : Kind} {α : Type} (d : Desc k α)
    (hr : Received d) {bytes : List UInt8} {t : α} {r : Reader} {v : α}
    (hg : (d.codec size).get t (Reader.start bytes) = .ok (r, v)) :
    (r.failed = false ∧ (d.codec size).put v = bytes.take r.offset) ↔
      ∃ u, (∀ si ∈ (descShape size d).sites u, si.Good size) ∧
        (d.codec size).put u <+: bytes := by
  constructor
  · rintro ⟨hcl, hb⟩
    refine ⟨v, (received_goodRead size d hr).good hg hcl, ?_⟩
    rw [hb]
    exact take_prefix _ _
  · rintro ⟨u, hgd, rest, rfl⟩
    obtain ⟨r', hg', hc⟩ := (desc_decodes size d).leaves u t hgd
      (Reader.start ((d.codec size).put u ++ rest)) rest rfl
    have hw := (descShape size d).merge_eq_iff u t |>.mpr (received_speaks size d hr u t)
    rw [hw, hg, Except.ok.injEq, Prod.mk.injEq] at hg'
    obtain ⟨rfl, rfl⟩ := hg'
    refine ⟨hc.failed, ?_⟩
    rw [hc.offset, show (Reader.start _).offset = 0 from rfl, zero_add, take_left]

/-- That `data_was_read` means a record read whole, byte for byte, comes to this: whenever it
is reported, the input starts with the whole encoding of some record. -/
theorem data_was_read_sound_iff (size : SizeType) {k : Kind} {α : Type} (d : Desc k α)
    (received : Received d) (bytes : List UInt8) (t : α) (r : Reader) (v : α)
    (get : (d.codec size).get t (Reader.start bytes) = .ok (r, v)) :
    (r.result = .yes → r.failed = false ∧ (d.codec size).put v = bytes.take r.offset) ↔
      (r.result = .yes → ∃ u, (∀ site ∈ (descShape size d).sites u, site.Good size) ∧
        (d.codec size).put u <+: bytes) := by
  apply imp_congr_right
  intro _
  exact complete_iff_starts_with_encoding size d received get

/-- A record of a number of two bytes and a `VariantType` over two kinds of one byte, with the
indexes 1 and 2. -/
def readingDesc : Desc .compound (Bytes 2 × Option ((_ : Fin 2) × Bytes 1) × Unit) :=
  .record (.plain (.int 2 Nat.two_pos) (zeros 2)
    (.plain (.variantType (fun i => if i = 0 then ⟨[1], rfl⟩ else ⟨[2], rfl⟩) Nat.one_pos
      (by decide) (fun _ => .int 1 Nat.one_pos)) none .nil))

theorem data_was_read_sound_iff_reading :
    ∃ r v, (readingDesc.codec shortSizes).get (zeros 2, none, ()) (Reader.start [4, 0, 2, 7, 9]) =
        .ok (r, v) ∧ r.result = .yes ∧ r.failed = false ∧
      (readingDesc.codec shortSizes).put v = [4, 0, 2, 7, 9].take r.offset := by
  refine ⟨_, _, rfl, rfl, ?_⟩
  refine (data_was_read_sound_iff shortSizes readingDesc ?_ _ (zeros 2, none, ())
    _ _ rfl).mpr ?_ rfl
  · exact ⟨trivial, fun _ => trivial, trivial⟩
  · intro _
    refine ⟨(⟨[4, 0], rfl⟩, some ⟨1, ⟨[7], rfl⟩⟩, ()), ?_, [9], rfl⟩
    intro si hi
    rw [mem_singleton.mp hi]
    exact ⟨trivial, rfl⟩

/-- Of a record of two bytes and one byte, the input `[7]` gives the last field only, and the
index 9 of no alternative is taken for the first: both are reported as read. -/
theorem truncated_and_unknown_reported_read :
    (∃ r v, ((Desc.record (.plain (.int 2 (by decide)) (zeros 2)
        (.plain (.int 1 (by decide)) (zeros 1) .nil))).codec shortSizes).get
          (zeros 2, zeros 1, ()) (Reader.start [7]) = .ok (r, v) ∧
        r.result = .yes ∧ r.failed = true) ∧
      ∃ r v, (readingDesc.codec shortSizes).get (zeros 2, none, ()) (Reader.start [4, 0, 9, 7]) =
          .ok (r, v) ∧ r.result = .yes ∧
        (readingDesc.codec shortSizes).put v ≠ [4, 0, 9, 7].take r.offset := by
  refine ⟨⟨_, _, rfl, rfl, rfl⟩, ⟨_, _, rfl, rfl, ?_⟩⟩
  decide

end Ae.MStream.Soundness
