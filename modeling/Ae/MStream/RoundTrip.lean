/- source: mstream.h, types/{nullable_type,variant_type}.h
   digest: Which values of a type survive being encoded and decoded. -/

import Ae.MStream.TypeDesc
import Ae.MStream.Decoding

set_option autoImplicit false

namespace Ae.MStream.RoundTrip
open VectorReader Operators TypeDesc Decoding

mutual

def descShape (size : SizeType) {k : Kind} {α : Type} : Desc k α → Shape α
  | .int _ _ => atom
  | .enum _ _ => atom
  | .bool => atom
  | .string => block 1
  | .scalarVector w _ => block w
  | .scalarArray _ _ _ => atom
  | .boolArray _ => atom
  | .vector e => sequenceOf (e.codec size).init (descShape size e)
  | .deque e => sequenceOf (e.codec size).init (descShape size e)
  | .array n e => arrayOf n (descShape size e)
  | .list e => listOf (e.codec size).init (descShape size e)
  | .pair a b => pairOf (descShape size a) (descShape size b)
  | .map order a b => mapOf order ((a.codec size).init, (b.codec size).init)
      (pairOf (descShape size a) (descShape size b))
  | .optional e => optionOf (e.codec size).init (descShape size e)
  | .uniquePtr e => optionOf (e.codec size).init (descShape size e)
  | .sharedPtr e => optionOf (e.codec size).init (descShape size e)
  | .variant _ alts =>
    variantOf (fun i => ((alts i).codec size).init) (fun i => descShape size (alts i))
  | .variantType _ _ _ alts =>
    variantTypeOf (fun i => ((alts i).codec size).init) (fun i => descShape size (alts i))
  | .record fields => fieldsShape size fields
  | .nullable _ fields => fieldsShape size fields
  | .statistics _ pos e => windowOf pos (e.codec size).init (descShape size e)

def fieldsShape (size : SizeType) {n : Nat} {β : Type} : Fields n β → Shape β
  | .nil => atom
  | .plain e _ others => pairOf (descShape size e) (fieldsShape size others)
  | .optional e _ others =>
    pairOf (optionOf (e.codec size).init (descShape size e)) (fieldsShape size others)

end

mutual

/-- By induction over the type: every operator takes just what its counterpart wrote. -/
theorem desc_decodes (size : SizeType) {k : Kind} {α : Type} :
    (d : Desc k α) → Decodes size (d.codec size) (descShape size d)
  | .int _ pos => decodes_int pos
  | .enum _ pos => decodes_enum pos
  | .bool => decodes_boolean
  | .string => decodes_string
  | .scalarVector _ _ => decodes_scalarVector
  | .scalarArray _ _ pos => decodes_scalarArray pos
  | .boolArray _ => decodes_boolArray
  | .vector e | .deque e => decodes_vector (desc_decodes size e)
  | .array _ e => decodes_array (desc_decodes size e)
  | .list e => decodes_list (desc_decodes size e)
  | .pair a b => decodes_pair (desc_decodes size a) (desc_decodes size b)
  | .map _ a b => decodes_map (desc_decodes size a) (desc_decodes size b)
  | .optional e | .uniquePtr e | .sharedPtr e => decodes_optional (desc_decodes size e)
  | .variant few alts => decodes_variant few (fun i => desc_decodes size (alts i))
  | .variantType _ pos distinct alts =>
    decodes_variantType pos distinct (fun i => desc_decodes size (alts i))
  | .record fields => fields_decodes size fields
  | .nullable few fields => decodes_nullable few (masked_decodes size fields)
  | .statistics _ pos e => decodes_statistics pos (desc_decodes size e)

theorem fields_decodes (size : SizeType) {n : Nat} {β : Type} :
    (fs : Fields n β) → Decodes size (fs.codec size) (fieldsShape size fs)
  | .nil => decodes_noFields
  | .plain e init others => decodes_field init (desc_decodes size e) (fields_decodes size others)
  | .optional e init others =>
    decodes_field init (decodes_optional (desc_decodes size e)) (fields_decodes size others)

theorem masked_decodes (size : SizeType) {n : Nat} {β : Type} :
    (fs : Fields n β) → MaskedDecodes size n (fs.masked size) (fieldsShape size fs)
  | .nil => masked_noFields
  | .plain e init others => masked_field init (desc_decodes size e) (masked_decodes size others)
  | .optional e init others =>
    masked_optional init (desc_decodes size e) (masked_decodes size others)

end

/-- Decoding the encoding of `v`, whatever follows it, into a default-constructed target
gives `v`, stops at what follows and reports `kYes`. -/
def RoundTrips {α : Type} (c : Codec α) (v : α) : Prop :=
  ∀ rest, ∃ r, c.get c.init (Reader.start (c.put v ++ rest)) = .ok (r, v) ∧
    r.offset = (c.put v).length ∧ r.result = .yes

/-- Of the values whose sizes fit, whose lists have fewer than `2 ^ 32` elements and whose
`VariantType`s hold something, exactly those come back through which nothing of the
default-constructed object shows: an empty optional, a null pointer or a valueless variant
does not overwrite a default that is there. -/
theorem roundTrips_iff_speaks (size : SizeType) {k : Kind} {α : Type} (d : Desc k α) (v : α)
    (nonempty : (d.codec size).put v ≠ [])
    (fits : ∀ site ∈ (descShape size d).sites v, site.Fits size)
    (countable : ∀ site ∈ (descShape size d).sites v, site.Countable) :
    RoundTrips (d.codec size) v ↔ (descShape size d).speaks v (d.codec size).init := by
  rw [← (descShape size d).merge_eq_iff]
  have hl (rest : List UInt8) := (desc_decodes size d).leaves v (d.codec size).init
    (fun site hi => ⟨fits site hi, countable site hi⟩)
    (Reader.start ((d.codec size).put v ++ rest)) rest rfl
  constructor
  · intro ht
    obtain ⟨r, hb, -⟩ := ht []
    obtain ⟨r', hg, -⟩ := hl []
    rw [hb, Except.ok.injEq, Prod.mk.injEq] at hg
    exact hg.2.symm
  · intro he rest
    obtain ⟨r', hg, hc⟩ := hl rest
    refine ⟨r', by rw [hg, he], ?_, ?_⟩
    · rw [hc.offset]
      exact zero_add _
    · rcases hc.result with hy | ⟨hn, -⟩
      · exact hy
      · exact absurd (List.eq_nil_of_length_eq_zero hn) nonempty

def portsDesc : Desc .compound (List (List UInt8 × Option (Bytes 2) × Unit)) :=
  .list (.record (.plain .string [] (.optional (.int 2 Nat.two_pos) none .nil)))

theorem roundTrips_iff_speaks_ports :
    RoundTrips (portsDesc.codec shortSizes)
      [([7, 9], some ⟨[80, 0], rfl⟩, ()), ([], none, ())] := by
  apply (roundTrips_iff_speaks shortSizes portsDesc _ (by decide) ?_ ?_).mpr
  · intro p hm
    rcases List.mem_pair.mp hm with rfl | rfl
    · exact ⟨trivial, trivial, trivial⟩
    · exact ⟨trivial, rfl, trivial⟩
  · simp [portsDesc, descShape, fieldsShape, listOf, pairOf, optionOf, block, atom, Site.Fits,
      shortSizes, Types.TieredInt.twoTiers]
  · simp [portsDesc, descShape, fieldsShape, listOf, pairOf, optionOf, block, atom, Site.Countable]

def defaultedDesc : Desc .compound (Option (Bytes 1) × Unit) :=
  .record (.optional (.int 1 Nat.one_pos) (some ⟨[5], rfl⟩) .nil)

/-- The empty optional comes back as the default member value. -/
theorem empty_optional_decodes_to_default :
    (defaultedDesc.codec shortSizes).put (none, ()) = [0] ∧
      ¬ RoundTrips (defaultedDesc.codec shortSizes) (none, ()) := by
  refine ⟨rfl, fun ht => ?_⟩
  obtain ⟨r, hb, -⟩ := ht []
  have hk : (defaultedDesc.codec shortSizes).get (some ⟨[5], rfl⟩, ()) (Reader.start [0]) =
      .ok ((Reader.start [0]).took 1 (by decide), (some ⟨[5], rfl⟩, ())) := rfl
  have he := hk.symm.trans hb
  rw [Except.ok.injEq, Prod.mk.injEq, Prod.mk.injEq] at he
  cases he.2.1

end Ae.MStream.RoundTrip
