/- source: obj/{registry.{h,cpp},registrar.h,domain.cpp}
   digest: The registry of classes, and the factory chosen for the classes stored for an object. -/

import Mathlib.Data.List.Sort
import Ae.Obj.Reflection

set_option autoImplicit false

namespace Ae.Obj.Registrar
open List DomainStorage.Storage Reflection ClassDesc AList

abbrev Factories := AList fun _ : ClassId => ClassDesc

abbrev Relations := StdMap ClassId (List ClassId)

/-- No class is registered under the id of `Obj`, each is under its own, and so is its base. -/
structure Sound (objClass : ClassId) (factories : Factories) : Prop where
  apart : factories.lookup objClass = none
  keyed : ∀ c cls, factories.lookup c = some cls → cls.classId objClass = c
  based : ∀ c v base fields, factories.lookup c = some (.derived c v base fields) →
    base = .obj ∨ factories.lookup (base.classId objClass) = some base

structure Related (objClass : ClassId) (factories : Factories) (relations : Relations) : Prop where
  listed : ∀ c v base fields, factories.lookup c = some (.derived c v base fields) →
    base ≠ .obj → c ∈ (relations.lookup (base.classId objClass)).getD []
  children : ∀ b, ∀ c ∈ (relations.lookup b).getD [], ∃ v base fields,
    factories.lookup c = some (.derived c v base fields) ∧ base ≠ .obj ∧ base.classId objClass = b

structure Registry where
  objClass : ClassId
  factories : Factories
  relations : Relations
  sound : Sound objClass factories
  related : Related objClass factories relations

variable {c x : ClassId} {cls : ClassDesc}

section

variable {objClass : ClassId} {factories : Factories} {relations : Relations} {v : Version}
  {base : ClassDesc} {fields : List FieldDesc}

theorem sound_empty : Sound objClass ∅ := by
  refine ⟨rfl, ?_, ?_⟩ <;> simp

theorem related_empty : Related objClass ∅ ∅ := by
  refine ⟨?_, ?_⟩ <;> simp

section

variable (hs : Sound objClass factories)
include hs

theorem Sound.ne_obj {cls : ClassDesc} (hk : factories.lookup c = some cls) : cls ≠ .obj := by
  rintro rfl
  have he := hs.keyed c .obj hk
  rw [← he, classId, hs.apart] at hk
  cases hk

theorem Sound.classId_ne (ht : base = .obj ∨ factories.lookup (base.classId objClass) = some base)
    (hn : base ≠ .obj) : base.classId objClass ≠ objClass := by
  intro he
  have hk := ht.resolve_left hn
  rw [he, hs.apart] at hk
  cases hk

theorem sound_insert (new : factories.lookup c = none)
    (hn : c ≠ objClass) (ht : base = .obj ∨ factories.lookup (base.classId objClass) = some base) :
    Sound objClass (factories.insert c (.derived c v base fields)) := by
  have hkp : ∀ d cls, factories.lookup d = some cls →
      (factories.insert c (.derived c v base fields)).lookup d = some cls := by
    intro d cls hk
    rw [lookup_insert_ne]
    · exact hk
    · rintro rfl
      rw [new] at hk
      cases hk
  refine ⟨?_, fun d cls hk => ?_, fun d v' b' fs' hk => ?_⟩
  · rw [lookup_insert_ne hn.symm]
    exact hs.apart
  · by_cases same : d = c
    · subst same
      rw [lookup_insert, Option.some.injEq] at hk
      rw [← hk]
      rfl
    · rw [lookup_insert_ne same] at hk
      exact hs.keyed d cls hk
  · by_cases same : d = c
    · subst same
      rw [lookup_insert, Option.some.injEq, derived.injEq] at hk
      obtain ⟨-, -, rfl, -⟩ := hk
      exact ht.imp_right (hkp _ _)
    · rw [lookup_insert_ne same] at hk
      exact (hs.based d v' b' fs' hk).imp_right (hkp _ _)

end

def relate (objClass : ClassId) (relations : Relations) (baseId c : ClassId) : Relations :=
  if baseId = objClass then relations
  else relations.insert baseId ((relations.lookup baseId).getD [] ++ [c])

theorem mem_relate {b d : ClassId} {bi : ClassId} :
    d ∈ ((relate objClass relations bi c).lookup b).getD [] ↔
      d ∈ (relations.lookup b).getD [] ∨ d = c ∧ b = bi ∧ bi ≠ objClass := by
  rw [relate]
  split
  · rename_i he
    simp [he]
  · rename_i hn
    by_cases he : b = bi
    · subst he
      rw [lookup_insert]
      simp [hn]
    · rw [lookup_insert_ne he]
      simp [he]

theorem related_insert (hs : Sound objClass factories)
    (hr : Related objClass factories relations) (new : factories.lookup c = none)
    (ht : base = .obj ∨ factories.lookup (base.classId objClass) = some base) :
    Related objClass (factories.insert c (.derived c v base fields))
      (relate objClass relations (base.classId objClass) c) := by
  refine ⟨fun d v' b' fs' hk hn => ?_, fun b d hm => ?_⟩
  · rw [mem_relate]
    by_cases same : d = c
    · subst same
      rw [lookup_insert, Option.some.injEq, derived.injEq] at hk
      obtain ⟨-, -, rfl, -⟩ := hk
      exact .inr ⟨rfl, rfl, hs.classId_ne ht hn⟩
    · rw [lookup_insert_ne same] at hk
      exact .inl (hr.listed d v' b' fs' hk hn)
  · rcases mem_relate.mp hm with ho | ⟨rfl, rfl, hn⟩
    · obtain ⟨v', b', fs', hk, hf⟩ := hr.children b d ho
      refine ⟨v', b', fs', ?_, hf⟩
      rw [lookup_insert_ne]
      · exact hk
      · rintro rfl
        rw [new] at hk
        cases hk
    · refine ⟨v, base, fields, lookup_insert _, ?_, rfl⟩
      rintro rfl
      exact hn rfl

end

namespace Registry

def empty (objClass : ClassId) : Registry := ⟨objClass, ∅, ∅, sound_empty, related_empty⟩

variable (r : Registry)

def registerClass (c : ClassId) (v : Version) (base : ClassDesc) (fields : List FieldDesc)
    (new : r.factories.lookup c = none) (named : c ≠ r.objClass)
    (there : base = .obj ∨ r.factories.lookup (base.classId r.objClass) = some base) :
    Registry where
  objClass := r.objClass
  factories := r.factories.insert c (.derived c v base fields)
  relations := relate r.objClass r.relations (base.classId r.objClass) c
  sound := sound_insert r.sound new named there
  related := related_insert r.sound r.related new there

def isExisting (c : ClassId) : Bool := (r.factories.lookup c).isSome

def isLast (c : ClassId) : Bool := (r.relations.lookup c).isNone

def height : ClassDesc → Nat
  | .obj => 0
  | .derived _ _ base _ => height base + 1

def depth : Nat := (r.factories.entries.map fun f => height f.2).foldr max 0

/-- The loop of `GenerationDistanceInternal` over the classes listed under a base. -/
def distanceAmong (below : ClassId → Int) (derivedId : ClassId) : List ClassId → Int
  | [] => -1
  | c :: others =>
    if derivedId = c then 1
    else if 0 ≤ below c then below c + 1
    else distanceAmong below derivedId others

def generationDistanceInternal (r : Registry) : Nat → ClassId → ClassId → Int
  | 0, _, _ => -1
  | fuel + 1, baseId, derivedId =>
    match r.relations.lookup baseId with
    | none => -1
    | some classes =>
      distanceAmong (fun c => r.generationDistanceInternal fuel c derivedId) derivedId classes

def generationDistance (baseId derivedId : ClassId) : Int :=
  if ¬ r.isExisting baseId ∨ ¬ r.isExisting derivedId then -1
  else if baseId = derivedId then 0
  else r.generationDistanceInternal r.depth baseId derivedId

def Before (left right : ClassId) : Prop :=
  ¬ 0 < r.generationDistance right left ∧ 0 ≤ r.generationDistance left right

instance (r : Registry) : DecidableRel r.Before := fun _ _ => instDecidableAnd

/-- `GetMostRelatedFactory`, from the classes that the storage lists for the object. -/
def getMostRelatedFactory (classes : List ClassId) : Option ClassDesc :=
  match ((classes.filter r.isExisting).insertionSort r.Before).getLast? with
  | none => none
  | some back =>
    (r.factories.entries.find? fun f =>
      r.isLast f.1 && decide (0 ≤ r.generationDistance back f.1)).map Sigma.snd

section

variable {r : Registry} {d : ClassId}

theorem height_le (hk : r.factories.lookup c = some cls) : height cls ≤ r.depth := by
  have hm : (⟨c, cls⟩ : Sigma fun _ : ClassId => ClassDesc) ∈ r.factories.entries :=
    mem_lookup_iff.mp hk
  unfold depth
  generalize r.factories.entries = entries at hm
  induction entries with
  | nil => simp at hm
  | cons f rest ih =>
    rw [map_cons, foldr_cons]
    rcases mem_cons.mp hm with rfl | later
    · exact le_max_left _ _
    · exact (ih later).trans (le_max_right _ _)

theorem distanceAmong_cases (near : ClassId → Int) (d : ClassId) (cs : List ClassId) :
    distanceAmong near d cs = -1 ∧ (∀ c ∈ cs, d ≠ c ∧ near c < 0) ∨
      ∃ c ∈ cs, d = c ∧ distanceAmong near d cs = 1 ∨
        0 ≤ near c ∧ distanceAmong near d cs = near c + 1 := by
  induction cs with
  | nil => exact .inl ⟨rfl, nofun⟩
  | cons e os ih => grind [distanceAmong]

theorem distanceAmong_pos {b : ClassId → Int} {classes : List ClassId}
    (hm : c ∈ classes) (hf : d = c ∨ 0 ≤ b c) : 1 ≤ distanceAmong b d classes := by
  rcases distanceAmong_cases b d classes with ⟨-, hn⟩ | ⟨e, -, ⟨-, he⟩ | ⟨hz, he⟩⟩
  · have hz := hn c hm
    exact absurd hf (not_or.mpr ⟨hz.1, by omega⟩)
  · omega
  · omega

theorem distance_of_base {m : Nat} {v : Version} {base : ClassDesc} {fields : List FieldDesc}
    (hk : r.factories.lookup c = some (.derived c v base fields))
    (hf : ∀ fuel, m ≤ fuel → d = c ∨ 1 ≤ r.generationDistanceInternal fuel c d)
    (hm : x ∈ base.chain r.objClass) (hn : x ≠ r.objClass) {fuel : Nat}
    (he : m + height base ≤ fuel) : 1 ≤ r.generationDistanceInternal fuel x d := by
  induction base generalizing c m v fields with
  | obj => exact absurd (mem_singleton.mp hm) hn
  | derived e v' b' fs' ih =>
    have hbk : r.factories.lookup e = some (.derived e v' b' fs') :=
      (r.sound.based c v _ fields hk).resolve_left (by simp)
    have hl := r.related.listed c v _ fields hk (by simp)
    have hfb : ∀ fuel, m + 1 ≤ fuel → 1 ≤ r.generationDistanceInternal fuel e d := by
      intro fuel hr
      cases fuel with
      | zero => omega
      | succ fuel =>
        rw [generationDistanceInternal]
        cases classes : r.relations.lookup e with
        | none => simp [classId, classes] at hl
        | some below =>
          have hm : c ∈ below := by simpa [classId, classes] using hl
          refine distanceAmong_pos hm ((hf fuel (by omega)).imp_right fun hnr => ?_)
          exact le_trans (by decide) hnr
    rcases mem_cons.mp hm with rfl | deeper
    · exact hfb fuel (by rw [height] at he; omega)
    · refine ih hbk (m := m + 1) (fun fuel hr => .inr (hfb fuel hr)) deeper ?_
      rw [height] at he
      omega

theorem distance_of_last (hl : r.isLast c = true) (fuel : Nat) :
    r.generationDistanceInternal fuel c d = -1 := by
  cases fuel with
  | zero => rfl
  | succ fuel =>
    rw [generationDistanceInternal, Option.isNone_iff_eq_none.mp hl]

end

section

variable {before : ClassId → ClassId → Prop} [DecidableRel before]

theorem getLast_orderedInsert {s : List ClassId} (hl : s.getLast? = some c)
    (he : x = c ∨ before x c) : (s.orderedInsert before x).getLast? = some c := by
  induction s with
  | nil => simp at hl
  | cons b rest ih =>
    rw [orderedInsert_cons]
    split
    · rw [getLast?_cons_cons]
      exact hl
    · rename_i not_before
      cases rest with
      | nil =>
        obtain rfl : b = c := by simpa using hl
        rw [he.resolve_right not_before]
        rfl
      | cons b' rest =>
        rw [getLast?_cons_cons] at hl
        rw [getLast?_cons, ih hl]
        rfl

theorem orderedInsert_of_after {s : List ClassId} (ha : ∀ x ∈ s, ¬ before c x) :
    s.orderedInsert before c = s ++ [c] := by
  induction s with
  | nil => rfl
  | cons b rest ih =>
    rw [orderedInsert_cons, if_neg (ha b mem_cons_self),
      ih fun x hm => ha x (mem_cons_of_mem b hm), cons_append]

theorem getLast_insertionSort {cs : List ClassId} (hm : c ∈ cs)
    (haf : ∀ x ∈ cs, x ≠ c → before x c ∧ ¬ before c x) :
    (cs.insertionSort before).getLast? = some c := by
  induction cs with
  | nil => simp at hm
  | cons x rest ih =>
    have hl : ∀ y ∈ rest, y ≠ c → before y c ∧ ¬ before c y :=
      fun y hm => haf y (mem_cons_of_mem x hm)
    rw [insertionSort_cons]
    by_cases ha : c ∈ rest
    · refine getLast_orderedInsert (ih ha hl) ?_
      by_cases he : x = c
      · exact .inl he
      · exact .inr (haf x mem_cons_self he).1
    · obtain rfl : c = x := (mem_cons.mp hm).resolve_right ha
      rw [orderedInsert_of_after]
      · simp
      · intro y hm
        have hi : y ∈ rest := (perm_insertionSort before rest).subset hm
        exact (hl y hi fun he => ha (he ▸ hi)).2

end

section

variable {r : Registry}

theorem generationDistance_base (hk : r.factories.lookup c = some cls)
    (hm : x ∈ cls.chain r.objClass) (he : r.isExisting x = true) (hn : x ≠ c) :
    0 < r.generationDistance x c := by
  have ht : r.isExisting c = true := by rw [isExisting, hk]; rfl
  rw [generationDistance, if_neg (by simp [he, ht]), if_neg hn]
  cases cls with
  | obj => exact absurd rfl (r.sound.ne_obj hk)
  | derived e v base fields =>
    obtain rfl : e = c := r.sound.keyed c _ hk
    have hb := (mem_cons.mp hm).resolve_left hn
    have ha : x ≠ r.objClass := by
      rintro rfl
      rw [isExisting, r.sound.apart] at he
      cases he
    have htl := height_le hk
    rw [height] at htl
    exact distance_of_base (m := 0) hk (fun _ _ => .inl rfl) hb ha (by omega)

theorem generationDistance_last (hl : r.isLast c = true) (hn : x ≠ c) :
    r.generationDistance c x = -1 := by
  rw [generationDistance]
  split
  · rfl
  · rw [if_neg hn.symm, distance_of_last hl]

variable (hk : r.factories.lookup c = some cls)
include hk

theorem known_of_mem_chain (hm : x ∈ cls.chain r.objClass) :
    x = r.objClass ∨ ∃ base, r.factories.lookup x = some base ∧ height base ≤ height cls := by
  induction cls generalizing c with
  | obj => exact .inl (mem_singleton.mp hm)
  | derived e v base fields ih =>
    obtain rfl : e = c := r.sound.keyed c _ hk
    rcases mem_cons.mp hm with rfl | below
    · exact .inr ⟨_, hk, le_rfl⟩
    · rcases r.sound.based e v base fields hk with rfl | base_known
      · exact .inl (mem_singleton.mp below)
      · refine (ih base_known below).imp_right fun ⟨b, hbk, hl⟩ => ⟨b, hbk, ?_⟩
        exact hl.trans (Nat.le_succ _)

theorem chain_nodup : (cls.chain r.objClass).Nodup := by
  induction cls generalizing c with
  | obj => exact nodup_singleton _
  | derived e v base fields ih =>
    obtain rfl : e = c := r.sound.keyed c _ hk
    have ha : e ≠ r.objClass := by
      rintro rfl
      rw [r.sound.apart] at hk
      cases hk
    rw [chain, nodup_cons]
    rcases r.sound.based e v base fields hk with rfl | base_known
    · exact ⟨fun hm => ha (mem_singleton.mp hm), nodup_singleton _⟩
    · refine ⟨fun hm => ?_, ih base_known⟩
      rcases known_of_mem_chain base_known hm with he | ⟨b, hbk, hl⟩
      · exact ha he
      · rw [hk, Option.some.injEq] at hbk
        rw [← hbk, height] at hl
        omega

theorem getMostRelatedFactory_eq
    (hl : r.isLast c = true) {cs : List ClassId} (hs : c ∈ cs)
    (hb : ∀ x ∈ cs, x ∈ cls.chain r.objClass) :
    r.getMostRelatedFactory cs = some cls := by
  have ht : r.isExisting c = true := by rw [isExisting, hk]; rfl
  have back : ((cs.filter r.isExisting).insertionSort r.Before).getLast? = some c := by
    refine getLast_insertionSort (mem_filter.mpr ⟨hs, ht⟩) fun x mem hn => ?_
    obtain ⟨hls, he⟩ := mem_filter.mp mem
    have up := generationDistance_base hk (hb x hls) he hn
    have hd := generationDistance_last hl hn
    refine ⟨⟨by rw [hd]; decide, Int.le_of_lt up⟩, fun before => before.1 up⟩
  rw [getMostRelatedFactory, back]
  have ho : (⟨c, cls⟩ : Sigma fun _ : ClassId => ClassDesc) ∈ r.factories.entries :=
    mem_lookup_iff.mp hk
  have hz : r.generationDistance c c = 0 := by
    rw [generationDistance, if_neg (by simp [ht]), if_pos rfl]
  rcases hf : r.factories.entries.find? fun f =>
      r.isLast f.1 && decide (0 ≤ r.generationDistance c f.1) with _ | f
  · have hm := find?_eq_none.mp hf ⟨c, cls⟩ ho
    simp [hl, hz] at hm
  · have hc := find?_some hf
    have hi := mem_of_find?_eq_some hf
    obtain ⟨e, cls'⟩ := f
    have hsm : e = c := by
      by_contra hn
      rw [generationDistance_last hl hn] at hc
      simp at hc
    subst hsm
    have hk' : r.factories.lookup e = some cls' := mem_lookup_iff.mpr hi
    simp only [hf, Option.map_some]
    rw [← hk, hk']

end

end Registry

end Ae.Obj.Registrar
