/- source: obj/idomain_storage.h, domain_storage/ram_domain_storage.{h,cpp}
   digest: The storage interface of a domain and the storage that keeps its data in memory. -/

import Mathlib.Data.List.AList

set_option autoImplicit false

namespace Ae.DomainStorage.Storage

abbrev ObjId := UInt32

abbrev ClassId := UInt32

abbrev Version := UInt8

abbrev ObjectData := List UInt8

/-- A `std::map`: its keys are distinct, and nothing below reads the order of its entries. -/
abbrev StdMap (κ ν : Type) := AList (fun _ : κ => ν)

structure DomainQuery where
  id : ObjId
  classId : ClassId
  version : Version
deriving DecidableEq

/-- What `Load` reports: the `DomainLoadResult`, and for `kLoaded` the bytes that the
reader of the `DomainLoad` gives out. -/
inductive DomainLoad where
  | empty
  | removed
  | loaded (data : ObjectData)
deriving DecidableEq

def DomainLoad.isLoaded : DomainLoad → Bool
  | .loaded _ => true
  | _ => false

def DomainLoad.data? : DomainLoad → Option ObjectData
  | .loaded data => some data
  | _ => none

theorem DomainLoad.isLoaded_eq (l : DomainLoad) : l.isLoaded = l.data?.isSome := by
  cases l <;> rfl

theorem DomainLoad.data?_eq_some {l : DomainLoad} {data : ObjectData} :
    l.data? = some data ↔ l = .loaded data := by
  cases l <;> simp [data?]

/-- `IDomainStorage`. A `Store` is the whole life of the writer it returns: the data is
saved when the writer is destroyed, with all the bytes written to it. -/
class IDomainStorage (σ : Type) where
  store : σ → DomainQuery → ObjectData → σ
  enumerate : σ → ObjId → List ClassId
  load : σ → DomainQuery → DomainLoad
  remove : σ → ObjId → σ
  cleanUp : σ → σ

open IDomainStorage AList

inductive Operation where
  | store (query : DomainQuery) (data : ObjectData)
  | remove (id : ObjId)
  | cleanUp

section

variable {σ : Type} [IDomainStorage σ]

def apply (s : σ) : Operation → σ
  | .store query data => store s query data
  | .remove id => remove s id
  | .cleanUp => cleanUp s

/-- The classes listed for one object are the ones of which some version loads. -/
def CoherentAt (s : σ) (id : ObjId) : Prop :=
  ∀ c, c ∈ enumerate s id ↔ ∃ v, (load s ⟨id, c, v⟩).isLoaded = true

def Coherent (s : σ) : Prop :=
  ∀ id, CoherentAt s id

end

abbrev VersionData := StdMap Version ObjectData

abbrev ClassData := StdMap ClassId VersionData

/-- An object of a memory storage has a class, and each of its classes a version. -/
def Inhabits (state : StdMap ObjId (Option ClassData)) : Prop :=
  ∀ id classes, state.lookup id = some (some classes) →
    classes ≠ ∅ ∧ ∀ c versions, classes.lookup c = some versions → versions ≠ ∅

/-- `RamDomainStorage`. An object that was removed keeps an entry without data. The map
`[class_id][version]` of an object comes into being with its first version. -/
structure RamDomainStorage where
  state : StdMap ObjId (Option ClassData)
  inhabited : Inhabits state

namespace RamDomainStorage

theorem insert_ne_empty {κ ν : Type} [DecidableEq κ] (m : StdMap κ ν) (k : κ) (v : ν) :
    m.insert k v ≠ ∅ := by
  intro hn
  have hf := m.lookup_insert (a := k) (b := v)
  rw [hn, lookup_empty] at hf
  cases hf

variable (s : RamDomainStorage)

def classesOf (id : ObjId) : ClassData :=
  ((s.state.lookup id).getD none).getD ∅

def saved (classes : ClassData) (query : DomainQuery) (data : ObjectData) : ClassData :=
  classes.insert query.classId (((classes.lookup query.classId).getD ∅).insert query.version data)

variable (id : ObjId)

theorem classesOf_inhabited {c : ClassId}
    {vs : VersionData} (hf : (s.classesOf id).lookup c = some vs) : vs ≠ ∅ := by
  unfold classesOf at hf
  rcases hs : s.state.lookup id with _ | _ | classes
  · rw [hs] at hf
    cases hf
  · rw [hs] at hf
    cases hf
  · rw [hs] at hf
    exact (s.inhabited id classes hs).2 c vs hf

variable (q : DomainQuery)

theorem saveData_inhabited (data : ObjectData) :
    Inhabits (s.state.insert q.id (some (saved (s.classesOf q.id) q data))) := by
  intro id cs hf
  by_cases same : id = q.id
  · subst same
    rw [lookup_insert] at hf
    cases hf
    refine ⟨insert_ne_empty _ _ _, ?_⟩
    intro c vs hac
    by_cases own : c = q.classId
    · subst own
      rw [saved, lookup_insert] at hac
      cases hac
      exact insert_ne_empty _ _ _
    · rw [saved, lookup_insert_ne own] at hac
      exact s.classesOf_inhabited q.id hac
  · rw [lookup_insert_ne same] at hf
    exact s.inhabited id cs hf

def saveData (query : DomainQuery) (data : ObjectData) : RamDomainStorage where
  state := s.state.insert query.id (some (saved (s.classesOf query.id) query data))
  inhabited := saveData_inhabited s query data

def enumerate (id : ObjId) : List ClassId :=
  match s.state.lookup id with
  | none => []
  | some none => []
  | some (some classes) => classes.keys

def load (query : DomainQuery) : DomainLoad :=
  match s.state.lookup query.id with
  | none => .empty
  | some none => .removed
  | some (some classes) =>
    match classes.lookup query.classId with
    | none => .empty
    | some versions =>
      match versions.lookup query.version with
      | none => .empty
      | some data => .loaded data

theorem remove_inhabited : Inhabits (s.state.insert id none) := by
  intro o cs hf
  by_cases same : o = id
  · subst same
    rw [lookup_insert] at hf
    cases hf
  · rw [lookup_insert_ne same] at hf
    exact s.inhabited o cs hf

def remove (id : ObjId) : RamDomainStorage where
  state := s.state.insert id none
  inhabited := remove_inhabited s id

theorem empty_inhabited : Inhabits ∅ := by
  intro id cs hf
  cases hf

def empty : RamDomainStorage where
  state := ∅
  inhabited := empty_inhabited

instance : IDomainStorage RamDomainStorage where
  store := saveData
  enumerate := enumerate
  load := load
  remove := remove
  cleanUp _ := empty

@[simp] theorem lookup_saveData (data : ObjectData) : (s.saveData q data).state.lookup q.id =
      some (some (saved (s.classesOf q.id) q data)) :=
  lookup_insert _

theorem lookup_saveData_ne (data : ObjectData) {id : ObjId} (hn : id ≠ q.id) :
    (s.saveData q data).state.lookup id = s.state.lookup id :=
  lookup_insert_ne hn

@[simp] theorem lookup_remove : (s.remove id).state.lookup id = some none :=
  lookup_insert _

theorem lookup_remove_ne {id other : ObjId} (ne : other ≠ id) :
    (s.remove id).state.lookup other = s.state.lookup other :=
  lookup_insert_ne ne

theorem data?_load : (s.load q).data? = ((s.classesOf q.id).lookup q.classId).bind fun versions =>
      versions.lookup q.version := by
  unfold load classesOf
  rcases s.state.lookup q.id with _ | _ | classes
  · rfl
  · rfl
  · rcases hac : classes.lookup q.classId with _ | versions
    · simp [hac, DomainLoad.data?]
    · rcases hav : versions.lookup q.version with _ | data <;>
        simp [hac, hav, DomainLoad.data?]

theorem load_isLoaded_iff (c : ClassId) (v : Version) :
    (s.load ⟨id, c, v⟩).isLoaded = true ↔ ∃ classes versions,
      s.state.lookup id = some (some classes) ∧ classes.lookup c = some versions ∧
        v ∈ versions := by
  unfold load
  rcases hs : s.state.lookup id with _ | _ | classes
  · simp [DomainLoad.isLoaded]
  · simp [DomainLoad.isLoaded]
  · rcases hac : classes.lookup c with _ | versions
    · simp [DomainLoad.isLoaded, hac]
    · rcases hav : versions.lookup v with _ | data
      · have hm := lookup_eq_none.mp hav
        simp [DomainLoad.isLoaded, hac, hav, hm]
      · have hp : v ∈ versions := by
          rw [← lookup_isSome, hav]
          rfl
        simp [DomainLoad.isLoaded, hac, hav, hp]

theorem ram_coherent : Coherent s := by
  intro id c
  change c ∈ s.enumerate id ↔ ∃ v, (s.load ⟨id, c, v⟩).isLoaded = true
  simp only [load_isLoaded_iff, enumerate]
  rcases hs : s.state.lookup id with _ | _ | classes
  · simp
  · simp
  · constructor
    · intro hl
      obtain ⟨vs, hac⟩ :=
        Option.isSome_iff_exists.mp (lookup_isSome.mpr (mem_keys.mpr hl))
      have hsv := (s.inhabited id classes hs).2 c vs hac
      rcases he : vs.entries with _ | ⟨e, rest⟩
      · exact absurd (ext he) hsv
      · refine ⟨e.1, classes, vs, rfl, hac, ?_⟩
        rw [mem_keys, keys, he]
        simp
    · rintro ⟨v, cs', vs, hsm, hac, -⟩
      cases hsm
      exact mem_keys.mp (lookup_isSome.mp (by rw [hac]; rfl))

end RamDomainStorage

end Ae.DomainStorage.Storage
