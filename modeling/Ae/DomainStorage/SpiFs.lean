/- source: domain_storage/spifs_domain_storage.{h,cpp}
   digest: The flash storage keeps one file per query and writes it only for a new checksum. -/

import Ae.DomainStorage.Storage
import Ae.Lib.EventRun

set_option autoImplicit false

namespace Ae.DomainStorage.SpiFs
open List Storage Lib.EventRun AList

abbrev DataCrc := UInt32

abbrev VersionMap := StdMap Version DataCrc

abbrev ClassMap := StdMap ClassId VersionMap

abbrev ObjectMap := StdMap ObjId ClassMap

namespace ObjectMap

def find (m : ObjectMap) (query : DomainQuery) : Option DataCrc :=
  (m.lookup query.id).bind fun classes =>
    (classes.lookup query.classId).bind fun versions => versions.lookup query.version

def record (m : ObjectMap) (query : DomainQuery) (crc : DataCrc) : ObjectMap :=
  let classes := (m.lookup query.id).getD ∅
  let versions := (classes.lookup query.classId).getD ∅
  m.insert query.id (classes.insert query.classId (versions.insert query.version crc))

def queriesOf (id : ObjId) (classes : ClassMap) : List DomainQuery :=
  classes.entries.flatMap fun entry => entry.2.keys.map fun version => ⟨id, entry.1, version⟩

def queries (m : ObjectMap) : List DomainQuery :=
  m.entries.flatMap fun object => queriesOf object.1 object.2

end ObjectMap

open ObjectMap

/-- `SpiFsDomainStorage` with its partition: the map in memory, the map as the file
`object_map_dump` holds it, and the data files. The path of a data file spells out the
query, so different queries have different files. -/
structure SpiFsDomainStorage (crc : ObjectData → DataCrc) where
  objectMap : ObjectMap
  mapFile : Option ObjectMap
  files : StdMap DomainQuery ObjectData

variable {crc : ObjectData → DataCrc} {query : DomainQuery} {data : ObjectData}

namespace SpiFsDomainStorage

def formatted : SpiFsDomainStorage crc where
  objectMap := ∅
  mapFile := none
  files := ∅

variable (s : SpiFsDomainStorage crc)

def syncState : SpiFsDomainStorage crc :=
  { s with mapFile := some s.objectMap }

def restart : SpiFsDomainStorage crc :=
  { s with objectMap := s.mapFile.getD ∅ }

def recorded (query : DomainQuery) : DataCrc :=
  (s.objectMap.find query).getD 0

def enter (query : DomainQuery) (sum : DataCrc) : SpiFsDomainStorage crc :=
  { s with objectMap := s.objectMap.record query sum }

/-- `SaveObject`: the entry is made in any case, the map file is written only together
with a new checksum. -/
def saveObject (query : DomainQuery) (sum : DataCrc) : SpiFsDomainStorage crc × Bool :=
  if s.recorded query ≠ sum then ((s.enter query sum).syncState, true)
  else (s.enter query (s.recorded query), false)

/-- The destructor of the writer. `opens` tells whether the data file can be opened for
writing, if it comes to that. -/
def write (query : DomainQuery) (data : ObjectData) (opens : Bool) : SpiFsDomainStorage crc :=
  match s.saveObject query (crc data) with
  | (s, false) => s
  | (s, true) => if opens then { s with files := s.files.insert query data } else s

def enumerate (id : ObjId) : List ClassId :=
  match s.objectMap.lookup id with
  | none => []
  | some classes => classes.keys

def load (query : DomainQuery) : DomainLoad :=
  match s.objectMap.lookup query.id with
  | none => .empty
  | some classes =>
    if classes.keys.isEmpty then .removed
    else match classes.lookup query.classId with
      | none => .empty
      | some versions =>
        match versions.lookup query.version with
        | none => .empty
        | some _ =>
          match s.files.lookup query with
          | none => .empty
          | some data => .loaded data

def unlink (files : StdMap DomainQuery ObjectData) (queries : List DomainQuery) :
    StdMap DomainQuery ObjectData :=
  queries.foldl (fun files query => files.erase query) files

/-- `Remove`: an object without an entry gets an empty one, and the map file is left. -/
def remove (id : ObjId) : SpiFsDomainStorage crc :=
  match s.objectMap.lookup id with
  | none => { s with objectMap := s.objectMap.insert id ∅ }
  | some classes =>
    syncState { s with
      files := unlink s.files (queriesOf id classes)
      objectMap := s.objectMap.insert id ∅ }

def cleanUp : SpiFsDomainStorage crc :=
  syncState { s with files := unlink s.files s.objectMap.queries, objectMap := ∅ }

instance : IDomainStorage (SpiFsDomainStorage crc) where
  store s query data := s.write query data true
  enumerate := enumerate
  load := load
  remove := remove
  cleanUp := cleanUp

end SpiFsDomainStorage

open SpiFsDomainStorage

namespace ObjectMap

variable {m : ObjectMap} {other : DomainQuery} {id : ObjId} {c : ClassId}

@[simp] theorem find_record (sum : DataCrc) : (m.record query sum).find query = some sum := by
  simp [find, record]

theorem find_record_ne (sum : DataCrc) (ne : other ≠ query) :
    (m.record query sum).find other = m.find other := by
  obtain ⟨id, c, v⟩ := query
  obtain ⟨oh, o, ot⟩ := other
  by_cases same_id : oh = id
  · subst same_id
    rcases hai : m.lookup oh with _ | classes
    · by_cases same_class : o = c
      · subst same_class
        have hvn : ot ≠ v := by
          rintro rfl
          exact ne rfl
        simp [find, record, hai, -insert_empty, lookup_insert_ne hvn]
      · simp [find, record, hai, -insert_empty, lookup_insert_ne same_class]
    · by_cases same_class : o = c
      · subst same_class
        have hvn : ot ≠ v := by
          rintro rfl
          exact ne rfl
        rcases hac : classes.lookup o with _ | versions
        · simp [find, record, hai, hac, -insert_empty, lookup_insert_ne hvn]
        · simp [find, record, hai, hac, lookup_insert_ne hvn]
      · simp [find, record, hai, lookup_insert_ne same_class]
  · simp [find, record, lookup_insert_ne same_id]

@[simp] theorem find_insert_empty : find (m.insert query.id ∅) query = none := by
  simp [find]

theorem find_insert_ne (ne : query.id ≠ id) (cs : ClassMap) :
    find (m.insert id cs) query = m.find query := by
  simp [find, lookup_insert_ne ne]

theorem mem_queriesOf {classes : ClassMap} {sum : DataCrc}
    (hai : m.lookup query.id = some classes) (hf : m.find query = some sum) :
    query ∈ queriesOf query.id classes := by
  rw [find, hai, Option.bind_some] at hf
  obtain ⟨vs, hac, hav⟩ := Option.bind_eq_some_iff.mp hf
  refine mem_flatMap.mpr ⟨⟨query.classId, vs⟩, mem_lookup_iff.mp hac, ?_⟩
  refine mem_map.mpr ⟨query.version, ?_, rfl⟩
  exact mem_keys.mp (lookup_isSome.mp (by rw [hav]; rfl))

theorem mem_queries {sum : DataCrc} (hf : m.find query = some sum) : query ∈ m.queries := by
  obtain ⟨cs, hai, -⟩ := Option.bind_eq_some_iff.mp hf
  exact mem_flatMap.mpr ⟨⟨query.id, cs⟩, mem_lookup_iff.mp hai, mem_queriesOf hai hf⟩

theorem id_of_mem_queriesOf {cs : ClassMap} (hl : query ∈ queriesOf id cs) :
    query.id = id := by
  obtain ⟨e, -, hn⟩ := mem_flatMap.mp hl
  obtain ⟨v, -, rfl⟩ := mem_map.mp hn
  rfl

end ObjectMap

namespace SpiFsDomainStorage

variable {s : SpiFsDomainStorage crc} {files : StdMap DomainQuery ObjectData}

theorem lookup_unlink_mem {qs : List DomainQuery}
    (hg : files.lookup query = none ∨ query ∈ qs) :
    (unlink files qs).lookup query = none := by
  induction qs generalizing files with
  | nil => simpa [unlink] using hg
  | cons head qs ih =>
    refine ih ?_
    by_cases own : query = head
    · subst own
      exact .inl (lookup_erase query files)
    · rw [lookup_erase_ne own]
      simpa [own] using hg

theorem lookup_unlink_not_mem {qs : List DomainQuery} (hk : query ∉ qs) :
    (unlink files qs).lookup query = files.lookup query := by
  induction qs generalizing files with
  | nil => rfl
  | cons head qs ih =>
    have hl : (unlink (files.erase head) qs).lookup query =
        (files.erase head).lookup query := ih (not_mem_of_not_mem_cons hk)
    exact hl.trans (lookup_erase_ne (ne_of_not_mem_cons hk))

theorem load_data (s : SpiFsDomainStorage crc) (query : DomainQuery) :
    (s.load query).data? = if (s.objectMap.find query).isSome then s.files.lookup query
      else none := by
  unfold load find
  rcases s.objectMap.lookup query.id with _ | classes
  · rfl
  · by_cases hnl : classes.keys.isEmpty
    · have he : classes = ∅ := ext (map_eq_nil_iff.mp (isEmpty_iff.mp hnl))
      subst he
      rfl
    · simp only [hnl, Bool.false_eq_true, if_false, Option.bind_some]
      split
      · rename_i hac
        simp [hac, DomainLoad.data?]
      · rename_i vs hac
        simp only [hac, Option.bind_some]
        split
        · rename_i hav
          simp [hav, DomainLoad.data?]
        · rename_i sum hav
          rw [hav]
          rcases s.files.lookup query with _ | data <;> rfl

structure FilesRecorded (s : SpiFsDomainStorage crc) : Prop where
  inMemory : ∀ query, (s.files.lookup query).isSome → (s.objectMap.find query).isSome
  inFile : ∀ query, (s.files.lookup query).isSome → ((s.mapFile.getD ∅).find query).isSome

theorem FilesRecorded.load (hr : s.FilesRecorded) (query : DomainQuery) :
    (s.load query).data? = s.files.lookup query := by
  rw [load_data]
  split
  · rfl
  · rename_i hu
    rcases hf : s.files.lookup query with _ | data
    · rfl
    · exact absurd (hr.inMemory query (by rw [hf]; rfl)) hu

theorem write_same (os : Bool) (he : s.recorded query = crc data) :
    s.write query data os = s.enter query (s.recorded query) := by
  simp [write, saveObject, he]

theorem write_fresh (os : Bool) (hf : s.recorded query ≠ crc data) :
    s.write query data os =
      { objectMap := s.objectMap.record query (crc data)
        mapFile := some (s.objectMap.record query (crc data))
        files := if os then s.files.insert query data else s.files } := by
  cases os <;> simp [write, saveObject, enter, syncState, hf]

theorem isSome_find_record {m : ObjectMap} {other : DomainQuery} (sum : DataCrc)
    (hf : other = query ∨ (m.find other).isSome) : ((m.record query sum).find other).isSome := by
  by_cases own : other = query
  · subst own
    simp
  · rw [find_record_ne sum own]
    exact hf.resolve_left own

theorem isSome_of_insert {other : DomainQuery}
    (hf : ((files.insert query data).lookup other).isSome) :
    other = query ∨ (files.lookup other).isSome := by
  by_cases own : other = query
  · exact .inl own
  · rw [lookup_insert_ne own] at hf
    exact .inr hf

section

variable (hk : s.FilesRecorded)
include hk

theorem FilesRecorded.write (query : DomainQuery) (data : ObjectData)
    (os : Bool) : (s.write query data os).FilesRecorded := by
  by_cases same : s.recorded query = crc data
  · rw [write_same os same]
    exact ⟨fun other hf => isSome_find_record _ (.inr (hk.inMemory other hf)), hk.inFile⟩
  · rw [write_fresh os same]
    have hr (other : DomainQuery)
        (hf : ((if os then s.files.insert query data else s.files).lookup other).isSome) :
        ((s.objectMap.record query (crc data)).find other).isSome := by
      refine isSome_find_record _ ?_
      cases os with
      | false => exact .inr (hk.inMemory other hf)
      | true => exact (isSome_of_insert hf).imp_right (hk.inMemory other)
    exact ⟨hr, hr⟩

theorem files_remove (id : ObjId) (query : DomainQuery) :
    (s.remove id).files.lookup query =
      if query.id = id then none else s.files.lookup query := by
  unfold remove
  split
  · rename_i hu
    split
    · rename_i own
      subst own
      rcases hfl : s.files.lookup query with _ | data
      · rfl
      · have hf := hk.inMemory query (by rw [hfl]; rfl)
        simp [find, hu] at hf
    · rfl
  · rename_i cs hkn
    split
    · rename_i own
      subst own
      refine lookup_unlink_mem ?_
      rcases hfl : s.files.lookup query with _ | data
      · exact .inl rfl
      · obtain ⟨sum, hf⟩ :=
          Option.isSome_iff_exists.mp (hk.inMemory query (by rw [hfl]; rfl))
        exact .inr (mem_queriesOf hkn hf)
    · rename_i other
      exact lookup_unlink_not_mem fun hl => other (id_of_mem_queriesOf hl)

theorem FilesRecorded.remove (id : ObjId) : (s.remove id).FilesRecorded := by
  have hs (query : DomainQuery) (hf : ((s.remove id).files.lookup query).isSome) :
      query.id ≠ id ∧ (s.files.lookup query).isSome := by
    rw [files_remove hk] at hf
    split at hf
    · cases hf
    · exact ⟨‹_›, hf⟩
  refine ⟨fun query hf => ?_, fun query hf => ?_⟩
  all_goals
    obtain ⟨other, hf⟩ := hs query hf
    unfold SpiFsDomainStorage.remove
    split
  · rw [find_insert_ne other]
    exact hk.inMemory query hf
  · exact (find_insert_ne (m := s.objectMap) other ∅).symm ▸ hk.inMemory query hf
  · exact hk.inFile query hf
  · exact (find_insert_ne (m := s.objectMap) other ∅).symm ▸ hk.inMemory query hf

theorem files_cleanUp (query : DomainQuery) :
    s.cleanUp.files.lookup query = none := by
  refine lookup_unlink_mem ?_
  rcases hfl : s.files.lookup query with _ | data
  · exact .inl rfl
  · obtain ⟨sum, hf⟩ := Option.isSome_iff_exists.mp (hk.inMemory query (by rw [hfl]; rfl))
    exact .inr (mem_queries hf)

theorem FilesRecorded.cleanUp : s.cleanUp.FilesRecorded := by
  refine ⟨fun query hf => ?_, fun query hf => ?_⟩
  all_goals
    rw [files_cleanUp hk] at hf
    cases hf

end

theorem FilesRecorded.formatted : (formatted : SpiFsDomainStorage crc).FilesRecorded := by
  refine ⟨fun query hf => ?_, fun query hf => ?_⟩
  all_goals cases hf

end SpiFsDomainStorage

abbrev Kept := DomainQuery → Option ObjectData

/-- A store replaces the bytes kept for its query unless they have its checksum, and a
removal forgets everything about the object. -/
def keep (crc : ObjectData → DataCrc) (kept : Kept) : Operation → Kept
  | .store query data => fun other =>
    if other = query then
      match kept query with
      | none => some data
      | some old => if crc old = crc data then some old else some data
    else kept other
  | .remove id => fun other => if other.id = id then none else kept other
  | .cleanUp => fun _ => none

section

def keepStep (w : SpiFsDomainStorage crc × Kept) (operation : Operation) :
    SpiFsDomainStorage crc × Kept :=
  (apply w.1 operation, keep crc w.2 operation)

def unwritten : SpiFsDomainStorage crc × Kept :=
  (.formatted, fun _ => none)

/-- The first bytes stored for a query have a checksum other than zero, the value that the
entry of a new query starts with. -/
def FirstMarked (w : SpiFsDomainStorage crc × Kept) : Operation → Prop
  | .store query data => w.2 query = none → crc data ≠ 0
  | _ => True

instance decidableFirstMarked (w : SpiFsDomainStorage crc × Kept) :
    (operation : Operation) → Decidable (FirstMarked w operation)
  | .store query data => inferInstanceAs (Decidable (w.2 query = none → crc data ≠ 0))
  | .remove _ | .cleanUp => isTrue trivial

structure Tracks (w : SpiFsDomainStorage crc × Kept) : Prop where
  recorded : w.1.FilesRecorded
  files : ∀ query, w.1.files.lookup query = w.2 query
  sums : ∀ query, w.1.objectMap.find query = (w.2 query).map crc

variable {w : SpiFsDomainStorage crc × Kept}

section

variable (ht : Tracks w)
include ht

theorem Tracks.store_same {old : ObjectData}
    (hs : w.2 query = some old) (he : crc old = crc data) :
    Tracks (keepStep w (.store query data)) := by
  have sum : w.1.recorded query = crc data := by
    simp [SpiFsDomainStorage.recorded, ht.sums, hs, he]
  have hu : keep crc w.2 (.store query data) = w.2 := by
    funext other
    by_cases own : other = query
    · subst own
      simp [keep, hs, he]
    · simp [keep, own]
  have hw := write_same true sum
  refine ⟨ht.recorded.write query data true, ?_, ?_⟩
  all_goals
    intro other
    simp only [keepStep, apply, IDomainStorage.store, hu, hw, enter]
  · exact ht.files other
  · by_cases own : other = query
    · subst own
      simp [hs, he, sum]
    · rw [find_record_ne _ own]
      exact ht.sums other

theorem Tracks.store_fresh (hf : w.1.recorded query ≠ crc data)
    (hr : ∀ old, w.2 query = some old → crc old ≠ crc data) :
    Tracks (keepStep w (.store query data)) := by
  have hc (other : DomainQuery) : keep crc w.2 (.store query data) other =
      if other = query then some data else w.2 other := by
    rcases hs : w.2 query with _ | old
    · simp [keep, hs]
    · simp [keep, hs, hr old hs]
  have hw := write_fresh true hf
  refine ⟨ht.recorded.write query data true, ?_, ?_⟩
  all_goals
    intro other
    simp only [keepStep, apply, IDomainStorage.store, hc, hw, if_true]
    by_cases own : other = query
  · subst own
    simp
  · rw [lookup_insert_ne own, if_neg own]
    exact ht.files other
  · subst own
    simp
  · rw [find_record_ne _ own, if_neg own]
    exact ht.sums other

theorem Tracks.store (hm : FirstMarked w (.store query data)) :
    Tracks (keepStep w (.store query data)) := by
  rcases hs : w.2 query with _ | old
  · refine ht.store_fresh ?_ ?_
    · have hz : w.1.recorded query = 0 := by
        simp [SpiFsDomainStorage.recorded, ht.sums, hs]
      rw [hz]
      exact (hm hs).symm
    · intro old other
      rw [hs] at other
      cases other
  · by_cases same : crc old = crc data
    · exact ht.store_same hs same
    · refine ht.store_fresh ?_ ?_
      · simpa [SpiFsDomainStorage.recorded, ht.sums, hs] using same
      · intro other hf
        rw [hs] at hf
        cases hf
        exact same

theorem Tracks.remove (id : ObjId) : Tracks (keepStep w (.remove id)) := by
  refine ⟨ht.recorded.remove id, ?_, ?_⟩
  · intro query
    change (w.1.remove id).files.lookup query = if query.id = id then none else w.2 query
    rw [files_remove ht.recorded, ht.files]
  · intro query
    change (w.1.remove id).objectMap.find query =
      (if query.id = id then none else w.2 query).map crc
    have hf : (w.1.remove id).objectMap = w.1.objectMap.insert id ∅ := by
      unfold SpiFsDomainStorage.remove
      split <;> rfl
    rw [hf]
    split
    · rename_i own
      subst own
      exact find_insert_empty
    · rename_i other
      rw [find_insert_ne other]
      exact ht.sums query

theorem Tracks.step (o : Operation)
    (hm : FirstMarked w o) : Tracks (keepStep w o) := by
  cases o with
  | store query data => exact ht.store hm
  | remove id => exact ht.remove id
  | cleanUp =>
    refine ⟨ht.recorded.cleanUp, ?_, ?_⟩
    · intro query
      exact files_cleanUp ht.recorded query
    · intro query
      rfl

end

theorem Tracks.unwritten : Tracks (unwritten : SpiFsDomainStorage crc × Kept) :=
  ⟨.formatted, fun _ => rfl, fun _ => rfl⟩

/-- While the first bytes of every query have a checksum other than zero, a query loads the
bytes of the last store to it that changed the checksum, and nothing after a removal. -/
theorem spifs_returns_kept (history : List Operation)
    (marked : Along keepStep FirstMarked (unwritten : SpiFsDomainStorage crc × Kept) history) :
    Always keepStep (fun w : SpiFsDomainStorage crc × Kept =>
      ∀ query, (IDomainStorage.load w.1 query).data? = w.2 query) unwritten history := by
  refine Always.of_invariant (I := Tracks) (G := FirstMarked) ?_ ?_ Tracks.unwritten marked
  · intro w o ht h1
    exact ht.step o h1
  · intro w ht query
    exact (ht.recorded.load query).trans (ht.files query)

end

def lengthCrc (data : ObjectData) : DataCrc :=
  UInt32.ofNat data.length

theorem spifs_returns_kept_three :
    Always keepStep (fun w : SpiFsDomainStorage lengthCrc × Kept =>
      ∀ query, (IDomainStorage.load w.1 query).data? = w.2 query) unwritten
      [.store ⟨1, 2, 0⟩ [5], .store ⟨1, 2, 0⟩ [5, 6], .remove 1] :=
  spifs_returns_kept _ (by decide)

/-- Other bytes of the same checksum are not written: the query still loads the old ones. -/
theorem spifs_skips_same_checksum :
    IDomainStorage.load (run apply (.formatted : SpiFsDomainStorage lengthCrc)
      [.store ⟨1, 2, 0⟩ [5], .store ⟨1, 2, 0⟩ [6]]) ⟨1, 2, 0⟩ = .loaded [5] := by
  decide

end Ae.DomainStorage.SpiFs
