/- source: domain_storage/spifs_domain_storage.{h,cpp}
   digest: When the flash storage answers alike after a restart, and repeats failed writes. -/

import Ae.DomainStorage.SpiFs

set_option autoImplicit false

namespace Ae.DomainStorage.Restart
open Storage SpiFs SpiFs.SpiFsDomainStorage Lib.EventRun ObjectMap AList

/-- What can happen to a storage. A data file may fail to open for writing. -/
inductive Event where
  | store (query : DomainQuery) (data : ObjectData) (opens : Bool)
  | remove (id : ObjId)
  | cleanUp
  | restart

/-- A storage together with the bytes, for each query, of a write that failed and that no
later write to the query has replaced. -/
structure Monitored (crc : ObjectData → DataCrc) where
  storage : SpiFsDomainStorage crc
  failed : DomainQuery → Option ObjectData

variable {crc : ObjectData → DataCrc}

namespace Monitored

def formatted : Monitored crc where
  storage := .formatted
  failed _ := none

def step (w : Monitored crc) : Event → Monitored crc
  | .store query data opens =>
    { storage := w.storage.write query data opens
      failed := fun other =>
        if other = query ∧ w.storage.recorded query ≠ crc data then
          if opens then none else some data
        else w.failed other }
  | .remove id =>
    { storage := w.storage.remove id
      failed := fun other => if other.id = id then none else w.failed other }
  | .cleanUp => { storage := w.storage.cleanUp, failed := fun _ => none }
  | .restart => { w with storage := w.storage.restart }

end Monitored

open Monitored

/-- Bytes whose write failed are in the file once they were stored again and it opened. -/
def Rewrites (w : Monitored crc) : Event → Prop
  | .store query data true => w.failed query = some data →
      (w.step (.store query data true)).storage.files.lookup query = some data
  | _ => True

def Survives (s : SpiFsDomainStorage crc) : Prop :=
  (∀ id c, c ∈ s.restart.enumerate id ↔ c ∈ s.enumerate id) ∧
    ∀ query, s.restart.load query = s.load query

/-- The bytes of a failed write are not stored again, unless the file holds them. -/
def Unrepeated (w : Monitored crc) : Event → Prop
  | .store query data true =>
      w.failed query = some data → w.storage.files.lookup query = some data
  | _ => True

/-- An operation that makes an entry in memory reaches the map file: a store for a class
not yet listed has a checksum other than the recorded one, which is zero there, and a
removal is of an object that has an entry. -/
def Synced (w : Monitored crc) : Event → Prop
  | .store query data _ => w.storage.recorded query ≠ crc data ∨
      query.classId ∈ w.storage.enumerate query.id
  | .remove id => id ∈ w.storage.objectMap
  | _ => True

section

variable {s : SpiFsDomainStorage crc} {id : ObjId} {query : DomainQuery}

def Emptied (s : SpiFsDomainStorage crc) (id : ObjId) : Prop :=
  id ∈ s.objectMap ∧ s.enumerate id = []

theorem enumerate_of_lookup {cs : ClassMap} (hf : s.objectMap.lookup id = some cs) :
    s.enumerate id = cs.keys := by
  simp only [enumerate, hf]

theorem load_removed_iff (s : SpiFsDomainStorage crc) (query : DomainQuery) :
    s.load query = .removed ↔ Emptied s query.id := by
  unfold load Emptied
  split
  · rename_i hu
    simp [lookup_eq_none.mp hu]
  · rename_i cs hk
    have hp : query.id ∈ s.objectMap := lookup_isSome.mp (by rw [hk]; rfl)
    rw [enumerate_of_lookup hk]
    by_cases none_left : cs.keys.isEmpty
    · simp [hp, List.isEmpty_iff.mp none_left]
    · have hl : cs.keys ≠ [] := fun hn => none_left (by rw [hn]; rfl)
      simp only [none_left, Bool.false_eq_true, if_false, hp, hl, and_false, iff_false]
      split
      · exact DomainLoad.noConfusion
      · split
        · exact DomainLoad.noConfusion
        · split <;> exact DomainLoad.noConfusion

theorem load_congr {a b : DomainLoad} (hr : a = .removed ↔ b = .removed)
    (data : a.data? = b.data?) : a = b := by
  cases a <;> cases b <;> simp_all [DomainLoad.data?]

theorem survives_iff (hr : s.FilesRecorded) : Survives s ↔
    ∀ id, (∀ c, c ∈ s.restart.enumerate id ↔ c ∈ s.enumerate id) ∧
      (Emptied s.restart id ↔ Emptied s id) := by
  constructor
  · rintro ⟨hls, hl⟩ id
    refine ⟨hls id, ?_⟩
    have han := hl ⟨id, 0, 0⟩
    rw [← load_removed_iff s.restart ⟨id, 0, 0⟩, ← load_removed_iff s ⟨id, 0, 0⟩, han]
  · intro ha
    refine ⟨fun id => (ha id).1, ?_⟩
    intro query
    have hag : s.restart.FilesRecorded := ⟨hr.inFile, hr.inFile⟩
    refine load_congr ?_ ?_
    · rw [load_removed_iff, load_removed_iff]
      exact (ha query.id).2
    · rw [hag.load, hr.load]
      rfl

theorem survives_of_synced (hs : s.mapFile = some s.objectMap) : Survives s := by
  have he : s.restart = s := by
    obtain ⟨om, mf, fs⟩ := s
    simp only at hs
    subst hs
    rfl
  rw [Survives, he]
  exact ⟨fun _ _ => .rfl, fun _ => rfl⟩

theorem mem_enumerate_record (s : SpiFsDomainStorage crc) (query : DomainQuery) (sum : DataCrc)
    (id : ObjId) (c : ClassId) :
    c ∈ (s.enter query sum).enumerate id ↔
      (id = query.id ∧ c = query.classId) ∨ c ∈ s.enumerate id := by
  by_cases own : id = query.id
  · subst own
    rcases hf : s.objectMap.lookup query.id with _ | classes
    · simp [enumerate, enter, record, hf]
    · simp only [enumerate, enter, record, hf, lookup_insert, ← mem_keys,
        mem_insert, Option.getD_some, true_and]
  · simp [enumerate, enter, record, own, lookup_insert_ne own]

theorem emptied_record (sum : DataCrc) (hl : query.classId ∈ s.enumerate query.id) :
    Emptied (s.enter query sum) id ↔ Emptied s id := by
  by_cases own : id = query.id
  · subst own
    have ha := (mem_enumerate_record s query sum query.id query.classId).mpr
      (.inr hl)
    constructor
    · rintro ⟨-, hn⟩
      rw [hn] at ha
      cases ha
    · rintro ⟨-, hn⟩
      rw [hn] at hl
      cases hl
  · have he : (s.objectMap.record query sum).lookup id = s.objectMap.lookup id :=
      lookup_insert_ne own
    simp only [Emptied, enumerate, enter, ← lookup_isSome, he]

theorem survives_record_iff (hr : s.FilesRecorded) (hs : Survives s) (sum : DataCrc)
    (ha : (s.enter query sum).FilesRecorded) :
    Survives (s.enter query sum) ↔ query.classId ∈ s.enumerate query.id := by
  constructor
  · rintro ⟨hls, -⟩
    refine (hs.1 query.id query.classId).mp ((hls query.id query.classId).mpr ?_)
    exact (mem_enumerate_record s query sum query.id query.classId).mpr (.inl ⟨rfl, rfl⟩)
  · intro hl
    have hb := (survives_iff hr).mp hs
    refine (survives_iff ha).mpr fun id => ⟨?_, ?_⟩
    · intro c
      rw [mem_enumerate_record]
      refine ((hb id).1 c).trans ⟨.inr, ?_⟩
      rintro (⟨rfl, rfl⟩ | known)
      · exact hl
      · exact known
    · rw [emptied_record sum hl]
      exact (hb id).2

theorem not_survives_remove (hs : Survives s) (hu : id ∉ s.objectMap) :
    ¬ Survives (s.remove id) := by
  have hm := lookup_eq_none.mpr hu
  have hr : s.remove id = { s with objectMap := s.objectMap.insert id ∅ } := by
    simp only [remove, hm]
  rw [hr]
  rintro ⟨-, hl⟩
  have hb := hs.2 ⟨id, 0, 0⟩
  have ha := hl ⟨id, 0, 0⟩
  have he : s.load ⟨id, 0, 0⟩ = .empty := by
    simp only [load, hm]
  have hg : ({ s with objectMap := s.objectMap.insert id ∅ } :
      SpiFsDomainStorage crc).load ⟨id, 0, 0⟩ = .removed := by
    simp [load]
  exact DomainLoad.noConfusion ((he.symm.trans hb.symm).trans (ha.trans hg))

end

structure Consistent (w : Monitored crc) : Prop where
  files : w.storage.FilesRecorded
  inMemory : ∀ query data, w.failed query = some data →
    w.storage.objectMap.find query = some (crc data)
  inFile : ∀ query data, w.failed query = some data →
    (w.storage.mapFile.getD ∅).find query = some (crc data)

section

variable {w : Monitored crc} {query : DomainQuery} {data : ObjectData}

section

variable (hk : Consistent w)
include hk

theorem Consistent.store_same (os : Bool)
    (he : w.storage.recorded query = crc data) : Consistent (w.step (.store query data os)) := by
  have hw := write_same (s := w.storage) os he
  have hs (other : DomainQuery) :
      (w.step (.store query data os)).failed other = w.failed other := by
    simp [step, he]
  refine ⟨hk.files.write query data os, ?_, ?_⟩
  · intro other bs hf
    rw [hs] at hf
    have hfn := hk.inMemory other bs hf
    change (w.storage.write query data os).objectMap.find other = some (crc bs)
    rw [hw]
    by_cases own : other = query
    · subst own
      simp [enter, recorded, hfn]
    · rw [enter, find_record_ne _ own]
      exact hfn
  · intro other bs hf
    rw [hs] at hf
    change ((w.storage.write query data os).mapFile.getD ∅).find other = some (crc bs)
    rw [hw]
    exact hk.inFile other bs hf

theorem Consistent.store_fresh (os : Bool)
    (hfr : w.storage.recorded query ≠ crc data) :
    Consistent (w.step (.store query data os)) := by
  have hw := write_fresh (s := w.storage) os hfr
  have hb (o : DomainQuery) (bs : ObjectData)
      (hf : (w.step (.store query data os)).failed o = some bs) :
      (w.storage.objectMap.record query (crc data)).find o = some (crc bs) := by
    by_cases own : o = query
    · subst own
      cases os with
      | false =>
        simp only [step, hfr, ne_eq, not_false_eq_true, and_self, if_true,
          Bool.false_eq_true, if_false, Option.some.injEq] at hf
        subst hf
        exact find_record _
      | true => simp [step, hfr] at hf
    · rw [find_record_ne _ own]
      simp only [step, own, false_and, if_false] at hf
      exact hk.inMemory o bs hf
  refine ⟨hk.files.write query data os, ?_, ?_⟩
  · intro o bs hf
    change (w.storage.write query data os).objectMap.find o = some (crc bs)
    rw [hw]
    exact hb o bs hf
  · intro o bs hf
    change ((w.storage.write query data os).mapFile.getD ∅).find o = some (crc bs)
    rw [hw]
    exact hb o bs hf

theorem Consistent.remove (id : ObjId) :
    Consistent (w.step (.remove id)) := by
  have hs (o : DomainQuery) (bytes : ObjectData)
      (hf : (w.step (.remove id)).failed o = some bytes) :
      o.id ≠ id ∧ w.failed o = some bytes := by
    simp only [step] at hf
    split at hf
    · cases hf
    · exact ⟨‹_›, hf⟩
  refine ⟨hk.files.remove id, ?_, ?_⟩
  all_goals
    intro o bytes hf
    obtain ⟨he, hf⟩ := hs o bytes hf
    simp only [step, SpiFsDomainStorage.remove]
    split
  · rw [find_insert_ne he]
    exact hk.inMemory o bytes hf
  · exact (find_insert_ne he ∅).trans (hk.inMemory o bytes hf)
  · exact hk.inFile o bytes hf
  · exact (find_insert_ne he ∅).trans (hk.inMemory o bytes hf)

theorem Consistent.step (e : Event) : Consistent (w.step e) := by
  cases e with
  | store query data os =>
    by_cases same : w.storage.recorded query = crc data
    · exact hk.store_same os same
    · exact hk.store_fresh os same
  | remove id => exact hk.remove id
  | cleanUp =>
    refine ⟨hk.files.cleanUp, ?_, ?_⟩
    all_goals
      intro o bs hf
      cases hf
  | restart => exact ⟨⟨hk.files.inFile, hk.files.inFile⟩, hk.inFile, hk.inFile⟩

end

theorem Consistent.formatted : Consistent (formatted : Monitored crc) := by
  refine ⟨.formatted, ?_, ?_⟩
  all_goals
    intro o bs hf
    cases hf

/-- The checksum of a failed write is recorded, so storing the same bytes again writes
nothing: the file has them exactly if it had them before. -/
theorem rewrites_iff (hk : Consistent w) (event : Event) :
    Rewrites w event ↔ Unrepeated w event := by
  rcases event with ⟨query, data, _ | _⟩ | _ | _ | _
  case store.true =>
    refine imp_congr_right fun hf => ?_
    have he : w.storage.recorded query = crc data := by
      rw [recorded, hk.inMemory query data hf]
      rfl
    simp only [step, write_same true he]
    exact .rfl
  all_goals exact .rfl

/-- One event leaves a storage that survives a restart exactly if it reaches the map file
with whatever it enters in memory. -/
theorem survives_step_iff (hkp : Consistent w) (hs : Survives w.storage)
    (event : Event) : Survives (w.step event).storage ↔ Synced w event := by
  cases event with
  | store query data os =>
    simp only [step, Synced]
    by_cases same : w.storage.recorded query = crc data
    · have ha := hkp.files.write query data os
      rw [write_same os same] at ha ⊢
      rw [survives_record_iff hkp.files hs _ ha]
      simp [same]
    · rw [write_fresh os same]
      exact ⟨fun _ => .inl same, fun _ => survives_of_synced rfl⟩
  | remove id =>
    by_cases hk : id ∈ w.storage.objectMap
    · obtain ⟨cs, hf⟩ := Option.isSome_iff_exists.mp (lookup_isSome.mpr hk)
      refine ⟨fun _ => hk, fun _ => survives_of_synced ?_⟩
      simp only [step, SpiFsDomainStorage.remove, hf]
      rfl
    · exact ⟨fun ha => absurd ha (not_survives_remove hs hk), fun hl => absurd hl hk⟩
  | cleanUp => exact ⟨fun _ => trivial, fun _ => survives_of_synced rfl⟩
  | restart => exact ⟨fun _ => trivial, fun _ => ⟨fun _ _ => .rfl, fun _ => rfl⟩⟩

end

/-- A history repeats its failed writes and could be interrupted by a restart anywhere
exactly if it never stores the bytes of a failed write again and every entry it makes in
memory reaches the map file. -/
theorem spifs_survives_iff (history : List Event) :
    (Along step Rewrites (formatted : Monitored crc) history ∧
      Always step (fun w => Survives w.storage) (formatted : Monitored crc)
        history) ↔
      Along step (fun w event => Unrepeated w event ∧ Synced w event)
        (formatted : Monitored crc) history := by
  rw [along_and]
  refine and_congr ?_ ?_
  · refine along_congr_of_invariant (I := Consistent) (G := fun _ _ => True) ?_ ?_
      Consistent.formatted along_true
    · intro w event hk _
      exact hk.step event
    · intro w event hk _
      exact rewrites_iff hk event
  · refine always_iff_along (A := fun w _ => Consistent w) ?_ ?_ ?_
    · intro w event hs hk
      exact survives_step_iff hk hs event
    · exact ⟨fun _ _ => .rfl, fun _ => rfl⟩
    · exact along_invariant (fun w event hk => hk.step event) Consistent.formatted

/-- Bytes whose first write failed stay unwritten when they are stored again; a removal of
an unknown object is forgotten by a restart. -/
theorem spifs_forgets :
    ¬ Along step Rewrites (formatted : Monitored lengthCrc)
        [.store ⟨1, 2, 0⟩ [5] false, .store ⟨1, 2, 0⟩ [5] true] ∧
      ¬ Always step (fun w => Survives w.storage)
        (formatted : Monitored lengthCrc) [.remove 1] := by
  constructor
  · rintro ⟨-, ha, -⟩
    exact absurd (ha (by decide)) (by decide)
  · rintro ⟨-, -, hl⟩
    exact absurd (hl ⟨1, 2, 0⟩) (by decide)

end Ae.DomainStorage.Restart
