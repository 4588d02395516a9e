/- source: domain_storage/sync_domain_storage.{h,cpp}
   digest: A storage of two layers lists what it loads exactly while its upper layer covers
     the classes of the lower one. -/

import Ae.DomainStorage.Storage
import Ae.Lib.EventRun

set_option autoImplicit false

namespace Ae.DomainStorage.Sync
open Storage Lib.EventRun IDomainStorage

structure SyncDomainStorage (ρ ω : Type) where
  readOnly : ρ
  readWrite : ω

namespace SyncDomainStorage

variable {ρ ω : Type} [IDomainStorage ρ] [IDomainStorage ω]

def enumerate (s : SyncDomainStorage ρ ω) (id : ObjId) : List ClassId :=
  match IDomainStorage.enumerate s.readWrite id with
  | [] => IDomainStorage.enumerate s.readOnly id
  | c :: classes => c :: classes

def load (s : SyncDomainStorage ρ ω) (query : DomainQuery) : DomainLoad :=
  match IDomainStorage.load s.readWrite query with
  | .empty => IDomainStorage.load s.readOnly query
  | .removed => .removed
  | .loaded data => .loaded data

instance : IDomainStorage (SyncDomainStorage ρ ω) where
  store s query data := { s with readWrite := store s.readWrite query data }
  enumerate := enumerate
  load := load
  remove s id := { s with readWrite := remove s.readWrite id }
  cleanUp s := { s with readWrite := cleanUp s.readWrite }

end SyncDomainStorage

abbrev RamLayers := SyncDomainStorage RamDomainStorage RamDomainStorage

/-- An operation leaves no class of the lower layer that the upper one hides: a store of
one class finds every other class of the object in the upper layer already, and a removal
meets only objects unknown to the lower layer. -/
def Covers (s : RamLayers) : Operation → Prop
  | .store query _ => ∀ c ∈ s.readOnly.enumerate query.id,
      c = query.classId ∨ c ∈ s.readWrite.enumerate query.id
  | .remove id => s.readOnly.enumerate id = []
  | .cleanUp => True

section

variable {s : RamLayers} {id : ObjId}

theorem coherentAt_absent (ha : s.readWrite.state.lookup id = none) : CoherentAt s id := by
  intro c
  have hb := s.readOnly.ram_coherent id c
  have hl : IDomainStorage.enumerate s id = IDomainStorage.enumerate s.readOnly id := by
    simp only [enumerate, SyncDomainStorage.enumerate, RamDomainStorage.enumerate, ha]
  have hld (v : Version) :
      IDomainStorage.load s ⟨id, c, v⟩ = IDomainStorage.load s.readOnly ⟨id, c, v⟩ := by
    simp only [load, SyncDomainStorage.load, RamDomainStorage.load, ha]
  simp only [hl, hld]
  exact hb

theorem coherentAt_removed (hr : s.readWrite.state.lookup id = some none) :
    CoherentAt s id ↔ s.readOnly.enumerate id = [] := by
  have hl : IDomainStorage.enumerate s id = s.readOnly.enumerate id := by
    simp only [enumerate, SyncDomainStorage.enumerate, RamDomainStorage.enumerate, hr]
  have hld (c : ClassId) (v : Version) : IDomainStorage.load s ⟨id, c, v⟩ = .removed := by
    simp only [load, SyncDomainStorage.load, RamDomainStorage.load, hr]
  simp [CoherentAt, hl, hld, DomainLoad.isLoaded, List.eq_nil_iff_forall_not_mem]

theorem coherentAt_stored {cs : ClassData}
    (hs : s.readWrite.state.lookup id = some (some cs)) :
    CoherentAt s id ↔ ∀ c ∈ s.readOnly.enumerate id, c ∈ s.readWrite.enumerate id := by
  have ho : s.readWrite.enumerate id = cs.keys := by
    simp only [RamDomainStorage.enumerate, hs]
  have hl : IDomainStorage.enumerate s id = cs.keys := by
    have hsc : cs.keys ≠ [] := by
      intro hnl
      refine (s.readWrite.inhabited id cs hs).1 (AList.ext ?_)
      exact List.map_eq_nil_iff.mp hnl
    simp only [IDomainStorage.enumerate, SyncDomainStorage.enumerate, ho]
    split
    · contradiction
    · rename_i keys
      exact keys.symm
  have hld (c : ClassId) (v : Version) : (IDomainStorage.load s ⟨id, c, v⟩).isLoaded = true ↔
      (s.readWrite.load ⟨id, c, v⟩).isLoaded = true ∨
        (s.readOnly.load ⟨id, c, v⟩).isLoaded = true := by
    have hnr : s.readWrite.load ⟨id, c, v⟩ ≠ .removed := by
      simp only [RamDomainStorage.load, hs]
      split
      · exact DomainLoad.noConfusion
      · split <;> exact DomainLoad.noConfusion
    simp only [IDomainStorage.load, SyncDomainStorage.load]
    rcases hu : s.readWrite.load ⟨id, c, v⟩ with _ | _ | data
    · simp [DomainLoad.isLoaded]
    · exact absurd hu hnr
    · simp [DomainLoad.isLoaded]
  have ha := s.readWrite.ram_coherent id
  have hb := s.readOnly.ram_coherent id
  simp only [CoherentAt, IDomainStorage.enumerate, IDomainStorage.load] at ha hb
  have he (c : ClassId) : (∃ v, (IDomainStorage.load s ⟨id, c, v⟩).isLoaded = true) ↔
      c ∈ s.readWrite.enumerate id ∨ c ∈ s.readOnly.enumerate id := by
    simp only [hld, exists_or, ← ha, ← hb]
  unfold CoherentAt
  simp only [hl, he, ho]
  constructor
  · intro hc c lower
    exact (hc c).mpr (.inr lower)
  · intro hcv c
    refine ⟨.inl, ?_⟩
    rintro (hu | lower)
    · exact hu
    · exact hcv c lower

theorem coherentAt_congr {t : RamLayers} (hl : s.readOnly = t.readOnly)
    (hu : s.readWrite.state.lookup id = t.readWrite.state.lookup id) :
    CoherentAt s id ↔ CoherentAt t id := by
  have hls : IDomainStorage.enumerate s id = IDomainStorage.enumerate t id := by
    simp only [enumerate, SyncDomainStorage.enumerate, RamDomainStorage.enumerate, hl, hu]
  have hld (c : ClassId) (v : Version) :
      IDomainStorage.load s ⟨id, c, v⟩ = IDomainStorage.load t ⟨id, c, v⟩ := by
    simp only [load, SyncDomainStorage.load, RamDomainStorage.load, hl, hu]
  simp only [CoherentAt, hls, hld]

end

theorem mem_enumerate_saveData (s : RamDomainStorage) (q : DomainQuery)
    (data : ObjectData) (c : ClassId) : c ∈ (s.saveData q data).enumerate q.id ↔
      c = q.classId ∨ c ∈ s.enumerate q.id := by
  simp only [RamDomainStorage.enumerate, RamDomainStorage.lookup_saveData,
    RamDomainStorage.saved, ← AList.mem_keys, AList.mem_insert, RamDomainStorage.classesOf]
  rcases hs : s.state.lookup q.id with _ | _ | classes
  · simp
  · simp
  · simp [← AList.mem_keys]

theorem apply_coherent_iff {s : RamLayers} (operation : Operation) (hc : Coherent s) :
    Coherent (apply s operation) ↔ Covers s operation := by
  cases operation with
  | store q data =>
    have hh := coherentAt_stored (s := apply s (.store q data))
      (s.readWrite.lookup_saveData q data)
    have he (id : ObjId) (hn : id ≠ q.id) :
        CoherentAt (apply s (.store q data)) id :=
      (coherentAt_congr (s := apply s (.store q data)) (t := s) rfl
        (s.readWrite.lookup_saveData_ne q data hn)).mpr (hc id)
    have hls := mem_enumerate_saveData s.readWrite q data
    constructor
    · intro hk c hl
      exact (hls c).mp (hh.mp (hk q.id) c hl)
    · intro hcv id
      by_cases ho : id = q.id
      · subst ho
        exact hh.mpr fun c hl => (hls c).mpr (hcv c hl)
      · exact he id ho
  | remove r =>
    have hh := coherentAt_removed (s := apply s (.remove r))
      (s.readWrite.lookup_remove r)
    constructor
    · intro hk
      exact hh.mp (hk r)
    · intro hu id
      by_cases ho : id = r
      · subst ho
        exact hh.mpr hu
      · exact (coherentAt_congr (s := apply s (.remove r)) (t := s) rfl
          (s.readWrite.lookup_remove_ne ho)).mpr (hc id)
  | cleanUp => exact ⟨fun _ => trivial, fun _ id => coherentAt_absent rfl⟩

/-- Over any lower layer, a history keeps listing and loading in agreement exactly if each
of its operations covers the classes below. -/
theorem layered_coherent_iff (readOnly : RamDomainStorage) (history : List Operation) :
    Always apply Coherent (⟨readOnly, .empty⟩ : RamLayers) history ↔
      Along apply Covers (⟨readOnly, .empty⟩ : RamLayers) history := by
  refine always_iff_along (A := fun _ _ => True) ?_ ?_ along_true
  · intro s o hc _
    exact apply_coherent_iff o hc
  · intro id
    exact coherentAt_absent rfl

def preset : RamDomainStorage :=
  (RamDomainStorage.empty.saveData ⟨1, 100, 0⟩ [1]).saveData ⟨1, 101, 0⟩ [2]

/-- A store of one class hides the other one, which still loads, and a removed object is
listed with classes that no longer load. -/
theorem layered_hides_and_resurrects :
    ¬ Always apply Coherent (⟨preset, .empty⟩ : RamLayers) [.store ⟨1, 100, 0⟩ [3]] ∧
      ¬ Always apply Coherent (⟨preset, .empty⟩ : RamLayers) [.remove 1] := by
  constructor
  · rintro ⟨-, hc⟩
    have hl := (hc 1 101).mpr ⟨0, by decide⟩
    exact absurd hl (by decide)
  · rintro ⟨-, hc⟩
    obtain ⟨v, hld⟩ := (hc 1 101).mp (by decide)
    cases hld

end Ae.DomainStorage.Sync
