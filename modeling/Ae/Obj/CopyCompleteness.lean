/- source: obj/{domain.{h,cpp},obj_ptr.h}
   digest: A copy is complete exactly when nothing leads back to its original. -/

import Ae.Obj.Persistence

set_option autoImplicit false

namespace Ae.Obj.GraphCopying
open List
open DomainStorage.Storage Lib.DepthFirst MStream.VectorReader GraphLoading ObjectGraph
open Reflection Registrar Ptr.PtrBase Ptr.ReferenceTree Ptr.Temporaries

section

variable {σ : Type} [IDomainStorage σ] {C : Cloning σ} {fuel : Nat} {s : Loading}

theorem Restoring.Reread.holds_iff {x : Addr} {id : ObjId} {o : Instance}
    (hr : C.toRestoring.Reread s x id o) : Holds s x id o ↔ o.cls.Speaks C.size o.state := by
  rw [← ClassDesc.merged_eq_iff]
  constructor
  · intro hh
    have he := hr.fields.symm.trans hh.fields
    simpa using he
  · exact fun he => ⟨he ▸ hr.fields, hr.members⟩

theorem idsOf_init_row : (fs : List FieldDesc) → idsOf (Row.refs fs (Row.init fs)) = []
  | [] => rfl
  | .value _ _ :: fs => idsOf_init_row fs
  | .objPtr _ :: fs => by
    have first : idsOf [ObjectPtrBase.codec.init] = [] := by decide
    show idsOf ([ObjectPtrBase.codec.init] ++ Row.refs fs (Row.init fs)) = []
    rw [idsOf_append, first, idsOf_init_row fs, append_nil]

theorem idsOf_init : (cls : ClassDesc) → idsOf (cls.refs cls.init) = []
  | .obj => rfl
  | .derived _ _ base fields => by
    rw [ClassDesc.init, ClassDesc.refs, idsOf_append, idsOf_init base, idsOf_init_row, append_nil]

theorem Restoring.Copied.holds (hc : C.toRestoring.Copied s) (hcm : C.Complete s)
    {o : Instance} (hm : o ∈ C.objects) (ha : o.objId ≠ C.copyId)
    (hp : Leads C.next C.copyId o.objId) :
    ∃ x, C.toRestoring.Built s x o ∧ Holds s x o.objId o := by
  obtain ⟨x, new, hf, hb⟩ := hc.built o hm ha hp
  have hn : s.find C.copyId ≠ some x := by
    rw [hc.copy]
    intro he
    have ho : s.heap.objId C.domain.heap.memory.storages.length = C.copyId :=
      congrArg Instance.objId hc.reread.fields
    rw [Option.some.inj he] at ho
    exact ha (hb.objId_eq.symm.trans ho)
  obtain ⟨st, has, -, hh⟩ :=
    hcm.loaded x new (Memory.lt_of_live (find_live hf)) hn
  have he : st.objId = o.objId :=
    (congrArg Instance.objId hh.fields).symm.trans hb.objId_eq
  obtain rfl := eq_of_objId (C := C.toRestoring) has hm he
  exact ⟨x, hb, hh⟩

theorem loadIds_of_leadsBack (back : C.LeadsBack) : loadIds C.ref ≠ [] := by
  intro hn
  obtain ⟨ha, hp⟩ := back
  rcases Relation.ReflTransGen.cases_head hp with he | ⟨id, hed, -⟩
  · exact ha he.symm
  · have hi := (mem_filter.mp hed).1
    rw [Restoring.links, if_pos rfl, hn] at hi
    cases hi

theorem Restoring.Copied.complete_iff (hc : C.toRestoring.Copied s) :
    C.Complete s ↔ ¬ C.LeadsBack ∧
    C.ref.cls.Speaks C.size C.ref.state ∧ ∀ o ∈ C.objects, o.objId ≠ C.copyId →
      Leads C.next C.copyId o.objId → o.cls.Speaks C.size o.state := by
  constructor
  · intro hcm
    have ho : ¬ C.LeadsBack := by
      intro back
      obtain ⟨x, hb, hh⟩ := hc.holds hcm C.ref_stored back.1 back.2
      cases hb with
      | loaded hn _ => exact hn rfl
      | blank _ hfl =>
        -- the default values have no reference to follow
        have he : C.ref.cls.init = C.ref.state := by
          simpa using hfl.symm.trans hh.fields
        refine loadIds_of_leadsBack back ?_
        rw [loadIds, ← he]
        exact idsOf_init _
    refine ⟨ho, ?_, fun o hm ha hp => ?_⟩
    · obtain ⟨x, hf, hh, -⟩ := hcm.copied
      obtain rfl := Option.some.inj (hc.copy.symm.trans hf)
      exact hc.reread.holds_iff.mp hh
    · obtain ⟨x, hb, hh⟩ := hc.holds hcm hm ha hp
      cases hb with
      | blank he _ =>
        exact absurd ⟨fun heq => ha (he.trans heq), he ▸ hp⟩ ho
      | loaded _ hr => exact hr.holds_iff.mp hh
  · rintro ⟨ho, hsr, hs⟩
    refine ⟨⟨_, hc.copy, hc.reread.holds_iff.mpr hsr, hc.outside⟩, fun x new hl hn => ?_, hc.kept⟩
    obtain ⟨o, hm, ha, hp, hf⟩ := hc.placed x new hl hn
    obtain ⟨y, -, hf', hb⟩ := hc.built o hm ha hp
    obtain rfl := Option.some.inj (hf.symm.trans hf')
    refine ⟨o, hm, hf, ?_⟩
    cases hb with
    | blank he _ =>
      exact absurd ⟨fun heq => ha (he.trans heq), he ▸ hp⟩ ho
    | loaded _ hr => exact hr.holds_iff.mpr (hs o hm ha hp)

theorem loadCopyImpl_copied (hfr : C.domain.graph.find C.copyId = none)
    (he : C.objects.length < fuel) :
    ∃ s, loadCopyImpl C.registry C.size C.storage fuel C.ref.objId C.copyId C.domain.graph =
      some s ∧ C.toRestoring.Copied s := by
  obtain ⟨s, hr, hf⟩ := loadCopyImpl_fills (C := C.toRestoring) hfr (fun id _ => C.room id)
    ((unseen_le _).trans_lt he)
  exact ⟨_, hr, copied_of_fills hf⟩

theorem complete_returning_iff {b : Addr} (hf : C.domain.graph.find C.copyId = some b) :
    C.Complete (C.domain.graph.returning (some b)) ↔ Holds C.domain.graph b C.copyId C.ref := by
  have hr : (C.domain.graph.heap.memory.mainRefs b).toNat + 1 < 256 := by
    have ha := C.room C.copyId
    rw [holders_of_find hf] at ha
    omega
  have he := find_returning (find_live hf) hr
  have ht : target (C.domain.graph.returning (some b)) = target C.domain.graph := by
    funext p
    rw [target, he, target]
  have hm : ∀ x, (C.domain.graph.returning (some b)).heap.members x =
      C.domain.graph.heap.members x := members_hold _
  have hl : (C.domain.graph.returning (some b)).heap.memory.storages.length =
      C.domain.heap.memory.storages.length := Memory.length_modify
  constructor
  · intro hc
    obtain ⟨x, hth, hh, -⟩ := hc.copied
    obtain rfl := Option.some.inj (hf.symm.trans ((he _).symm.trans hth))
    exact ⟨hh.fields, (hm b).symm.trans (hh.members.trans (ht ▸ rfl))⟩
  · intro hh
    refine ⟨⟨b, (he _).trans hf, ⟨hh.fields, ?_⟩, outside_hold _⟩, fun x hn hls _ => ?_,
      fun x _ => ⟨rfl, hm x⟩⟩
    · rw [hm, hh.members, ht]
    · exact absurd (hl ▸ hls) (Nat.not_lt.mpr hn)

theorem loadCopyImpl_used {b : Addr} (hf : C.domain.graph.find C.copyId = some b) :
    loadCopyImpl C.registry C.size C.storage fuel C.ref.objId C.copyId C.domain.graph =
      some (C.domain.graph.returning (some b)) := by
  have hv : ¬ (C.ref.objId = 0 ∨ C.copyId = 0) :=
    not_or.mpr ⟨C.stored.valid C.ref C.ref_stored, C.copy_valid⟩
  rw [loadCopyImpl, if_neg hv, Loading.loadObj, hf]

theorem clear_of_clones (hcl : C.Clones) : C.Clear := by
  obtain ⟨s, hr, hc⟩ := hcl _ (Nat.lt_succ_self _)
  cases hf : C.domain.graph.find C.copyId with
  | some b =>
    obtain rfl := Option.some.inj ((loadCopyImpl_used hf).symm.trans hr)
    refine ⟨fun x ht => ?_, fun none => ?_, fun none => ?_, fun none => ?_⟩
    · obtain rfl := Option.some.inj (hf.symm.trans ht)
      exact (complete_returning_iff hf).mp hc
    all_goals cases hf.symm.trans none
  | none =>
    obtain ⟨s', hr', hcp⟩ := loadCopyImpl_copied hf (Nat.lt_succ_self C.objects.length)
    obtain rfl := Option.some.inj (hr.symm.trans hr')
    obtain ⟨ho, hsr, hs⟩ := hcp.complete_iff.mp hc
    refine ⟨fun x ht => ?_, fun _ => ho, fun _ => hsr, fun _ => hs⟩
    cases hf.symm.trans ht

theorem clones_of_clear (hc : C.Clear) : C.Clones := by
  intro fuel he
  cases hf : C.domain.graph.find C.copyId with
  | some b =>
    exact ⟨_, loadCopyImpl_used hf, (complete_returning_iff hf).mpr (hc.used b hf)⟩
  | none =>
    obtain ⟨s, hr, hcp⟩ := loadCopyImpl_copied hf he
    exact ⟨s, hr, hcp.complete_iff.mpr ⟨hc.onward hf, hc.speaks_ref hf, hc.speaks hf⟩⟩

/-- Whatever graph is stored and whatever is loaded already, a copy is complete exactly when its
id was not taken by anything else, no reference led back to the original while that was not
loaded, and no default member value showed through. -/
theorem copy_complete_iff_clear (C : Cloning σ) : C.Clones ↔ C.Clear :=
  ⟨clear_of_clones, clones_of_clear⟩

end

section

open Persistence

variable (back : Bool)

def backRef : ObjectPtrBase := if back then ⟨10, 0⟩ else ⟨0, unloaded⟩

def pairFirst : Instance := ⟨peerClass, 10, peerRow (some (oneByte 3)) ⟨11, 0⟩ ⟨11, 0⟩⟩

def pairSecond : Instance :=
  ⟨peerClass, 11, peerRow (some (oneByte 4)) (backRef back) ⟨0, unloaded⟩⟩

def pairObjects : List Instance := [pairFirst, pairSecond back]

def saveObject (storage : RamDomainStorage) (o : Instance) : RamDomainStorage :=
  (o.cls.records peerRegistry.objClass shortSizes o.state).foldl
    (fun storage entry => storage.saveData ⟨o.objId, entry.1, entry.2.1⟩ entry.2.2) storage

def pairStorage : RamDomainStorage :=
  (pairObjects back).foldl saveObject RamDomainStorage.empty

theorem pair_factory {cs : List ClassId}
    (hl : cs = (peerClass.chain peerRegistry.objClass).reverse) :
    peerRegistry.getMostRelatedFactory cs = some peerClass := by
  subst hl
  exact Registry.getMostRelatedFactory_eq (c := 7) rfl rfl
    (mem_reverse.mpr mem_cons_self) fun _ => mem_reverse.mp

theorem pair_stored :
    StoredObjects peerRegistry shortSizes (pairStorage back) (pairObjects back) where
  distinct := by cases back <;> decide
  valid := by
    intro o hm
    rcases mem_pair.mp hm with rfl | rfl
    · decide
    · cases back <;> decide
  factory := by
    intro o hm
    rcases mem_pair.mp hm with rfl | rfl
    · exact pair_factory (by cases back <;> rfl)
    · exact pair_factory (by cases back <;> rfl)
  recorded := by
    intro o hm
    rcases mem_pair.mp hm with rfl | rfl
    · intro e hae
      rcases mem_pair.mp hae with rfl | rfl <;> cases back <;> rfl
    · intro e hae
      rcases mem_pair.mp hae with rfl | rfl <;> cases back <;> rfl
  good := by
    intro o hm
    rcases mem_pair.mp hm with rfl | rfl
    · exact peerRow_good _ _ _
    · exact peerRow_good _ _ _
  closed := by
    intro o hm id hl
    rcases mem_pair.mp hm with rfl | rfl
    · have hi : loadIds pairFirst = [11, 11] := rfl
      rw [hi] at hl
      simp_all [pairObjects, pairSecond]
    · cases back with
      | false => cases hl
      | true =>
        have hi : loadIds (pairSecond true) = [10] := rfl
        rw [hi] at hl
        simp_all [pairObjects, pairFirst]

def noneLoaded : LoadedDomain where
  heap := noObjects
  idObjects := ∅
  known := nofun
  own := nofun

theorem references_pair (id : ObjId) : references (pairObjects back) id ≤ 3 := by
  have h1 : (loadIds pairFirst).count id ≤ 2 := count_le_length
  have h2 : (loadIds (pairSecond back)).count id ≤ 1 := by
    refine count_le_length.trans ?_
    cases back <;> decide
  show (loadIds pairFirst).count id + ((loadIds (pairSecond back)).count id + 0) ≤ 3
  omega

def pairCloning : Cloning RamDomainStorage where
  registry := peerRegistry
  size := shortSizes
  storage := pairStorage back
  objects := pairObjects back
  domain := noneLoaded
  ref := pairFirst
  copyId := 12
  stored := pair_stored back
  ref_stored := mem_cons_self
  copy_valid := by decide
  room := by
    intro id
    have few := references_pair back id
    have free : holders noneLoaded.graph id = 0 := holders_of_none rfl
    omega

theorem pair_leadsBack : (pairCloning true).LeadsBack :=
  ⟨by decide, Leads.head (show 11 ∈ [11, 11] from mem_cons_self)
    (Leads.head (show 10 ∈ [10] from mem_cons_self) (Leads.refl 10))⟩

theorem pair_onward {id : ObjId} (hp : Leads (pairCloning false).next 12 id) :
    id = 12 ∨ id = 11 := by
  refine Leads.stays (P := fun id => id = 12 ∨ id = 11) hp ?_ (.inl rfl)
  rintro n (rfl | rfl) m he
  · have hn : (pairCloning false).next 12 = [11, 11] := rfl
    rw [hn] at he
    simp_all
  · cases he

theorem pair_clear : (pairCloning false).Clear where
  used := nofun
  onward := fun _ back => by
    rcases pair_onward back.2 with same | same <;> exact absurd same (by decide)
  speaks_ref := fun _ => by repeat' constructor
  speaks := by
    intro _ o hm _ _
    rcases mem_pair.mp hm with rfl | rfl <;> repeat' constructor

/-- The object that the back reference constructs under the id of the original stays with its
default values. Without the back reference the same copy is complete. -/
theorem original_left_unloaded :
    (∃ s x, loadCopyImpl peerRegistry shortSizes (pairStorage true) 3 10 12 noneLoaded.graph =
        some s ∧ s.find 10 = some x ∧ s.heap.instances x = ⟨peerClass, 10, peerClass.init⟩) ∧
      ¬ (pairCloning true).Clones ∧ (pairCloning false).Clones := by
  have hu : (pairCloning true).domain.graph.find (pairCloning true).copyId = none := rfl
  obtain ⟨s, hr, hc⟩ := loadCopyImpl_copied hu (Nat.lt_succ_self 2)
  obtain ⟨x, -, hfn, hb⟩ := hc.built pairFirst mem_cons_self pair_leadsBack.1 pair_leadsBack.2
  refine ⟨⟨_, x, hr, hfn, ?_⟩, fun hcl => ?_, clones_of_clear pair_clear⟩
  · cases hb with
    | blank _ hf => exact hf
    | loaded hn _ => exact absurd rfl hn
  · exact (clear_of_clones hcl).onward hu pair_leadsBack

end

end Ae.Obj.GraphCopying
