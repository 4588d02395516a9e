/- source: obj/{domain.{h,cpp},obj_ptr.h}
   digest: While a copy is loaded, what it refers to is built, but its original is left blank. -/

import Ae.Obj.GraphCopying

set_option autoImplicit false

namespace Ae.Obj.GraphCopying
open Function List
open DomainStorage.Storage Lib.DepthFirst MStream.VectorReader GraphLoading GraphSaving
open ObjectGraph Reflection Registrar Ptr.PtrBase Ptr.ReferenceTree Ptr.Temporaries
open Loading Restoring.Grows

variable {σ : Type} [IDomainStorage σ] {x : Addr} {s s2 : Loading}

section

variable (C : Restoring σ)

namespace Restoring

def Resolvable (id : ObjId) : Prop :=
  id = 0 ∨ id ∈ C.ids ∨
    C.registry.getMostRelatedFactory (IDomainStorage.enumerate C.storage id) = none

/-- What is shown of the calls of `LoadRootImpl` with some fuel, while fewer than `n` objects
are still to be constructed. -/
def LoadsFrom (call : ObjId → Loading → Option Loading) (n : Nat) : Prop :=
  ∀ id s, C.Resolvable id → C.Midway s → C.Bounded s [id] → C.unseen s.constructed < n →
    ∃ s', call id s = some s' ∧ C.Grows (fun _ => False) [id] s s' ∧
      (id ≠ 0 → s'.find id ≠ none ∨ id ≠ C.copyId ∧ id ∉ C.ids) ∧
      s'.heap.memory.outside = s.heap.memory.outside ++ [if id = 0 then none else s'.find id]

/-- The object at `x` is being loaded: the members up to `done` are set, those for `refs` and
`free` more are null. -/
structure Ready (n : Nat) (x : Addr) (done : List (Option Addr)) (refs : List ObjectPtrBase)
    (free : Nat) (s : Loading) : Prop where
  midway : C.Midway s
  inside : x < s.heap.memory.storages.length
  members : s.heap.members x = done ++ List.replicate (refs.length + free) none
  resolvable : ∀ id ∈ idsOf refs, C.Resolvable id
  bound : C.Bounded s (idsOf refs)
  left : C.unseen s.constructed < n

structure Fills (x : Addr) (done : List (Option Addr)) (refs : List ObjectPtrBase) (free : Nat)
    (s s' : Loading) : Prop where
  grows : C.Grows (· = x) (idsOf refs) s s'
  members : s'.heap.members x = done ++ (refs.map (target s') ++ List.replicate free none)
  settled : ∀ p ∈ refs, C.Settled s' p
  outside : s'.heap.memory.outside = s.heap.memory.outside

end Restoring

variable {C} {n free : Nat} {done : List (Option Addr)} {ps qs : List ObjectPtrBase} {s1 : Loading}
  {call : ObjId → Loading → Option Loading}

theorem idsOf_append : idsOf (ps ++ qs) = idsOf ps ++ idsOf qs := by
  simp [idsOf]

theorem Restoring.Ready.first (hr : C.Ready n x done (ps ++ qs) free s) :
    C.Ready n x done ps (qs.length + free) s where
  midway := hr.midway
  inside := hr.inside
  members := by rw [hr.members, length_append, add_assoc]
  resolvable := fun id hm => hr.resolvable id (idsOf_append ▸ mem_append_left _ hm)
  bound := Restoring.Bounded.left (idsOf_append ▸ hr.bound)
  left := hr.left

theorem Restoring.Ready.rest (hr : C.Ready n x done (ps ++ qs) free s)
    (hf : C.Fills x done ps (qs.length + free) s s1) :
    C.Ready n x (done ++ ps.map (target s1)) qs free s1 where
  midway := hf.grows.midway
  inside := hr.inside.trans_le hf.grows.length
  members := by rw [hf.members, append_assoc]
  resolvable := fun id hm => hr.resolvable id (idsOf_append ▸ mem_append_right _ hm)
  bound := hf.grows.bounded (idsOf_append ▸ hr.bound)
  left := (weight_mono hf.grows.searched.grows).trans_lt hr.left

theorem Restoring.Fills.append (hi : x < s.heap.memory.storages.length)
    (ho : C.Fills x done ps (qs.length + free) s s1)
    (ht : C.Fills x (done ++ ps.map (target s1)) qs free s1 s2) :
    C.Fills x done (ps ++ qs) free s s2 where
  grows := by
    rw [idsOf_append]
    refine ho.grows.append ?_ ht.grows
    rintro y rfl
    exact hi
  members := by
    have hs : ps.map (target s1) = ps.map (target s2) := map_congr_left fun p hm =>
      (ht.grows.target_eq ho.grows.midway (ho.settled p hm)).symm
    rw [ht.members, hs, map_append]
    simp only [append_assoc]
  settled := by
    intro p hm
    rcases mem_append.mp hm with he | late
    · exact ht.grows.settled ho.grows.midway (ho.settled p he)
    · exact ht.settled p late
  outside := ht.outside.trans ho.outside

theorem loadRefs_fills (hc : C.LoadsFrom call n) {p : ObjectPtrBase} (too : Bool)
    (hr : C.Ready n x done [p] free s) :
    ∃ s', loadRefs call x done.length s (.objPtr too) p = some s' ∧
      C.Fills x done [p] free s s' := by
  have row : s.heap.members x = done ++ none :: replicate free none := by
    rw [hr.members, length_singleton, add_comm, replicate_succ]
  by_cases loads : p.Loads
  · have ho : idsOf [p] = [p.id] := by simp [idsOf, loads]
    have hb := hr.bound
    rw [ho] at hb
    obtain ⟨s1, run, hg, hs, outside⟩ := hc p.id s
      (hr.resolvable p.id (ho ▸ mem_singleton_self _)) hr.midway hb hr.left
    have he := hg.members x hr.inside id
    have hn : (s1.heap.members x)[done.length]? = some none := by
      rw [he, row]
      simp
    have hv : (if p.id = 0 then none else s1.find p.id) = target s1 p := by
      by_cases zero : p.id = 0
      · simp [target, zero]
      · simp [target, zero, loads]
    rw [hv] at outside
    have hw : C.Grows (· = x) (idsOf [p]) s s1 := ho ▸ hg.widen fun _ => False.elim
    have hth := hr.inside.trans_le hg.length
    have ht : target (s1.setMemory { s1.heap.memory.write (.member x done.length)
        (target s1 p) with outside := s.heap.memory.outside }) p = target s1 p := by
      rw [target, find_moved, target]
    refine ⟨_, ?_, hw.write rfl hr.inside done.length (target s1 p) s.heap.memory.outside,
      ?_, fun q hm => ?_, rfl⟩
    · rw [loadRefs, if_pos loads, loadPtr, run, Option.map_some, setMemory_moved outside hn]
    · rw [members_moved hth, he, row, map_singleton, ht]
      simp
    · obtain rfl := mem_singleton.mp hm
      intro _ hvl
      rw [find_moved]
      exact hs hvl
  · have hnl : idsOf [p] = [] := by simp [idsOf, loads]
    refine ⟨s, if_neg loads, hnl ▸ nil hr.midway, ?_, fun q hm => ?_, rfl⟩
    · simp [row, target, loads]
    · obtain rfl := mem_singleton.mp hm
      exact fun hl => absurd hl loads

theorem loadFields_fills (hcl : C.LoadsFrom call n) :
    (fs : List FieldDesc) → (row : Row fs) →
      ∀ (done : List (Option Addr)) (s : Loading) (r : Reader) (ys : List UInt8),
      Row.Good C.size fs row → r.rest = Row.bytes C.size fs row ++ ys →
      C.Ready n x done (Row.refs fs row) free s →
      ∃ s', loadFields call C.size x fs (Row.init fs) done.length r s =
          some (Row.merged C.size fs row, s') ∧
        C.Fills x done (Row.refs fs row) free s s'
  | [], _, done, s, _, _, _, _, ready => by
    refine ⟨s, rfl, nil ready.midway, ?_, fun p hm => ?_, rfl⟩
    · rw [ready.members]
      simp [Row.refs]
    · cases hm
  | .value type init :: fs, (v, row), done, s, r, ys, good, bytes, ready => by
    have bytes : r.rest =
        (type.codec C.size).put v ++ (Row.bytes C.size fs row ++ ys) := by
      rw [bytes, ← append_assoc]
      rfl
    obtain ⟨reader₁, get, hc⟩ := (FieldDesc.decodes C.size (.value type init)).leaves v init
      good.1 r _ bytes
    obtain ⟨s', run, filled⟩ := loadFields_fills hcl fs row done s reader₁ ys good.2
      (hc.rest bytes) ready
    exact ⟨s', loadFields_cons get rfl run, filled⟩
  | .objPtr toObj :: fs, ((p : ObjectPtrBase), row), done, s, r, ys, good, bytes,
      ready => by
    have bytes : r.rest =
        ObjectPtrBase.codec.put p ++ (Row.bytes C.size fs row ++ ys) := by
      rw [bytes, ← append_assoc]
      rfl
    obtain ⟨reader₁, get, hc⟩ := (FieldDesc.decodes C.size (.objPtr toObj)).leaves p
      ObjectPtrBase.codec.init good.1 r _ bytes
    have both : C.Ready n x done ([p] ++ Row.refs fs row) free s := ready
    obtain ⟨s1, step, ho⟩ := loadRefs_fills hcl toObj both.first
    obtain ⟨s', run, ht⟩ := loadFields_fills hcl fs row _ s1 reader₁ ys good.2
      (hc.rest bytes) (both.rest ho)
    rw [length_append] at run
    exact ⟨s', loadFields_cons get step run, ho.append ready.inside ht⟩

theorem Restoring.Midway.visit (hm : C.Midway s) {id : ObjId}
    (hmn : id = C.ref.objId ∨ id ∈ s.constructed) (c : ClassId) : C.Midway (s.visit c id) :=
  { hm with
    visited := fun d other mem => by
      rcases Finset.mem_insert.mp mem with he | old
      · rwa [(Prod.mk.inj he).2]
      · exact hm.visited d other old
    blank := Finset.mem_insert_of_mem hm.blank }

theorem Restoring.Grows.of_visit {but : Addr → Prop} {ss : List ObjId} {c : ClassId}
    {id : ObjId} (hg : C.Grows but ss (s.visit c id) s1) : C.Grows but ss s s1 :=
  ⟨hg.midway, hg.searched, hg.length, hg.instances, hg.members, hg.kept,
    hg.built, hg.placed, hg.balance⟩

theorem loadClass_fills (hc : C.LoadsFrom call n) {id : ObjId} :
    (cls : ClassDesc) → (st : cls.State) → ∀ (free : Nat) (s : Loading),
      (cls.chain C.registry.objClass).Nodup →
      (∀ c ∈ cls.chain C.registry.objClass, (c, id) ∉ s.visited) →
      Recorded C.storage id (cls.records C.registry.objClass C.size st) →
      cls.Good C.size st → (id = C.ref.objId ∨ id ∈ s.constructed) →
      C.Ready n x [] (cls.refs st) free (s.visit (cls.classId C.registry.objClass) id) →
      ∃ s', loadClass call C.registry C.size C.storage x id cls cls.init s =
          some (cls.merged C.size st, s') ∧ C.Fills x [] (cls.refs st) free s s'
  | .obj, _, free, s, _, unvisited, _, _, _, ready => by
    have nothing : C.Grows (· = x) [] (s.visit C.registry.objClass id) _ :=
      nil ready.midway
    refine ⟨_, if_neg (unvisited _ mem_cons_self), nothing.of_visit, ?_, fun p hm => ?_, rfl⟩
    · refine ready.members.trans ?_
      simp [ClassDesc.refs]
    · cases hm
  | .derived c v base fields, (st, row), free, s, distinct, unvisited, recorded, good, mine,
      ready => by
    obtain ⟨ha, distinct_base⟩ := nodup_cons.mp distinct
    have both : C.Ready n x [] (base.refs st ++ Row.refs fields row) free (s.visit c id) := ready
    have unvisited_base : ∀ d ∈ base.chain C.registry.objClass,
        (d, id) ∉ (s.visit c id).visited := by
      intro d hm visited
      rcases Finset.mem_insert.mp visited with he | old
      · exact ha ((Prod.mk.inj he).1 ▸ hm)
      · exact unvisited d (mem_cons_of_mem c hm) old
    have ready_base : C.Ready n x [] (base.refs st) ((Row.refs fields row).length + free)
        ((s.visit c id).visit (base.classId C.registry.objClass) id) :=
      { both.first with midway := both.midway.visit mine _ }
    obtain ⟨s1, run1, ho⟩ := loadClass_fills hc base st _ (s.visit c id) distinct_base
      unvisited_base (fun entry hm => recorded entry (mem_cons_of_mem _ hm)) good.1
      mine ready_base
    obtain ⟨s2, run2, ht⟩ := loadFields_fills hc fields row _ s1 _ _ good.2
      (getReader_rest (recorded _ mem_cons_self)) (both.rest ho)
    have counted : ([] ++ (base.refs st).map (target s1)).length = base.refCount := by
      rw [nil_append, length_map, base.length_refs]
    rw [counted] at run2
    have whole := ho.append both.inside ht
    refine ⟨s2, ?_, whole.grows.of_visit, whole.members, whole.settled, whole.outside⟩
    simp only [loadClass, ClassDesc.init, if_neg (unvisited c mem_cons_self), run1,
      Option.bind_some, run2, Option.map_some]
    rfl

end

section

variable {C : Restoring σ} {y : Addr} {o other : Instance}

theorem eq_of_objId (hm : o ∈ C.objects) (hm' : other ∈ C.objects)
    (he : o.objId = other.objId) : o = other :=
  inj_on_of_nodup_map C.stored.distinct hm hm' he

theorem mem_ids (hm : o ∈ C.objects) : o.objId ∈ C.ids := mem_map_of_mem hm

theorem links_of_stored (hm : o ∈ C.objects) (ha : o.objId ≠ C.copyId) :
    C.links o.objId = if o.objId = C.ref.objId then [] else loadIds o := by
  have hal : C.objects.filter (fun a => a.objId = o.objId) = [o] := by
    have hd := (Nodup.of_map _ C.stored.distinct).filter fun a => a.objId = o.objId
    refine perm_singleton.mp ((perm_ext_iff_of_nodup hd (nodup_singleton o)).mpr fun a => ?_)
    rw [mem_filter, decide_eq_true_eq, mem_singleton]
    exact ⟨fun hi => eq_of_objId hi.1 hm hi.2, fun he => ⟨he ▸ hm, congrArg Instance.objId he⟩⟩
  rw [Restoring.links, if_neg ha, hal, flatMap_singleton]

theorem Restoring.Midway.setInstance (hm : C.Midway s) {i : Instance}
    (he : i.objId = s.heap.objId x) : C.Midway (s.setInstance x i) :=
  { hm with
    own := fun id a hf => by
      show (Function.update s.heap.instances x i a).objId = id
      by_cases here : a = x
      · subst here
        rw [update_self, he]
        exact hm.own id a hf
      · rw [update_of_ne here]
        exact hm.own id a hf }

theorem Restoring.Built.setInstance (hb : C.Built s y o) (ha : y ≠ x) (i : Instance) :
    C.Built (s.setInstance x i) y o := by
  cases hb with
  | blank he hf => exact .blank he ((update_of_ne ha _ _).trans hf)
  | loaded hd hr =>
    exact .loaded hd ⟨(update_of_ne ha _ _).trans hr.fields, hr.members, hr.settled⟩

theorem Restoring.Grows.whole (hmd : C.Midway s) (mem : o ∈ C.objects)
    (hfr : s.find o.objId = none) (hae : x = s.heap.memory.storages.length)
    (hg : C.Grows (· = x) (C.links o.objId) (s.constructObj o.cls o.objId) s2)
    {i : Instance} (hs : i.objId = o.objId) (hbl : C.Built (s2.setInstance x i) x o) :
    C.Grows (fun _ => False) [o.objId] s (s2.setInstance x i) := by
  have hln : (s.constructObj o.cls o.objId).heap.memory.storages.length =
      s.heap.memory.storages.length + 1 := length_append
  obtain ⟨ha, hu⟩ := hmd.fresh hfr
  have hun : C.Unloaded o.objId := ⟨ha, mem_ids mem⟩
  have hap : o.objId ≠ C.copyId := fun he => hu (he ▸ hmd.copy)
  have hlg : s.heap.memory.storages.length ≤
      (s.constructObj o.cls o.objId).heap.memory.storages.length := hln ▸ Nat.le_succ _
  have hi : x < (s.constructObj o.cls o.objId).heap.memory.storages.length := by
    rw [hln, hae]
    exact Nat.lt_succ_self _
  have hmn : (s.constructObj o.cls o.objId).find o.objId = some x := by
    rw [find_construct o.cls hmd.known, if_pos rfl, hae]
  have ho : ∀ y, y < s.heap.memory.storages.length → y ≠ x := fun y hl he =>
    lt_irrefl _ (hae ▸ he ▸ hl)
  refine ⟨hg.midway.setInstance ?_, ?_, ?_, fun y hl => ?_, fun y hl _ => ?_,
    fun id a hf => ?_, fun a haa hm hn => ?_, fun y hn hl => ?_, fun id => ?_⟩
  · exact hs.trans (hg.midway.own _ x (hg.kept _ x hmn)).symm
  · rw [filter_singleton, decide_eq_true hun]
    exact Searched.descend hu hg.searched Searched.nil
  · exact hlg.trans hg.length
  · show Function.update s2.heap.instances x i y = _
    rw [update_of_ne (ho y hl), hg.instances y (hln ▸ Nat.lt_succ_of_lt hl)]
    exact update_of_ne (hae ▸ ho y hl) _ _
  · refine (hg.members y (hln ▸ Nat.lt_succ_of_lt hl) (ho y hl)).trans ?_
    exact congrArg PtrStorage.members ((storage_construct y).trans (if_neg (hae ▸ ho y hl)))
  · refine hg.kept id a ?_
    rw [find_construct o.cls hmd.known, if_neg, hf]
    rintro rfl
    rw [hfr] at hf
    cases hf
  · by_cases he : a.objId = o.objId
    · obtain rfl := eq_of_objId haa mem he
      exact ⟨x, hae.ge, hg.kept _ x hmn, hbl⟩
    · obtain ⟨y, hlt, hf, hw⟩ := hg.built a haa hm (by
        show a.objId ∉ s.constructed ++ [o.objId]
        simp [hn, he])
      have hd : y ≠ x := fun hh => Nat.not_lt.mpr hlt (hh ▸ hi)
      exact ⟨y, hlg.trans hlt, hf, hw.setInstance hd i⟩
  · by_cases hh : y = x
    · subst hh
      exact ⟨o.objId, hg.searched.grows.subset (mem_append_right _ (by simp)), hu,
        hg.kept _ y hmn⟩
    · have hlt : (s.constructObj o.cls o.objId).heap.memory.storages.length ≤ y := by
        rw [hln]
        exact hn.lt_of_ne fun he => hh (he ▸ hae.symm)
      obtain ⟨id, hm, hui, hf⟩ := hg.placed y hlt hl
      exact ⟨id, hm, fun hbf => hui (mem_append_left _ hbf), hf⟩
  · have hb := hg.balance id
    rw [holders_construct o.cls hmd.known hfr, links_of_stored mem hap] at hb
    have hl : C.pending (s.constructed ++ [o.objId]) id +
        (if o.objId = C.ref.objId then 0 else (loadIds o).count id) ≤
          C.pending s.constructed id := weight_append mem ha hu
    show holders s2 id + C.pending s2.constructed id ≤ _
    have hc : (s.constructObj o.cls o.objId).constructed =
      s.constructed ++ [o.objId] := rfl
    rw [hc] at hb
    split at hl
    · next he =>
      rw [if_pos he, count_nil] at hb
      omega
    · next hd =>
      rw [if_neg hd] at hb
      omega

theorem chain_nodup_of_factory {r : Registry} {cs : List ClassId} {cls : ClassDesc}
    (hf : r.getMostRelatedFactory cs = some cls) : (cls.chain r.objClass).Nodup := by
  rw [Registry.getMostRelatedFactory] at hf
  split at hf
  · cases hf
  · obtain ⟨e, hfn, rfl⟩ := Option.map_eq_some_iff.mp hf
    exact Registry.chain_nodup (AList.mem_lookup_iff.mpr (mem_of_find?_eq_some hfn))

theorem loadClass_visited {call : ObjId → Loading → Option Loading} {r : Registry}
    {size : SizeType} {sr : σ} {id : ObjId} {cls : ClassDesc} {st : cls.State}
    (hm : (cls.classId r.objClass, id) ∈ s.visited) :
    loadClass call r size sr x id cls st s = some (st, s) := by
  cases cls with
  | obj | derived c v base fs => exact if_pos hm

theorem resolvable_of_mem (hm : o ∈ C.objects) {id : ObjId} (hl : id ∈ loadIds o) :
    C.Resolvable id := C.stored.closed o hm id hl

theorem members_construct (cls : ClassDesc) (id : ObjId) (st : cls.State) :
    (s.constructObj cls id).heap.members s.heap.memory.storages.length =
      [] ++ replicate ((cls.refs st).length + 0) none := by
  rw [cls.length_refs]
  exact congrArg PtrStorage.members ((storage_construct _).trans (if_pos rfl))

theorem construct_ready {n : Nat} (hm : C.Midway s) (mem : o ∈ C.objects)
    (hf : s.find o.objId = none) (other : o.objId ≠ C.ref.objId)
    (hb : C.Bounded s [o.objId]) (hlf : C.unseen s.constructed < n + 1) :
    C.Ready n s.heap.memory.storages.length [] (o.cls.refs o.state) 0
      ((s.constructObj o.cls o.objId).visit (o.cls.classId C.registry.objClass) o.objId) := by
  obtain ⟨ha, hu⟩ := hm.fresh hf
  refine ⟨(hm.construct mem).visit (.inr (mem_append_right _ (by simp))) _, ?_,
    members_construct o.cls o.objId o.state, fun id hld => resolvable_of_mem mem hld,
    fun id hv => ?_, ?_⟩
  · show _ < (s.heap.memory.storages ++ [_]).length
    simp
  · have hbf := hb id hv
    have hl : C.pending (s.constructed ++ [o.objId]) id +
        (if o.objId = C.ref.objId then 0 else (loadIds o).count id) ≤
          C.pending s.constructed id := weight_append mem ha hu
    rw [if_neg other] at hl
    show holders (s.constructObj o.cls o.objId) id + (loadIds o).count id +
      C.pending (s.constructed ++ [o.objId]) id < 256
    rw [holders_construct o.cls hm.known hf]
    omega
  · have hl : C.unseen (s.constructed ++ [o.objId]) + 1 ≤ C.unseen s.constructed :=
      weight_append mem ha hu
    show C.unseen (s.constructed ++ [o.objId]) < n
    omega

theorem loadClass_builds {n : Nat} {call : ObjId → Loading → Option Loading}
    (hc : C.LoadsFrom call n) (mem : o ∈ C.objects) (hm : C.Midway s)
    (hfr : s.find o.objId = none) (hbn : C.Bounded s [o.objId])
    (hl : C.unseen s.constructed < n + 1) (hae : x = s.heap.memory.storages.length) :
    ∃ st s2, loadClass call C.registry C.size C.storage x o.objId o.cls o.cls.init
        (s.constructObj o.cls o.objId) = some (st, s2) ∧
      C.Grows (· = x) (C.links o.objId) (s.constructObj o.cls o.objId) s2 ∧
      C.Built (s2.setInstance x ⟨o.cls, o.objId, st⟩) x o ∧
      s2.heap.memory.outside = s.heap.memory.outside ++ [some x] := by
  obtain ⟨-, hu⟩ := hm.fresh hfr
  have ha : o.objId ≠ C.copyId := fun he => hu (he ▸ hm.copy)
  have ho : (s.constructObj o.cls o.objId).heap.memory.outside =
      s.heap.memory.outside ++ [some x] := hae ▸ rfl
  rw [links_of_stored mem ha]
  by_cases hb : o.objId = C.ref.objId
  · -- the class was marked under this id when the load of the copy began
    have hmr : (o.cls.classId C.registry.objClass, o.objId) ∈
        (s.constructObj o.cls o.objId).visited := by
      obtain rfl := eq_of_objId mem C.ref_stored hb
      exact hm.blank
    refine ⟨o.cls.init, _, loadClass_visited hmr, ?_, .blank hb ?_, ho⟩
    · rw [if_pos hb]
      exact nil (hm.construct mem)
    · exact update_self _ _ _
  · have hun : ∀ c ∈ o.cls.chain C.registry.objClass,
        (c, o.objId) ∉ (s.constructObj o.cls o.objId).visited := fun c _ hv =>
      (hm.visited c _ hv).elim hb hu
    obtain ⟨s2, hr, hf⟩ := loadClass_fills hc o.cls o.state 0 _
      (chain_nodup_of_factory (C.stored.factory o mem)) hun
      (C.stored.recorded o mem) (C.stored.good o mem)
      (.inr (mem_append_right _ (mem_singleton_self _)))
      (construct_ready hm mem hfr hb hbn hl)
    subst hae
    refine ⟨_, s2, hr, ?_, .loaded hb ⟨?_, ?_, hf.settled⟩, hf.outside.trans ho⟩
    · rw [if_neg hb]
      exact hf.grows
    · exact update_self _ _ _
    · refine hf.members.trans ?_
      rw [nil_append, replicate_zero, append_nil]
      rfl

theorem loadRootImpl_constructs {fuel : Nat}
    (hc : C.LoadsFrom (loadRootImpl C.registry C.size C.storage fuel) fuel)
    (mem : o ∈ C.objects) (hm : C.Midway s) (hf : s.find o.objId = none)
    (hbn : C.Bounded s [o.objId]) (hl : C.unseen s.constructed < fuel + 1) :
    ∃ s', loadRootImpl C.registry C.size C.storage (fuel + 1) o.objId s = some s' ∧
      C.Grows (fun _ => False) [o.objId] s s' ∧ s'.find o.objId ≠ none ∧
      s'.heap.memory.outside = s.heap.memory.outside ++ [s'.find o.objId] := by
  obtain ⟨st, s2, hr, hg, hb, ho⟩ :=
    loadClass_builds hc mem hm hf hbn hl rfl
  have hmn : (s.constructObj o.cls o.objId).find o.objId = some s.heap.memory.storages.length := by
    rw [find_construct o.cls hm.known, if_pos rfl]
  have hfn : s2.find o.objId = some s.heap.memory.storages.length := hg.kept _ _ hmn
  have he : (⟨o.cls, o.objId, st⟩ : Instance).objId = o.objId := rfl
  refine ⟨_, ?_, whole hm mem hf rfl hg he hb, ?_, ?_⟩
  · simp only [loadRootImpl, loadObj, if_neg (C.stored.valid o mem), hf,
      C.stored.factory o mem, hr, Option.map_some]
  · exact hfn ▸ Option.some_ne_none _
  · exact ho.trans (congrArg (fun v => s.heap.memory.outside ++ [v]) hfn.symm)

theorem loadRootImpl_loads (fuel : Nat) :
    C.LoadsFrom (loadRootImpl C.registry C.size C.storage fuel) fuel := by
  induction fuel with
  | zero => exact fun id s _ _ _ hl => absurd hl (Nat.not_lt_zero _)
  | succ fuel ih =>
    intro id s hr hm hb hl
    by_cases zero : id = 0
    · have hfr : id ∉ C.ids := by
        intro mem
        obtain ⟨o, hs, he⟩ := mem_map.mp mem
        exact C.stored.valid o hs (he.trans zero)
      refine ⟨_, if_pos zero, hm.null hfr, fun hv => absurd zero hv, ?_⟩
      rw [if_pos zero]
      exact outside_hold _
    · simp only [if_neg zero]
      cases hf : s.find id with
      | some b =>
        have hg : C.Grows (fun _ => False) [id] s (s.returning (some b)) :=
          hm.lock zero hf hb
        have ht := hg.kept id b hf
        refine ⟨_, ?_, hg, fun _ => .inl (Option.ne_none_iff_exists'.mpr ⟨b, ht⟩), ?_⟩
        · simp only [loadRootImpl, loadObj, if_neg zero, hf]
        · rw [ht]
          exact outside_hold _
      | none =>
        by_cases mem : id ∈ C.ids
        · obtain ⟨o, hs, rfl⟩ := mem_map.mp mem
          obtain ⟨s', run, hg, ht, ho⟩ :=
            loadRootImpl_constructs ih hs hm hf hb hl
          exact ⟨s', run, hg, fun _ => .inl ht, ho⟩
        · have hfc := (hr.resolve_left zero).resolve_left mem
          have hap : id ≠ C.copyId := by
            rintro rfl
            exact (hm.found _).mpr (.inr hm.copy) hf
          refine ⟨s.returning none, ?_, hm.null mem, fun _ => .inr ⟨hap, mem⟩, ?_⟩
          · simp only [loadRootImpl, loadObj, if_neg zero, hf, hfc]
          · have ha : (s.returning none).find id = none := hf
            rw [ha]
            exact outside_hold _

end

section

variable (C : Restoring σ)

def Restoring.opened : Loading := C.domain.graph.constructObj C.ref.cls C.copyId

variable {C} {fuel : Nat}

theorem loadCopyImpl_self {r : Registry} {size : SizeType} {st : σ} {id : ObjId} :
    loadCopyImpl r size st fuel id id s = loadRootImpl r size st (fuel + 1) id s :=
  if_congr (or_self_iff) rfl rfl

theorem own_graph (id : ObjId) (a : Addr) (hf : C.domain.graph.find id = some a) :
    C.domain.graph.heap.objId a = id :=
  C.domain.own id a (find_eq_some.mp hf).1 (find_eq_some.mp hf).2

theorem midway_opened :
    C.Midway (C.opened.visit (C.ref.cls.classId C.registry.objClass) C.ref.objId) where
  known := known_construct C.ref.cls C.domain.known
  own := own_construct C.ref.cls C.domain.known own_graph
  found := by
    intro id
    show C.opened.find id ≠ none ↔ _ ∨ id ∈ [C.copyId]
    rw [Restoring.opened, find_construct C.ref.cls C.domain.known, mem_singleton]
    by_cases he : id = C.copyId
    · simp [he]
    · rw [if_neg he]
      simp [he]
  within := fun id hm => .inl (mem_singleton.mp hm)
  copy := mem_singleton_self _
  visited := by
    intro c id hm
    rcases Finset.mem_insert.mp hm with he | old
    · exact .inl (Prod.mk.inj he).2
    · exact absurd old (Finset.notMem_empty _)
  blank := Finset.mem_insert_self _ _

theorem ready_opened (hf : C.domain.graph.find C.copyId = none)
    (hr : ∀ id ≠ 0, holders C.domain.graph id + references C.objects id < 255)
    (hlf : C.unseen [C.copyId] < fuel) :
    C.Ready fuel C.domain.heap.memory.storages.length [] (C.ref.cls.refs C.ref.state) 0
      (C.opened.visit (C.ref.cls.classId C.registry.objClass) C.ref.objId) := by
  refine ⟨midway_opened, ?_, members_construct C.ref.cls C.copyId C.ref.state,
    fun id hl => resolvable_of_mem C.ref_stored hl, fun id hv => ?_, hlf⟩
  · show _ < (C.domain.heap.memory.storages ++ [_]).length
    simp
  · have hr := hr id hv
    have hls := pending_le (C := C) [C.copyId] id
    have ho : [C.copyId].count id ≤ 1 := count_le_length
    show holders C.opened id + (loadIds C.ref).count id + C.pending [C.copyId] id < 256
    rw [Restoring.opened, holders_construct C.ref.cls C.domain.known hf]
    omega

theorem loadCopyImpl_fills (hfr : C.domain.graph.find C.copyId = none)
    (hr : ∀ id ≠ 0, holders C.domain.graph id + references C.objects id < 255)
    (hl : C.unseen [C.copyId] < fuel) :
    ∃ s, loadCopyImpl C.registry C.size C.storage fuel C.ref.objId C.copyId C.domain.graph =
        some (s.setInstance C.domain.heap.memory.storages.length
          ⟨C.ref.cls, C.copyId, C.ref.cls.merged C.size C.ref.state⟩) ∧
      C.Fills C.domain.heap.memory.storages.length [] (C.ref.cls.refs C.ref.state) 0
        C.opened s := by
  have hf := C.stored.factory C.ref C.ref_stored
  obtain ⟨s, run, hfl⟩ := loadClass_fills (loadRootImpl_loads fuel) C.ref.cls C.ref.state 0
    C.opened (chain_nodup_of_factory hf) (fun _ _ => Finset.notMem_empty _)
    (C.stored.recorded C.ref C.ref_stored) (C.stored.good C.ref C.ref_stored) (.inl rfl)
    (ready_opened hfr hr hl)
  refine ⟨s, ?_, hfl⟩
  have hv : ¬ (C.ref.objId = 0 ∨ C.copyId = 0) :=
    not_or.mpr ⟨C.stored.valid C.ref C.ref_stored, C.copy_valid⟩
  rw [loadCopyImpl, if_neg hv, loadObj, hfr]
  simp only [hf]
  exact congrArg _ run

variable (C) in
structure Restoring.Copied (s : Loading) : Prop where
  copy : s.find C.copyId = some C.domain.heap.memory.storages.length
  searched : Searched C.next (C.next C.copyId) [C.copyId] s.constructed
  reread : C.Reread s C.domain.heap.memory.storages.length C.copyId C.ref
  outside : s.heap.memory.outside =
    C.domain.heap.memory.outside ++ [some C.domain.heap.memory.storages.length]
  built : ∀ o ∈ C.objects, o.objId ≠ C.copyId → Leads C.next C.copyId o.objId →
    ∃ x, C.domain.heap.memory.storages.length ≤ x ∧ s.find o.objId = some x ∧ C.Built s x o
  placed : ∀ x, C.domain.heap.memory.storages.length ≤ x → x < s.heap.memory.storages.length →
    s.find C.copyId ≠ some x → ∃ o ∈ C.objects, o.objId ≠ C.copyId ∧
      Leads C.next C.copyId o.objId ∧ s.find o.objId = some x
  kept : ∀ x < C.domain.heap.memory.storages.length,
    s.heap.instances x = C.domain.heap.instances x ∧ s.heap.members x = C.domain.heap.members x

theorem copied_of_fills (hf : C.Fills C.domain.heap.memory.storages.length []
      (C.ref.cls.refs C.ref.state) 0 C.opened s) :
    C.Copied (s.setInstance C.domain.heap.memory.storages.length
      ⟨C.ref.cls, C.copyId, C.ref.cls.merged C.size C.ref.state⟩) := by
  have hg := hf.grows
  have hln : C.opened.heap.memory.storages.length =
      C.domain.heap.memory.storages.length + 1 := length_append
  have hmn : s.find C.copyId = some C.domain.heap.memory.storages.length := by
    refine hg.kept _ _ ?_
    rw [Restoring.opened, find_construct C.ref.cls C.domain.known, if_pos rfl]
    rfl
  have hnx : C.next C.copyId = (loadIds C.ref).filter fun id => C.Unloaded id := by
    rw [Restoring.next, Restoring.links, if_pos rfl]
  have hs : Searched C.next (C.next C.copyId) [C.copyId] s.constructed :=
    hnx ▸ hg.searched
  refine ⟨hmn, hs, ⟨update_self _ _ _, ?_, hf.settled⟩, hf.outside,
    fun o mem ha hp => ?_, fun x hn hl other => ?_, fun x hl => ⟨?_, ?_⟩⟩
  · refine hf.members.trans ?_
    rw [nil_append, replicate_zero, append_nil]
    rfl
  · obtain ⟨x, hn, hfn, hb⟩ := hg.built o mem (hs.mem_iff.mpr hp)
      fun hm => ha (mem_singleton.mp hm)
    rw [hln] at hn
    exact ⟨x, Nat.le_of_succ_le hn, hfn, hb.setInstance (Nat.ne_of_gt hn) _⟩
  · have hlt : C.opened.heap.memory.storages.length ≤ x := by
      rw [hln]
      exact Nat.lt_of_le_of_ne hn fun he => other (he ▸ hmn)
    obtain ⟨id, hm, hfr, hfn⟩ := hg.placed x hlt hl
    have ha : id ≠ C.copyId := fun he => hfr (mem_singleton.mpr he)
    obtain ⟨o, mem, rfl⟩ :=
      mem_map.mp ((hg.midway.within id hm).resolve_left ha)
    exact ⟨o, mem, ha, hs.mem_iff.mp hm, hfn⟩
  · show Function.update s.heap.instances _ _ x = _
    rw [update_of_ne (Nat.ne_of_lt hl), hg.instances x (hln ▸ Nat.lt_succ_of_lt hl)]
    exact update_of_ne (Nat.ne_of_lt hl) _ _
  · refine (hg.members x (hln ▸ Nat.lt_succ_of_lt hl) (Nat.ne_of_lt hl)).trans ?_
    exact congrArg PtrStorage.members
      ((storage_construct x).trans (if_neg (Nat.ne_of_lt hl)))

theorem Restoring.Built.objId_eq {x : Addr} {o : Instance} (hb : C.Built s x o) :
    s.heap.objId x = o.objId := by
  cases hb with
  | blank _ hf => rw [Heap.objId, hf]
  | loaded _ hr => rw [Heap.objId, hr.fields]

end

end Ae.Obj.GraphCopying
