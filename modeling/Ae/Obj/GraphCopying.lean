/- source: obj/{domain.{h,cpp},obj_ptr.h}
   digest: A copy is loaded under the id of its original, which is then never loaded itself. -/

import Ae.Obj.GraphLoading

set_option autoImplicit false

namespace Ae.Obj.GraphCopying
open List DomainStorage.Storage Lib.DepthFirst MStream.VectorReader DomainTable GraphLoading
open GraphSaving ObjectGraph Reflection Registrar Ptr.PtrBase Ptr.ReferenceTree
open Ptr.Temporaries Memory

def loadCopyImpl {σ : Type} [IDomainStorage σ] (r : Registry) (size : SizeType) (storage : σ)
    (fuel : Nat) (refId copyId : ObjId) (s : Loading) : Option Loading :=
  if refId = 0 ∨ copyId = 0 then some (s.returning none)
  else Loading.loadObj (Loading.loadRootImpl r size storage fuel) r size storage refId copyId s

/-- The objects of a program and the table of a domain. The table views storages that were made
before, and an object that is alive under its own id. -/
structure LoadedDomain where
  heap : Heap
  idObjects : IdObjects
  known : ∀ id a, idObjects.lookup id = some a → a < heap.memory.storages.length
  own : ∀ id a, idObjects.lookup id = some a → heap.memory.mainRefs a ≠ 0 → heap.objId a = id

def LoadedDomain.graph (d : LoadedDomain) : Loading := ⟨d.heap, d.idObjects, ∅, []⟩

def idsOf (refs : List ObjectPtrBase) : List ObjId :=
  (refs.filter fun p => p.Loads).map ObjectPtrBase.id

def loadIds (o : Instance) : List ObjId := idsOf (o.cls.refs o.state)

def references (objects : List Instance) (id : ObjId) : Nat :=
  (objects.map fun o => (loadIds o).count id).sum

def holders (s : Loading) (id : ObjId) : Nat :=
  ((s.find id).map fun a => (s.heap.memory.mainRefs a).toNat).getD 0

/-- The storage has the objects, with distinct and valid ids; a reference that is loaded leads to
one of them, or to an id for which there is no factory. -/
structure StoredObjects {σ : Type} [IDomainStorage σ] (r : Registry) (size : SizeType)
    (storage : σ) (objects : List Instance) : Prop where
  distinct : (objects.map Instance.objId).Nodup
  valid : ∀ o ∈ objects, o.objId ≠ 0
  factory : ∀ o ∈ objects,
    r.getMostRelatedFactory (IDomainStorage.enumerate storage o.objId) = some o.cls
  recorded : ∀ o ∈ objects, Recorded storage o.objId (o.cls.records r.objClass size o.state)
  good : ∀ o ∈ objects, o.cls.Good size o.state
  closed : ∀ o ∈ objects, ∀ id ∈ loadIds o, id = 0 ∨ id ∈ objects.map Instance.objId ∨
    r.getMostRelatedFactory (IDomainStorage.enumerate storage id) = none

/-- A stored object is loaded into a new one under `copyId`: a copy, or the object itself where
that is its own id. -/
structure Restoring (σ : Type) [IDomainStorage σ] where
  registry : Registry
  size : SizeType
  storage : σ
  objects : List Instance
  domain : LoadedDomain
  ref : Instance
  copyId : ObjId
  stored : StoredObjects registry size storage objects
  ref_stored : ref ∈ objects
  copy_valid : copyId ≠ 0

/-- A stored object is copied in a domain, in which some objects are loaded already. The counts
of the `Ptr`s have room for all references. -/
structure Cloning (σ : Type) [IDomainStorage σ] extends Restoring σ where
  room : ∀ id, holders domain.graph id + references objects id < 255

variable {σ : Type} [IDomainStorage σ] {s : Loading} {id : ObjId} {b : Addr} {but : Addr → Prop}
  {starts : List ObjId} {s1 : Loading} {x : Addr} {o : Instance}

section

variable (C : Restoring σ)

namespace Restoring

def ids : List ObjId := C.objects.map Instance.objId

def Unloaded (id : ObjId) : Prop := C.domain.graph.find id = none ∧ id ∈ C.ids

instance : DecidablePred C.Unloaded := fun _ => instDecidableAnd

/-- The ids that are loaded with the object constructed under an id. The copy has the references
of its original, and an object constructed under the id of the original has none. -/
def links (id : ObjId) : List ObjId :=
  if id = C.copyId then loadIds C.ref
  else if id = C.ref.objId then []
  else (C.objects.filter fun o => o.objId = id).flatMap loadIds

def next (id : ObjId) : List ObjId := (C.links id).filter fun other => C.Unloaded other

end Restoring

end

section

def target (s : Loading) (p : ObjectPtrBase) : Option Addr :=
  if p.Loads ∧ p.id ≠ 0 then s.find p.id else none

structure Holds (s : Loading) (x : Addr) (id : ObjId) (o : Instance) : Prop where
  fields : s.heap.instances x = ⟨o.cls, id, o.state⟩
  members : s.heap.members x = (o.cls.refs o.state).map (target s)

variable (C : Cloning σ)

namespace Cloning

/-- The copy has the stored values of its original, every other new object has its own, and the
objects loaded before are as they were. -/
structure Complete (s : Loading) : Prop where
  copied : ∃ x, s.find C.copyId = some x ∧ Holds s x C.copyId C.ref ∧
    s.heap.memory.outside = C.domain.heap.memory.outside ++ [some x]
  loaded : ∀ x, C.domain.heap.memory.storages.length ≤ x → x < s.heap.memory.storages.length →
    s.find C.copyId ≠ some x → ∃ o ∈ C.objects, s.find o.objId = some x ∧ Holds s x o.objId o
  kept : ∀ x < C.domain.heap.memory.storages.length,
    s.heap.instances x = C.domain.heap.instances x ∧ s.heap.members x = C.domain.heap.members x

def Clones : Prop :=
  ∀ fuel, C.objects.length < fuel → ∃ s, loadCopyImpl C.registry C.size C.storage fuel
    C.ref.objId C.copyId C.domain.graph = some s ∧ C.Complete s

/-- The references that are followed lead back to the original, which is not loaded. -/
def LeadsBack : Prop := C.ref.objId ≠ C.copyId ∧ Leads C.next C.copyId C.ref.objId

/-- When the id of the copy is in use, its object is such a copy already. Otherwise no path of
references that are not loaded leads back to the original, and no default member value shows
through the values of an object to construct. -/
structure Clear : Prop where
  used : ∀ x, C.domain.graph.find C.copyId = some x → Holds C.domain.graph x C.copyId C.ref
  onward : C.domain.graph.find C.copyId = none → ¬ C.LeadsBack
  speaks_ref : C.domain.graph.find C.copyId = none → C.ref.cls.Speaks C.size C.ref.state
  speaks : C.domain.graph.find C.copyId = none → ∀ o ∈ C.objects, o.objId ≠ C.copyId →
    Leads C.next C.copyId o.objId → o.cls.Speaks C.size o.state

end Cloning

end

section

variable {s' : Loading} {other : ObjId}

theorem find_congr (ht : s'.idObjects = s.idObjects)
    (ha : ∀ a, s'.heap.memory.mainRefs a = 0 ↔ s.heap.memory.mainRefs a = 0) (id : ObjId) :
    s'.find id = s.find id := by
  have he : (fun a => decide (s'.heap.memory.mainRefs a ≠ 0)) =
      fun a => decide (s.heap.memory.mainRefs a ≠ 0) :=
    funext fun a => decide_eq_decide.mpr (not_congr (ha a))
  rw [Loading.find, Loading.find, ht, he]

theorem find_eq_some : s.find id = some b ↔
    s.idObjects.lookup id = some b ∧ s.heap.memory.mainRefs b ≠ 0 := by
  rw [Loading.find, IdObjects.find, Option.filter_eq_some_iff, decide_eq_true_eq]

theorem find_live (hf : s.find id = some b) : b ∈ s.heap.memory.live :=
  mem_live.mpr (find_eq_some.mp hf).2

theorem find_construct (cls : ClassDesc)
    (hk : ∀ id a, s.idObjects.lookup id = some a → a < s.heap.memory.storages.length) :
    (s.constructObj cls id).find other =
      if other = id then some s.heap.memory.storages.length else s.find other := by
  ext a
  rw [find_eq_some, mainRefs, storage_construct]
  show (s.idObjects.insert id s.heap.memory.storages.length).lookup other = some a ∧ _ ↔ _
  by_cases same : other = id
  · subst same
    rw [AList.lookup_insert, if_pos rfl]
    refine ⟨And.left, fun he => ⟨he, ?_⟩⟩
    rw [if_pos (Option.some.inj he).symm]
    exact (by decide : (1 : UInt8) ≠ 0)
  · rw [AList.lookup_insert_ne same, if_neg same, find_eq_some]
    refine and_congr_right fun ht => ?_
    rw [if_neg (ne_of_lt (hk other a ht))]
    rfl

theorem find_returning (hh : b ∈ s.heap.memory.live)
    (hr : (s.heap.memory.mainRefs b).toNat + 1 < 256) (id : ObjId) :
    (s.returning (some b)).find id = s.find id := by
  have ht : (s.returning (some b)).idObjects = s.idObjects := rfl
  refine find_congr ht (fun a => ?_) id
  show (hold s.heap.memory (some b)).mainRefs a = 0 ↔ _
  by_cases same : a = b
  · subst same
    refine iff_of_false (fun hz => ?_) (mem_live.mp hh)
    have more := toNat_hold hh hr
    rw [hz] at more
    simp at more
  · rw [mainRefs_hold_ne same]

theorem holders_of_find (hf : s.find id = some b) :
    holders s id = (s.heap.memory.mainRefs b).toNat := by
  rw [holders, hf]
  rfl

theorem holders_of_none (ha : s.find id = none) : holders s id = 0 := by
  rw [holders, ha]
  rfl

theorem holders_congr (he : s'.find id = s.find id) (hc : ∀ a, s.find id = some a →
      s'.heap.memory.mainRefs a = s.heap.memory.mainRefs a) : holders s' id = holders s id := by
  cases hf : s.find id with
  | none => rw [holders_of_none hf, holders_of_none (he.trans hf)]
  | some a =>
    rw [holders_of_find hf, holders_of_find (he.trans hf), hc a hf]

end

section

variable (C : Restoring σ)

namespace Restoring

def weight (f : Instance → Nat) (seen : List ObjId) : Nat :=
  (C.objects.map fun o => if C.domain.graph.find o.objId ≠ none ∨ o.objId ∈ seen then 0
    else f o).sum

def pending (seen : List ObjId) (id : ObjId) : Nat :=
  C.weight (fun o => if o.objId = C.ref.objId then 0 else (loadIds o).count id) seen

def unseen (seen : List ObjId) : Nat := C.weight (fun _ => 1) seen

end Restoring

theorem sum_add_le {f g : Instance → Nat} {l : List Instance} {o : Instance} (hm : o ∈ l)
    (hl : ∀ a, f a ≤ g a) {k : Nat} (hg : f o + k ≤ g o) : (l.map f).sum + k ≤ (l.map g).sum := by
  induction l with
  | nil => cases hm
  | cons a l ih =>
    rw [map_cons, map_cons, sum_cons, sum_cons]
    rcases mem_cons.mp hm with rfl | later
    · have hr := sum_le_sum (l := l) fun a _ => hl a
      omega
    · have hr := ih later
      have hh := hl a
      omega

variable {C}

theorem weight_append {f : Instance → Nat} {seen : List ObjId} {o : Instance}
    (hm : o ∈ C.objects) (ha : C.domain.graph.find o.objId = none)
    (hf : o.objId ∉ seen) : C.weight f (seen ++ [o.objId]) + f o ≤ C.weight f seen := by
  refine sum_add_le hm (fun a => ?_) ?_
  · by_cases hd : C.domain.graph.find a.objId ≠ none ∨ a.objId ∈ seen
    · rw [if_pos (hd.imp_right fun ho => mem_append_left _ ho)]
      exact Nat.zero_le _
    · rw [if_neg hd]
      split
      · exact Nat.zero_le _
      · exact Nat.le_refl _
  · rw [if_pos (Or.inr (by simp)), if_neg (by simp [ha, hf]), Nat.zero_add]

theorem weight_mono {f : Instance → Nat} {seen fo : List ObjId} (hg : seen <+: fo) :
    C.weight f fo ≤ C.weight f seen := by
  refine sum_le_sum fun a _ => ?_
  by_cases hd : C.domain.graph.find a.objId ≠ none ∨ a.objId ∈ seen
  · rw [if_pos (hd.imp_right fun ho => hg.subset ho)]
    exact Nat.zero_le _
  · rw [if_neg hd]
    split
    · exact Nat.zero_le _
    · exact Nat.le_refl _

theorem unseen_le (se : List ObjId) : C.unseen se ≤ C.objects.length := by
  calc C.unseen se ≤ (C.objects.map fun _ => 1).sum := by
        refine sum_le_sum fun a _ => ?_
        split
        · exact Nat.zero_le _
        · exact Nat.le_refl _
    _ = C.objects.length := by simp

theorem unseen_lt (ha : C.domain.graph.find C.ref.objId = none) :
    C.unseen [C.ref.objId] < C.objects.length := by
  have hf : C.unseen ([] ++ [C.ref.objId]) + 1 ≤ C.unseen [] :=
    weight_append C.ref_stored ha not_mem_nil
  exact hf.trans (unseen_le [])

theorem pending_le (se : List ObjId) (id : ObjId) :
    C.pending se id + (loadIds C.ref).count id ≤ references C.objects id := by
  refine sum_add_le C.ref_stored (fun a => ?_) ?_
  · split
    · exact Nat.zero_le _
    · dsimp only
      split
      · exact Nat.zero_le _
      · exact Nat.le_refl _
  · simp

end

section

variable (C : Restoring σ)

namespace Restoring

/-- The copy is constructed and its class is marked under the id of the original. All that was
constructed is stored and can be found, and nothing else is marked. -/
structure Midway (s : Loading) : Prop where
  known : ∀ id a, s.idObjects.lookup id = some a → a < s.heap.memory.storages.length
  own : ∀ id a, s.find id = some a → s.heap.objId a = id
  found : ∀ id, s.find id ≠ none ↔ C.domain.graph.find id ≠ none ∨ id ∈ s.constructed
  within : ∀ id ∈ s.constructed, id = C.copyId ∨ id ∈ C.ids
  copy : C.copyId ∈ s.constructed
  visited : ∀ c id, (c, id) ∈ s.visited → id = C.ref.objId ∨ id ∈ s.constructed
  blank : (C.ref.cls.classId C.registry.objClass, C.ref.objId) ∈ s.visited

def Settled (s : Loading) (p : ObjectPtrBase) : Prop :=
  p.Loads → p.id ≠ 0 → s.find p.id ≠ none ∨ p.id ≠ C.copyId ∧ p.id ∉ C.ids

structure Reread (s : Loading) (x : Addr) (id : ObjId) (o : Instance) : Prop where
  fields : s.heap.instances x = ⟨o.cls, id, o.cls.merged C.size o.state⟩
  members : s.heap.members x = (o.cls.refs o.state).map (target s)
  settled : ∀ p ∈ o.cls.refs o.state, C.Settled s p

inductive Built (s : Loading) (x : Addr) (o : Instance) : Prop
  | blank (same : o.objId = C.ref.objId)
      (fields : s.heap.instances x = ⟨o.cls, o.objId, o.cls.init⟩)
  | loaded (other : o.objId ≠ C.ref.objId) (reread : C.Reread s x o.objId o)

/-- What a part of the copy does: it builds all that `starts` lead to, and leaves the objects
that were there alone, but for the members of those in `but`. -/
structure Grows (but : Addr → Prop) (starts : List ObjId) (s s' : Loading) : Prop where
  midway : C.Midway s'
  searched : Searched C.next (starts.filter fun id => C.Unloaded id) s.constructed s'.constructed
  length : s.heap.memory.storages.length ≤ s'.heap.memory.storages.length
  instances : ∀ x < s.heap.memory.storages.length, s'.heap.instances x = s.heap.instances x
  members : ∀ x < s.heap.memory.storages.length, ¬ but x → s'.heap.members x = s.heap.members x
  kept : ∀ id a, s.find id = some a → s'.find id = some a
  built : ∀ o ∈ C.objects, o.objId ∈ s'.constructed → o.objId ∉ s.constructed →
    ∃ x, s.heap.memory.storages.length ≤ x ∧ s'.find o.objId = some x ∧ C.Built s' x o
  placed : ∀ x, s.heap.memory.storages.length ≤ x → x < s'.heap.memory.storages.length →
    ∃ id ∈ s'.constructed, id ∉ s.constructed ∧ s'.find id = some x
  balance : ∀ id, holders s' id + C.pending s'.constructed id ≤
    holders s id + starts.count id + C.pending s.constructed id

def Bounded (s : Loading) (starts : List ObjId) : Prop :=
  ∀ id ≠ 0, holders s id + starts.count id + C.pending s.constructed id < 256

end Restoring

variable {C} {more : List ObjId} {s2 : Loading} {p : ObjectPtrBase}

theorem Restoring.Midway.absent (hm : C.Midway s) (ha : id ≠ C.copyId) (hf : id ∉ C.ids)
    (hu : C.domain.graph.find id = none) : s.find id = none := by
  by_contra ht
  rcases (hm.found id).mp ht with hl | constructed
  · exact hl hu
  · exact (hm.within id constructed).elim ha hf

theorem Restoring.Midway.fresh (hm : C.Midway s) (ha : s.find id = none) :
    C.domain.graph.find id = none ∧ id ∉ s.constructed := by
  have hn := (not_congr (hm.found id)).mp (not_not.mpr ha)
  exact ⟨not_not.mp (not_or.mp hn).1, (not_or.mp hn).2⟩

section

variable (hg : C.Grows but starts s s1)
include hg

theorem Restoring.Grows.find_eq (hm : C.Midway s)
    (hs : s.find id ≠ none ∨ id ≠ C.copyId ∧ id ∉ C.ids) : s1.find id = s.find id := by
  cases hf : s.find id with
  | some a => exact hg.kept id a hf
  | none =>
    obtain ⟨ha, hfr⟩ := hs.resolve_left (not_not.mpr hf)
    exact hg.midway.absent ha hfr (hm.fresh hf).1

theorem Restoring.Grows.target_eq (hm : C.Midway s)
    (hs : C.Settled s p) : target s1 p = target s p := by
  unfold target
  split
  · next hl => exact hg.find_eq hm (hs hl.1 hl.2)
  · rfl

theorem Restoring.Grows.settled (hm : C.Midway s) (hs : C.Settled s p) : C.Settled s1 p := by
  intro hl hv
  rw [hg.find_eq hm (hs hl hv)]
  exact hs hl hv

theorem Restoring.Grows.reread (hm : C.Midway s)
    (ho : x < s.heap.memory.storages.length) (ha : ¬ but x) (hr : C.Reread s x id o) :
    C.Reread s1 x id o where
  fields := (hg.instances x ho).trans hr.fields
  members := by
    rw [hg.members x ho ha, hr.members]
    exact map_congr_left fun p mem =>
      (hg.target_eq hm (hr.settled p mem)).symm
  settled := fun p mem => hg.settled hm (hr.settled p mem)

theorem Restoring.Grows.keeps_built (hm : C.Midway s)
    (ho : x < s.heap.memory.storages.length) (ha : ¬ but x) (hb : C.Built s x o) :
    C.Built s1 x o := by
  cases hb with
  | blank he hf => exact .blank he ((hg.instances x ho).trans hf)
  | loaded other hr => exact .loaded other (hg.reread hm ho ha hr)

end

theorem Restoring.Grows.nil (midway : C.Midway s) : C.Grows but [] s s where
  midway := midway
  searched := Searched.nil
  length := le_rfl
  instances := fun _ _ => rfl
  members := fun _ _ _ => rfl
  kept := fun _ _ hfn => hfn
  built := fun _ _ hm hf => absurd hm hf
  placed := fun _ ho hn => absurd hn (Nat.not_lt.mpr ho)
  balance := fun _ => by simp

theorem Restoring.Grows.append (old : ∀ x, but x → x < s.heap.memory.storages.length)
    (ho : C.Grows but starts s s1) (ht : C.Grows but more s1 s2) :
    C.Grows but (starts ++ more) s s2 where
  midway := ht.midway
  searched := by
    rw [filter_append]
    exact ho.searched.append ht.searched
  length := ho.length.trans ht.length
  instances := fun x hl =>
    (ht.instances x (hl.trans_le ho.length)).trans (ho.instances x hl)
  members := fun x hl ha =>
    (ht.members x (hl.trans_le ho.length) ha).trans (ho.members x hl ha)
  kept := fun id a hf => ht.kept id a (ho.kept id a hf)
  built := by
    intro o mem hm hfr
    by_cases he : o.objId ∈ s1.constructed
    · obtain ⟨x, hn, hf, built⟩ := ho.built o mem he hfr
      have hl := lt_of_live (find_live hf)
      refine ⟨x, hn, ht.kept _ x hf, ht.keeps_built ho.midway hl (fun hi => ?_) built⟩
      exact absurd (old x hi) (Nat.not_lt.mpr hn)
    · obtain ⟨x, hn, hf, built⟩ := ht.built o mem hm he
      exact ⟨x, ho.length.trans hn, hf, built⟩
  placed := by
    intro x hn hl
    rcases lt_or_ge x s1.heap.memory.storages.length with he | late
    · obtain ⟨id, hm, hfr, hf⟩ := ho.placed x hn he
      exact ⟨id, ht.searched.grows.subset hm, hfr, ht.kept id x hf⟩
    · obtain ⟨id, hm, hfr, hf⟩ := ht.placed x late hl
      exact ⟨id, hm, fun hb => hfr (ho.searched.grows.subset hb), hf⟩
  balance := by
    intro id
    have hfp := ho.balance id
    have hsp := ht.balance id
    rw [count_append]
    omega

theorem Restoring.Grows.widen {w : Addr → Prop} (hg : C.Grows but starts s s1)
    (hw : ∀ x, but x → w x) : C.Grows w starts s s1 :=
  { hg with
    members := fun x hl ha => hg.members x hl fun hi => ha (hw x hi) }

theorem Restoring.Grows.bounded (hg : C.Grows but starts s s1)
    (hbn : C.Bounded s (starts ++ more)) : C.Bounded s1 more := by
  intro id hv
  have hb := hbn id hv
  have hbl := hg.balance id
  rw [count_append] at hb
  omega

theorem Restoring.Bounded.left (hb : C.Bounded s (starts ++ more)) : C.Bounded s starts := by
  intro id hv
  have hbt := hb id hv
  rw [count_append] at hbt
  omega

end

section

variable {C : Restoring σ}

theorem Restoring.Midway.memory (hm : C.Midway s) {memory : Memory}
    (hl : memory.storages.length = s.heap.memory.storages.length)
    (ha : ∀ id, (s.setMemory memory).find id = s.find id) : C.Midway (s.setMemory memory) where
  known := fun id a ht => hl ▸ hm.known id a ht
  own := fun id a found => hm.own id a (ha id ▸ found)
  found := fun id => ha id ▸ hm.found id
  within := hm.within
  copy := hm.copy
  visited := hm.visited
  blank := hm.blank

theorem Restoring.Midway.lock (hm : C.Midway s) (hv : id ≠ 0)
    (hf : s.find id = some b) (hb : C.Bounded s [id]) :
    C.Grows but [id] s (s.returning (some b)) := by
  have hh := find_live hf
  have hr : (s.heap.memory.mainRefs b).toNat + 1 < 256 := by
    have ha := hb id hv
    rw [holders_of_find hf, count_singleton_self] at ha
    omega
  have he := find_returning hh hr
  have hl : (hold s.heap.memory (some b)).storages.length = s.heap.memory.storages.length :=
    length_modify
  refine ⟨hm.memory hl he, ?_, hl.symm.le, fun _ _ => rfl, fun y _ _ => members_hold _ y,
    fun j a ht => (he j).trans ht, fun o _ hmr hfr => absurd hmr hfr,
    fun y old hn => absurd hn (Nat.not_lt.mpr (hl ▸ old)), fun j => ?_⟩
  · by_cases unloaded : C.Unloaded id
    · rw [filter_singleton, decide_eq_true unloaded]
      have hmr : id ∈ s.constructed := by
        refine ((hm.found id).mp (hf ▸ Option.some_ne_none b)).resolve_left ?_
        exact not_not.mpr unloaded.1
      exact Searched.skip hmr Searched.nil
    · rw [filter_singleton, decide_eq_false unloaded]
      exact Searched.nil
  · by_cases equal : j = id
    · subst equal
      rw [holders_of_find ((he j).trans hf), holders_of_find hf, count_singleton_self]
      exact le_of_eq (congrArg (· + C.pending s.constructed j) (toNat_hold hh hr))
    · have ho : holders (s.returning (some b)) j = holders s j := by
        refine holders_congr (he j) fun a haj => mainRefs_hold_ne ?_
        rintro rfl
        exact equal ((hm.own j a haj).symm.trans (hm.own id a hf))
      rw [ho]
      exact Nat.add_le_add_right le_self_add _

theorem Restoring.Midway.null (hmd : C.Midway s) (hfr : id ∉ C.ids) :
    C.Grows but [id] s (s.returning none) := by
  refine ⟨hmd.memory rfl fun _ => rfl, ?_, le_rfl, fun _ _ => rfl, fun _ _ _ => rfl,
    fun _ _ hfn => hfn, fun o _ hm hf => absurd hm hf,
    fun y ho hn => absurd hn (Nat.not_lt.mpr ho), fun j => ?_⟩
  · rw [filter_singleton, decide_eq_false fun hu => hfr hu.2]
    exact Searched.nil
  · exact Nat.add_le_add_right le_self_add _

theorem Restoring.Built.memory (hb : C.Built s x o) {memory : Memory}
    (hm : (s.setMemory memory).heap.members x = s.heap.members x)
    (ha : ∀ id, (s.setMemory memory).find id = s.find id) : C.Built (s.setMemory memory) x o := by
  cases hb with
  | blank he hf => exact .blank he hf
  | loaded other hr =>
    have ht : target (s.setMemory memory) = target s := by
      funext p
      rw [target, ha, target]
    refine .loaded other ⟨hr.fields, ?_, fun p mem hl hv => ?_⟩
    · rw [hm, hr.members, ht]
    · rw [ha]
      exact hr.settled p mem hl hv

theorem find_moved (i : Nat) (v : Option Addr) (o : List (Option Addr)) (id : ObjId) :
    (s.setMemory { s.heap.memory.write (.member x i) v with outside := o }).find id =
      s.find id := by
  have ht : (s.setMemory { s.heap.memory.write (.member x i) v with
      outside := o }).idObjects = s.idObjects := rfl
  exact find_congr ht (fun a => iff_of_eq (congrArg (· = 0) (mainRefs_moved a))) id

theorem Restoring.Grows.write (hg : C.Grows but starts s s1) (hi : but x)
    (old : x < s.heap.memory.storages.length) (i : Nat) (v : Option Addr)
    (o : List (Option Addr)) : C.Grows but starts s
      (s1.setMemory { s1.heap.memory.write (.member x i) v with outside := o }) := by
  have hl : ({ s1.heap.memory.write (.member x i) v with outside := o } :
      Memory).storages.length = s1.heap.memory.storages.length := length_modify
  have ha : ∀ id, (s1.setMemory { s1.heap.memory.write (.member x i) v with
      outside := o }).find id = s1.find id := find_moved i v o
  have ho : ∀ y, y ≠ x → (s1.setMemory { s1.heap.memory.write (.member x i) v with
      outside := o }).heap.members y = s1.heap.members y :=
    fun y other => congrArg PtrStorage.members (storage_modify_ne other)
  refine ⟨hg.midway.memory hl ha, hg.searched, hg.length.trans hl.ge,
    hg.instances, fun y hls hap => ?_, fun id a hf => ?_, fun o mem hm hfr => ?_,
    fun y hn hls => ?_, fun id => ?_⟩
  · rw [ho y fun he => hap (he ▸ hi)]
    exact hg.members y hls hap
  · exact (ha id).trans (hg.kept id a hf)
  · obtain ⟨y, hn, hf, hb⟩ := hg.built o mem hm hfr
    have hap : y ≠ x := fun he => Nat.not_lt.mpr hn (he ▸ old)
    exact ⟨y, hn, (ha _).trans hf, hb.memory (ho y hap) ha⟩
  · obtain ⟨id, hm, hfr, hf⟩ := hg.placed y hn (hl ▸ hls)
    exact ⟨id, hm, hfr, (ha id).trans hf⟩
  · have he : holders (s1.setMemory { s1.heap.memory.write (.member x i) v with
        outside := o }) id = holders s1 id :=
      holders_congr (ha id) fun a _ => mainRefs_moved a
    rw [he]
    exact hg.balance id

section

variable (cls : ClassDesc)
  (hk : ∀ id a, s.idObjects.lookup id = some a → a < s.heap.memory.storages.length)
include hk

theorem known_construct (other : ObjId) (a : Addr)
    (ht : (s.constructObj cls id).idObjects.lookup other = some a) :
    a < (s.constructObj cls id).heap.memory.storages.length := by
  have hl : (s.constructObj cls id).heap.memory.storages.length =
      s.heap.memory.storages.length + 1 := length_append
  have ht : (s.idObjects.insert id s.heap.memory.storages.length).lookup other = some a := ht
  rw [hl]
  by_cases same : other = id
  · rw [same, AList.lookup_insert] at ht
    exact Option.some.inj ht ▸ Nat.lt_succ_self _
  · rw [AList.lookup_insert_ne same] at ht
    exact Nat.lt_succ_of_lt (hk other a ht)

theorem own_construct (ho : ∀ id a, s.find id = some a → s.heap.objId a = id) (other : ObjId)
    (a : Addr) (ht : (s.constructObj cls id).find other = some a) :
    (s.constructObj cls id).heap.objId a = other := by
  show (Function.update s.heap.instances s.heap.memory.storages.length
    ⟨cls, id, cls.init⟩ a).objId = other
  rw [find_construct cls hk] at ht
  by_cases same : other = id
  · rw [if_pos same] at ht
    rw [← Option.some.inj ht, Function.update_self, same]
  · rw [if_neg same] at ht
    have old := lt_of_live (find_live ht)
    rw [Function.update_of_ne old.ne]
    exact ho other a ht

theorem holders_construct (hfr : s.find id = none) (other : ObjId) :
    holders (s.constructObj cls id) other = holders s other + [id].count other := by
  by_cases same : other = id
  · subst same
    have hf : (s.constructObj cls other).find other = some s.heap.memory.storages.length := by
      rw [find_construct cls hk, if_pos rfl]
    rw [holders_of_find hf, holders_of_none hfr, count_singleton_self,
      mainRefs, storage_construct, if_pos rfl]
    rfl
  · have hf : (s.constructObj cls id).find other = s.find other := by
      rw [find_construct cls hk, if_neg same]
    rw [count_singleton, holders_congr hf fun a ht => ?_]
    · simp [Ne.symm same]
    · have ho := lt_of_live (find_live ht)
      rw [mainRefs, storage_construct, if_neg (Nat.ne_of_lt ho), mainRefs]


end

theorem Restoring.Midway.construct (hm : C.Midway s) (mem : o ∈ C.objects) :
    C.Midway (s.constructObj o.cls o.objId) where
  known := known_construct o.cls hm.known
  own := own_construct o.cls hm.known hm.own
  found := by
    intro id
    show _ ↔ _ ∨ id ∈ s.constructed ++ [o.objId]
    rw [find_construct o.cls hm.known, mem_append, mem_singleton]
    by_cases same : id = o.objId
    · simp [same]
    · rw [if_neg same, hm.found id]
      simp [same]
  within := by
    intro id hmr
    rcases mem_append.mp hmr with ho | new
    · exact hm.within id ho
    · exact .inr (mem_singleton.mp new ▸ mem_map_of_mem mem)
  copy := mem_append_left _ hm.copy
  visited := fun c id hmr => (hm.visited c id hmr).imp_right (mem_append_left _)
  blank := hm.blank

end

end Ae.Obj.GraphCopying
