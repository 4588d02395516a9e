/- source: obj/{obj,obj_ptr}.h, ptr/ptr.h
   digest: Objects in memory with their fields, and the graphs of them that are saved. -/

import Ae.Obj.Registrar
import Ae.Ptr.Temporaries

set_option autoImplicit false

namespace Ae.Obj.ObjectGraph
open DomainStorage.Storage Lib.CountedGraph Lib.DepthFirst
open MStream.VectorReader (SizeType)
open Reflection Registrar Ptr.DecrementGraph Ptr.Lifetimes Ptr.PtrBase Ptr.ReferenceTree
open Ptr.Release Finset

/-- An object: its class, its `obj_id` and the values of its reflected fields. What its
`ObjPtr` fields point to is kept in the memory, one member of the storage for each of them,
in the order in which reflection visits them. -/
structure Instance where
  cls : ClassDesc
  objId : ObjId
  state : cls.State

structure Heap where
  memory : Memory
  instances : Addr → Instance

namespace Heap

variable (H : Heap)

def cls (a : Addr) : ClassDesc := (H.instances a).cls

def objId (a : Addr) : ObjId := (H.instances a).objId

def refs (a : Addr) : List ObjectPtrBase := (H.cls a).refs (H.instances a).state

def members (a : Addr) : List (Option Addr) := (H.memory.storage a).members

/-- An `ObjPtr` field and what it points to: nothing, for one without an id, or the object
with its id, for one with the flags `ObjPtr::Create` gives. -/
def Refers (p : ObjectPtrBase) : Option Addr → Prop
  | none => p.id = 0
  | some b => p.id = H.objId b ∧ p.Loads

def Reach (root a : Addr) : Prop := Leads H.memory.targets root a

theorem split_refers {H : Heap} {ps qs : List ObjectPtrBase} {ts : List (Option Addr)}
    (hr : List.Forall₂ H.Refers (ps ++ qs) ts) : ∃ own others,
      ts = own ++ others ∧ List.Forall₂ H.Refers ps own ∧ List.Forall₂ H.Refers qs others := by
  induction ps generalizing ts with
  | nil => exact ⟨[], ts, rfl, .nil, hr⟩
  | cons p ps ih =>
    obtain ⟨m, ms, h1, hl, rfl⟩ := List.forall₂_cons_left_iff.mp hr
    obtain ⟨own, others, rfl, hrp, hrq⟩ := ih hl
    exact ⟨m :: own, others, rfl, .cons h1 hrp, hrq⟩

def chain (r : Registry) (a : Addr) : List ClassId := (H.cls a).chain r.objClass

def records (r : Registry) (size : SizeType) (a : Addr) : List (ClassId × Version × ObjectData) :=
  (H.cls a).records r.objClass size (H.instances a).state

end Heap

/-- The graph of the objects that a root leads to: valid and distinct ids, final registered
classes, default references, fewer than 128 `Ptr`s to each object, right counts, and the root
held by some `Ptr` outside. -/
structure Persistable (r : Registry) (H : Heap) (root : Addr) : Prop where
  valid : ∀ a, H.Reach root a → H.objId a ≠ 0
  distinct : ∀ a b, H.Reach root a → H.Reach root b → H.objId a = H.objId b → a = b
  registered : ∀ a, H.Reach root a →
    r.factories.lookup ((H.cls a).classId r.objClass) = some (H.cls a)
  final : ∀ a, H.Reach root a → r.isLast ((H.cls a).classId r.objClass) = true
  refers : ∀ a, H.Reach root a → List.Forall₂ H.Refers (H.refs a) (H.members a)
  references : ∀ a, H.Reach root a → H.memory.graph.references H.memory.roots a < 128
  counted : Counted H.memory H.memory.roots
  anchored : Anchored H.memory H.memory.roots []
  held : H.memory.graph.Reached H.memory.roots root

noncomputable def nodes (H : Heap) (root : Addr) : Finset Addr :=
  open Classical in H.memory.live.filter (H.Reach root)

noncomputable def unseen (H : Heap) (root : Addr) (seen : List Addr) : Nat :=
  ((nodes H root).filter fun a => a ∉ seen).card

namespace Persistable

variable {r : Registry} {H : Heap} {root a b : Addr}

section

variable (G : Persistable r H root)
include G

theorem leads (hr : H.Reach root a) : Leads H.memory.graph.next root a :=
  leads_next G.anchored G.held.live hr

theorem live (reach : H.Reach root a) : a ∈ H.memory.live :=
  RefGraph.leads_live (G.leads reach) G.held.live

theorem reached (hr : H.Reach root a) :
    H.memory.graph.Reached H.memory.roots a :=
  G.held.leads (G.leads hr)

theorem indexable (hf : Indexable H.memory root) (hr : H.Reach root a) : Indexable H.memory a :=
  fun l hd hi => hf l hd fun n hm => (G.leads hr).trans (hi n hm)

theorem mainRefs_lt (hr : H.Reach root a) :
    (H.memory.mainRefs a).toNat < 128 := by
  rw [G.counted a (G.live hr)]
  exact G.references a hr

theorem mem_nodes : a ∈ nodes H root ↔ H.Reach root a := by
  simp only [nodes, mem_filter]
  exact ⟨And.right, fun hr => ⟨G.live hr, hr⟩⟩

theorem unseen_append {seen : List Addr} (hr : H.Reach root b)
    (hf : b ∉ seen) : unseen H root (seen ++ [b]) < unseen H root seen := by
  refine card_lt_card (ssubset_iff_of_subset ?_ |>.mpr ⟨b, ?_, ?_⟩)
  · intro n hm
    simp only [mem_filter, List.mem_append, not_or] at hm ⊢
    exact ⟨hm.1, hm.2.1⟩
  · exact mem_filter.mpr ⟨G.mem_nodes.mpr hr, hf⟩
  · simp

end

theorem reach_member (hr : H.Reach root a) (hm : some b ∈ H.members a) : H.Reach root b :=
  hr.tail (mem_targets.mpr hm)

end Persistable

theorem unseen_le {H : Heap} {root : Addr} {s : List Addr} :
    unseen H root s ≤ H.memory.storages.length := by
  classical
  have hp : nodes H root ⊆ range H.memory.storages.length := fun a hm =>
    mem_range.mpr (Memory.lt_of_live (mem_filter.mp hm).1)
  have hc := card_le_card ((filter_subset (fun a => a ∉ s) _).trans hp)
  rwa [card_range] at hc

theorem unseen_mono {H : Heap} {root : Addr} {seen f : List Addr} (hg : seen <+: f) :
    unseen H root f ≤ unseen H root seen := by
  refine card_le_card fun n hm => ?_
  simp only [mem_filter] at hm ⊢
  exact ⟨hm.1, fun hmr => hm.2 (hg.subset hmr)⟩

end Ae.Obj.ObjectGraph
