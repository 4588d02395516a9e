/- source: ptr/{ptr.{h,cpp},ptr_management.h}
   digest: Counted storages, the cycle-aware decrement, and the operations on a Ptr. -/

import Ae.Ptr.ReferenceTree
import Ae.Lib.CountedGraph

set_option autoImplicit false

namespace Ae.Ptr.PtrBase
open List Lib.CountedGraph ReferenceTree

/-- A `PtrStorage`: its counters and the `ptr_storage_` of each `Ptr` member of the object in
it, in the order in which reflection visits them. -/
structure PtrStorage where
  mainRefs : UInt8
  weakRefs : UInt8
  members : List (Option Addr)
deriving DecidableEq, Repr

inductive Place where
  | outside (i : Nat)
  | member (a : Addr) (i : Nat)
deriving DecidableEq, Repr

/-- Every storage made so far, the `Ptr`s held outside the objects, and which objects had
their destructor run and which storages were deallocated, oldest first. -/
structure Memory where
  storages : List PtrStorage
  outside : List (Option Addr)
  destroyed : List Addr
  freed : List Addr
deriving DecidableEq, Repr

namespace Memory

def empty : Memory := ⟨[], [], [], []⟩

variable (M : Memory)

def storage (a : Addr) : PtrStorage := M.storages.getD a ⟨0, 0, []⟩

def mainRefs (a : Addr) : UInt8 := (M.storage a).mainRefs

def weakRefs (a : Addr) : UInt8 := (M.storage a).weakRefs

def targets (a : Addr) : List Addr := (M.storage a).members.filterMap id

def modify (a : Addr) (f : PtrStorage → PtrStorage) : Memory :=
  { M with storages := M.storages.modify a f }

def read : Place → Option Addr
  | .outside i => M.outside[i]?.join
  | .member a i => (M.storage a).members[i]?.join

def write (p : Place) (v : Option Addr) : Memory :=
  match p with
  | .outside i => { M with outside := M.outside.set i v }
  | .member a i => M.modify a fun s => { s with members := s.members.set i v }

/-- `Children`: the members `RefVisitor` keeps are those of a counted storage. -/
def children (a : Addr) : List Addr :=
  if M.mainRefs a = 0 then [] else (M.targets a).filter fun b => M.mainRefs b ≠ 0

def countReference (n : Node) : Node :=
  { n with value := { n.value with reachableRefCount := n.value.reachableRefCount + 1 } }

def indexAt (t : RefTree) (position : Nat) : Index := (t.nodes[position]?).elim 0 Node.index

def link (head : Index) (t : RefTree) (child : Addr) : RefTree × Index :=
  let (grown, position) := t.emplace child (M.mainRefs child)
  let counted := grown.modify position countReference
  let index := indexAt counted position
  (counted.modify head.toNat fun n =>
    { n with childrenIndices := n.childrenIndices ++ [index] }, index)

def buildChild
    (build : Index → List Addr → RefTree × Finset Addr → RefTree × Finset Addr) (head : Index)
    (r : RefTree × Finset Addr) (child : Addr) : RefTree × Finset Addr :=
  let (t, index) := M.link head r.1 child
  if child ∈ r.2 then (t, r.2) else build index (M.children child) (t, insert child r.2)

def buildDecrementGraphImpl (M : Memory) :
    Nat → Index → List Addr → RefTree × Finset Addr → RefTree × Finset Addr
  | 0, _, _, r => r
  | fuel + 1, head, children, r =>
    children.foldl (M.buildChild (buildDecrementGraphImpl M fuel) head) r

/-- `BuildDecrementGraph`: the head is counted once for the `Ptr` that is dropped. -/
def buildDecrementGraph (a : Addr) : RefTree :=
  let (t, position) := (RefTree.mk []).emplace a (M.mainRefs a)
  let counted := t.modify position countReference
  (M.buildDecrementGraphImpl (M.storages.length + 1) (indexAt counted position) (M.children a)
    (counted, {a})).1

/-- A node with references from outside the tree from which the head is reachable. -/
def Holds (t : RefTree) (node : Node) : Prop :=
  node.value.refCount ≠ node.value.reachableRefCount ∧
    (t.isReachable 0 (t.nodes.length + 1) node ∅).1 = true

instance (t : RefTree) : DecidablePred (Holds t) := fun _ => instDecidableAnd

/-- `DecrementGraphCount`: all references of the storage go where no node holds its head. -/
def decrementGraphCount (a : Addr) : UInt8 :=
  let t := M.buildDecrementGraph a
  match t.get 0 with
  | none => 1
  | some self =>
    if self.value.refCount ≠ self.value.reachableRefCount then 1
    else if (t.forEach (refuse (Holds t)) (t.nodes.length + 1) self (∅, true)).2.2 then
      M.mainRefs a
    else 1

def decrementRef (a : Addr) (count : UInt8) : Memory :=
  M.modify a fun s => { s with mainRefs := s.mainRefs - count, weakRefs := s.weakRefs - count }

def decrement (a : Addr) : Memory :=
  if 1 < M.mainRefs a then M.decrementRef a (M.decrementGraphCount a) else M.decrementRef a 1

def increment : Option Addr → Memory
  | none => M
  | some a =>
    M.modify a fun s => { s with mainRefs := s.mainRefs + 1, weakRefs := s.weakRefs + 1 }

def shiftWeak (a : Addr) (delta : UInt8) : Memory :=
  M.modify a fun s => { s with weakRefs := s.weakRefs + delta }

def resetMembers (reset : Place → Memory → Memory) (a : Addr) : Nat → Memory → Memory
  | 0, M => M
  | i + 1, M => resetMembers reset a i (reset (.member a i) M)

/-- The destructor of an object starts, with its storage held by one more weak reference. -/
def beginDestroy (a : Addr) : Memory :=
  { M.shiftWeak a 1 with destroyed := M.destroyed ++ [a] }

def destroy (reset : Place → Memory → Memory) (a : Addr) : Memory :=
  (resetMembers reset a (M.storage a).members.length (M.beginDestroy a)).shiftWeak a (-1)

def free (a : Addr) : Memory := { M with freed := M.freed ++ [a] }

def reclaim (reset : Place → Memory → Memory) (a : Addr) : Memory :=
  if M.mainRefs a = 0 then
    let ended := M.destroy reset a
    if ended.weakRefs a = 0 then ended.free a else ended
  else M

def resetWith : Nat → Place → Memory → Memory
  | 0, _, M => M
  | fuel + 1, p, M =>
    match M.read p with
    | none => M
    | some a =>
      if M.mainRefs a = 0 then M
      else ((M.decrement a).reclaim (resetWith fuel) a).write p none

def reset (p : Place) : Memory := resetWith (M.storages.length + 1) p M

def makePtr (k : Nat) : Memory :=
  { M with
    storages := M.storages ++ [⟨1, 1, List.replicate k none⟩]
    outside := M.outside ++ [some M.storages.length] }

def copy (q : Place) : Memory :=
  { M with outside := M.outside ++ [M.read q] }.increment (M.read q)

/-- Copy assignment: `other` is read once this `Ptr` has been reset. -/
def assign (p q : Place) : Memory :=
  if p = q then M
  else
    let dropped := M.reset p
    (dropped.write p (dropped.read q)).increment (dropped.read q)

/-- Move assignment: the `Ptr`s are swapped once this one has been reset. -/
def moveAssign (p q : Place) : Memory :=
  if p = q then M
  else
    let dropped := M.reset p
    (dropped.write p (dropped.read q)).write q (dropped.read p)

def live : Finset Addr :=
  (Finset.range M.storages.length).filter fun a => M.mainRefs a ≠ 0

def graph : RefGraph Addr :=
  ⟨M.live, fun a => if M.mainRefs a = 0 then [] else M.targets a⟩

def roots : List Addr := M.outside.filterMap id

section

variable {M : Memory} {a b : Addr} {f : PtrStorage → PtrStorage}

theorem mem_live : a ∈ M.live ↔ M.mainRefs a ≠ 0 := by
  simp only [live, Finset.mem_filter, Finset.mem_range, and_iff_right_iff_imp]
  intro hc
  by_contra hp
  refine hc ?_
  simp [mainRefs, storage, getElem?_eq_none (not_lt.mp hp)]

theorem lt_of_live (hh : a ∈ M.live) : a < M.storages.length :=
  Finset.mem_range.mp (Finset.mem_filter.mp hh).1

theorem card_live_le : M.live.card ≤ M.storages.length :=
  (Finset.card_filter_le _ _).trans (Finset.card_range _).le

theorem storage_modify_self (hi : a < M.storages.length) :
    (M.modify a f).storage a = f (M.storage a) := by
  simp [storage, modify, getD_eq_getElem?_getD, hi]

theorem storage_modify_ne (hn : b ≠ a) : (M.modify a f).storage b = M.storage b := by
  simp [storage, modify, getD_eq_getElem?_getD, hn.symm]

theorem members_modify (hk : ∀ s, (f s).members = s.members) :
    ((M.modify a f).storage b).members = (M.storage b).members := by
  by_cases same : b = a
  · subst same
    by_cases inside : b < M.storages.length
    · rw [storage_modify_self inside, hk]
    · simp [storage, modify, inside]
  · rw [storage_modify_ne same]

theorem mainRefs_modify (hk : ∀ s, (f s).mainRefs = s.mainRefs) :
    (M.modify a f).mainRefs b = M.mainRefs b := by
  by_cases same : b = a
  · subst same
    by_cases inside : b < M.storages.length
    · rw [mainRefs, storage_modify_self inside, hk, mainRefs]
    · simp [mainRefs, storage, modify, inside]
  · rw [mainRefs, storage_modify_ne same, mainRefs]

theorem length_modify : (M.modify a f).storages.length = M.storages.length := by
  simp [modify]

theorem mainRefs_write (p : Place) (v : Option Addr) : (M.write p v).mainRefs a = M.mainRefs a := by
  cases p with
  | outside i => rfl
  | member b i => exact mainRefs_modify fun _ => rfl

theorem live_write (p : Place) (v : Option Addr) : (M.write p v).live = M.live := by
  ext a
  rw [mem_live, mem_live, mainRefs_write]

theorem succ_of_live (hh : a ∈ M.live) : M.graph.succ a = M.targets a :=
  if_neg (mem_live.mp hh)

theorem targets_write_ne {i : Nat} {v : Option Addr} (hn : b ≠ a) :
    (M.write (.member a i) v).targets b = M.targets b := by
  rw [targets, write, storage_modify_ne hn, targets]

theorem succ_write_ne {i : Nat} {v : Option Addr} (hn : b ≠ a) :
    (M.write (.member a i) v).graph.succ b = M.graph.succ b := by
  simp only [graph, mainRefs_write, targets_write_ne hn]

theorem children_eq : M.children a = M.graph.next a := by
  rw [children, RefGraph.next]
  by_cases dead : M.mainRefs a = 0
  · simp [graph, dead]
  · simp only [graph, dead, if_false]
    exact filter_congr fun b _ => by simp [mem_live]

theorem reset_eq {p : Place} (hp : M.read p = some a) (hh : a ∈ M.live) :
    M.reset p = ((M.decrement a).reclaim (resetWith M.storages.length) a).write p none := by
  rw [reset, resetWith, hp]
  simp [mem_live.mp hh]

end

end Memory

end Ae.Ptr.PtrBase
