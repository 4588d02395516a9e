/- source: obj/{domain.{h,cpp},obj_ptr.h,registrar.h}
   digest: How the load of a stored object constructs it and what its references lead to. -/

import Ae.Obj.DomainTable
import Ae.Obj.GraphSaving

set_option autoImplicit false

namespace Ae.Obj.GraphLoading
open List
open DomainStorage.Storage MStream.VectorReader
open DomainTable GraphSaving ObjectGraph Reflection Registrar Ptr.Lifetimes
open Ptr.PtrBase Ptr.ReferenceTree Ptr.Temporaries IDomainStorage

/-- The objects of a program while a `DomainGraph` loads, the table of its domain and the
nodes of its `DomainCycleDetector`. The ids of the objects constructed so far are a history,
oldest first. A `Ptr` that a call returns is the last one outside. -/
structure Loading where
  heap : Heap
  idObjects : IdObjects
  visited : Finset (ClassId × ObjId)
  constructed : List ObjId

namespace Loading

def start (heap : Heap) : Loading := ⟨heap, ∅, ∅, []⟩

variable (s : Loading)

def visit (c : ClassId) (id : ObjId) : Loading :=
  { s with visited := insert (c, id) s.visited }

def find (id : ObjId) : Option Addr :=
  s.idObjects.find (fun a => decide (s.heap.memory.mainRefs a ≠ 0)) id

def setMemory (memory : Memory) : Loading :=
  { s with heap := { s.heap with memory := memory } }

def setInstance (a : Addr) (o : Instance) : Loading :=
  { s with heap := { s.heap with instances := Function.update s.heap.instances a o } }

def returning (v : Option Addr) : Loading := s.setMemory (hold s.heap.memory v)

def constructObj (cls : ClassDesc) (id : ObjId) : Loading :=
  { (s.setInstance s.heap.memory.storages.length ⟨cls, id, cls.init⟩).setMemory
      (s.heap.memory.makePtr cls.refCount) with
    idObjects := s.idObjects.addObject id s.heap.memory.storages.length
    constructed := s.constructed ++ [id] }

def getReader {σ : Type} [IDomainStorage σ] (storage : σ) (query : DomainQuery) : Reader :=
  match load storage query with
  | .loaded data => Reader.start data
  | .empty => Reader.start []
  | .removed => Reader.start []

section

-- `LoadRootImpl` on the next level of the recursion
variable (load : ObjId → Loading → Option Loading)

/-- `ptr.ptr_ = LoadPtr(id)` for the member `i` of the object at `a`. -/
def loadPtr (a : Addr) (i : Nat) (id : ObjId) (s : Loading) : Option Loading :=
  (load id s).map fun s => s.setMemory (leaveScope
    (s.heap.memory.moveAssign (.member a i) (.outside (s.heap.memory.outside.length - 1))))

/-- What `>>` does for a field beside reading it: an `ObjPtr` loads its object, unless its
flags tell it not to. -/
def loadRefs (a : Addr) (i : Nat) (s : Loading) : (f : FieldDesc) → f.Value → Option Loading
  | .value _ _, _ => some s
  | .objPtr _, (p : ObjectPtrBase) => if p.Loads then loadPtr load a i p.id s else some s

/-- The fields of one class of the object at `a`, of which `i` members come before. -/
def loadFields (size : SizeType) (a : Addr) : (fields : List FieldDesc) → Row fields → Nat →
    Reader → Loading → Option (Row fields × Loading)
  | [], _, _, _, s => some ((), s)
  | f :: fields, (target, row), i, reader, s =>
    match (f.codec size).get target reader with
    | .error _ => none
    | .ok (reader, v) =>
      (loadRefs load a i s f v).bind fun s =>
        (loadFields size a fields row (i + (f.refs v).length) reader s).map fun (row, s) =>
          ((v, row), s)

variable {σ : Type} [IDomainStorage σ] (r : Registry) (size : SizeType) (storage : σ)

/-- `Load` of an object as one of its classes: the base has its own query and comes first.
The values read are put in place when the load of the object ends. -/
def loadClass (a : Addr) (id : ObjId) :
    (cls : ClassDesc) → cls.State → Loading → Option (cls.State × Loading)
  | .obj, state, s =>
    if (r.objClass, id) ∈ s.visited then some (state, s)
    else some (state, s.visit r.objClass id)
  | .derived c v base fields, (state, row), s =>
    if (c, id) ∈ s.visited then some ((state, row), s)
    else (loadClass a id base state (s.visit c id)).bind fun (state, s) =>
      (loadFields load size a fields row base.refCount (getReader storage ⟨id, c, v⟩) s).map
        fun (row, s) => ((state, row), s)

/-- An object is in the table under `copyId`, but it is loaded, and marked in the cycle detector,
under `refId`. -/
def loadObj (refId copyId : ObjId) (s : Loading) : Option Loading :=
  match s.find copyId with
  | some b => some (s.returning (some b))
  | none =>
    match r.getMostRelatedFactory (enumerate storage refId) with
    | none => some (s.returning none)
    | some cls =>
      (loadClass load r size storage s.heap.memory.storages.length refId cls cls.init
        (s.constructObj cls copyId)).map
        fun (state, s') => s'.setInstance s.heap.memory.storages.length ⟨cls, copyId, state⟩

end

def loadRootImpl {σ : Type} [IDomainStorage σ] (r : Registry) (size : SizeType) (storage : σ) :
    Nat → ObjId → Loading → Option Loading
  | 0, _, _ => none
  | fuel + 1, id, s =>
    if id = 0 then some (s.returning none)
    else loadObj (loadRootImpl r size storage fuel) r size storage id id s

def load {σ : Type} [IDomainStorage σ] (r : Registry) (size : SizeType) (storage : σ)
    (heap : Heap) (fuel : Nat) (id : ObjId) : Option Loading :=
  loadRootImpl r size storage fuel id (start heap)

end Loading

section

variable (r : Registry) (size : SizeType) (H : Heap) (root : Addr)

structure Stored {σ : Type} [IDomainStorage σ] (storage : σ) : Prop where
  recorded : ∀ a, H.Reach root a → Recorded storage (H.objId a) (H.records r size a)
  listed : ∀ a, H.Reach root a → ∀ c ∈ enumerate storage (H.objId a), c ∈ H.chain r a
  coherent : Coherent storage

def reread (a : Addr) : Instance :=
  ⟨H.cls a, H.objId a, (H.cls a).merged size (H.instances a).state⟩

end

section

variable {size : SizeType} {s : Loading} {call : ObjId → Loading → Option Loading}
  {x : Addr} {i : Nat} {v : Option Addr} {o : List (Option Addr)}

theorem mainRefs_moved {M : Memory} (y : Addr) :
    Memory.mainRefs { M.write (.member x i) v with outside := o } y = M.mainRefs y :=
  Memory.mainRefs_write (M := M) (a := y) (.member x i) v

theorem storage_construct {cls : ClassDesc} {id : ObjId} (y : Addr) :
    (s.constructObj cls id).heap.memory.storage y =
      if y = s.heap.memory.storages.length then ⟨1, 1, replicate cls.refCount none⟩
      else s.heap.memory.storage y :=
  storage_makePtr y

theorem setMemory_moved (hl : s.heap.memory.outside = o ++ [v])
    (hn : (s.heap.members x)[i]? = some none) :
    s.setMemory (leaveScope (s.heap.memory.moveAssign (.member x i)
        (.outside (s.heap.memory.outside.length - 1)))) =
      s.setMemory { s.heap.memory.write (.member x i) v with outside := o } := by
  have hln : s.heap.memory.outside.length - 1 = o.length := by
    rw [hl, length_append]
    rfl
  have hr : s.heap.memory.read (.member x i) = none := by
    rw [Memory.read, show (s.heap.memory.storage x).members = s.heap.members x from rfl, hn]
    rfl
  rw [hln, leaveScope_moveAssign hl hr]

theorem members_moved (hi : x < s.heap.memory.storages.length) :
    (s.setMemory { s.heap.memory.write (.member x i) v with outside := o }).heap.members x =
      (s.heap.members x).set i v :=
  congrArg PtrStorage.members (Memory.storage_modify_self hi)

theorem loadFields_cons {f : FieldDesc} {fs : List FieldDesc} {t v : f.Value} {row r' : Row fs}
    {re r1 : Reader} {s1 s2 : Loading} (hg : (f.codec size).get t re = .ok (r1, v))
    (hrf : Loading.loadRefs call x i s f v = some s1)
    (hr : Loading.loadFields call size x fs row (i + (f.refs v).length) r1 s1 = some (r', s2)) :
    Loading.loadFields call size x (f :: fs) (t, row) i re s = some ((v, r'), s2) := by
  simp only [Loading.loadFields, hg, hrf, Option.bind_some, hr, Option.map_some]
  rfl

theorem getReader_rest {σ : Type} [IDomainStorage σ] {st : σ} {q : DomainQuery}
    {data : ObjectData} (load : (load st q).data? = some data) :
    (Loading.getReader st q).rest = data ++ [] := by
  rw [Loading.getReader, DomainLoad.data?_eq_some.mp load, append_nil]
  rfl

end

theorem Stored.factory {σ : Type} [IDomainStorage σ] {st : σ} {r : Registry}
    {size : SizeType} {H : Heap} {root b : Addr}
    (hs : Stored r size H root st) (G : Persistable r H root) (hr : H.Reach root b) :
    r.getMostRelatedFactory (enumerate st (H.objId b)) = some (H.cls b) := by
  refine Registry.getMostRelatedFactory_eq (G.registered b hr) (G.final b hr) ?_ (hs.listed b hr)
  have ho := (H.cls b).classId_mem_chain r.objClass
  rw [← (H.cls b).records_classes r.objClass size (H.instances b).state] at ho
  obtain ⟨e, hm, he⟩ := mem_map.mp ho
  rw [← he]
  refine (hs.coherent (H.objId b) e.1).mpr ⟨e.2.1, ?_⟩
  rw [DomainLoad.data?_eq_some.mp (hs.recorded b hr e hm)]
  rfl

end Ae.Obj.GraphLoading
