/- source: obj/{obj.h,obj_id.h,obj_ptr_base.{h,cpp}}
   digest: Classes of objects with their reflected fields, and what a field is read back as. -/

import Ae.DomainStorage.Storage
import Ae.MStream.RoundTrip

set_option autoImplicit false

namespace Ae.Obj.Reflection
open List
open DomainStorage.Storage MStream.VectorReader MStream.Operators MStream.TypeDesc MStream.Decoding
open MStream.RoundTrip

def unloadedByDefault : UInt8 := 1

def unloaded : UInt8 := 2

structure ObjectPtrBase where
  id : ObjId
  flags : UInt8
deriving DecidableEq, Repr

namespace ObjectPtrBase

def idRaw (id : ObjId) : List UInt8 :=
  [UInt8.ofNat id.toNat, UInt8.ofNat (id.toNat / 256), UInt8.ofNat (id.toNat / 65536),
    UInt8.ofNat (id.toNat / 16777216)]

theorem length_idRaw (id : ObjId) : (idRaw id).length = 4 := rfl

def idBytes (id : ObjId) : Bytes 4 := ⟨idRaw id, length_idRaw id⟩

def idOfRaw (bytes : List UInt8) : ObjId :=
  UInt32.ofNat (bytes.foldr (fun b higher => b.toNat + 256 * higher) 0)

theorem idOfRaw_idRaw (id : ObjId) : idOfRaw (idRaw id) = id := by
  have hs := UInt32.toNat_lt id
  refine UInt32.toNat_inj.mp ?_
  simp only [idOfRaw, idRaw, foldr_cons, foldr_nil, UInt32.toNat_ofNat', UInt8.toNat_ofNat']
  omega

def flagsBytes (flags : UInt8) : Bytes 1 := ⟨[flags], length_singleton⟩

def Loads (p : ObjectPtrBase) : Prop :=
  p.flags &&& unloadedByDefault = 0 ∧ p.flags &&& unloaded = 0

instance : DecidablePred Loads := fun _ => instDecidableAnd

/-- The stream operators of `ObjectPtrBase`, and what its constructor sets. -/
def codec : Codec ObjectPtrBase where
  init := ⟨0, unloaded⟩
  put p := (idBytes p.id).1 ++ (flagsBytes p.flags).1
  get target r :=
    let (r, id) := readRaw 4 (idBytes target.id) r
    let (r, flags) := readRaw 1 (flagsBytes target.flags) r
    .ok (r, ⟨idOfRaw id.1, flags.1.headD 0⟩)

theorem decodes (size : SizeType) : Decodes size codec atom where
  leaves p t _ r ys start := by
    have start : r.rest = (idBytes p.id).1 ++ ((flagsBytes p.flags).1 ++ ys) := by
      rw [start, ← append_assoc]
      rfl
    obtain ⟨r1, hri, -, h1⟩ := readRaw_of_rest (idBytes p.id) (idBytes t.id) start
    have ht : Consumed r r1 (idBytes p.id).1.length := h1
    have hn : r1.rest = (flagsBytes p.flags).1 ++ ys := ht.rest start
    obtain ⟨r2, hrf, -, h2⟩ :=
      readRaw_of_rest (flagsBytes p.flags) (flagsBytes t.flags) hn
    refine ⟨r2, ?_, h1.trans h2⟩
    simp only [codec, hri, hrf]
    rw [show (idBytes p.id).1 = idRaw p.id from rfl, idOfRaw_idRaw]
    rfl
  hollow p _ nothing := absurd nothing (by simp [codec, idBytes, idRaw])

end ObjectPtrBase

/-- A reflected field of a class: of a type with stream operators, with its default member
value, or an `ObjPtr`, to `Obj` itself or to a class derived from it. -/
inductive FieldDesc : Type 1
  | value {k : Kind} {α : Type} (type : Desc k α) (init : α)
  | objPtr (toObj : Bool)

namespace FieldDesc

def Value : FieldDesc → Type
  | value (α := α) _ _ => α
  | objPtr _ => ObjectPtrBase

def init : (f : FieldDesc) → f.Value
  | value _ init => init
  | objPtr _ => ObjectPtrBase.codec.init

def codec (size : SizeType) : (f : FieldDesc) → Codec f.Value
  | value type _ => type.codec size
  | objPtr _ => ObjectPtrBase.codec

def shape (size : SizeType) : (f : FieldDesc) → Shape f.Value
  | value type _ => descShape size type
  | objPtr _ => atom

theorem decodes (size : SizeType) : (f : FieldDesc) → Decodes size (f.codec size) (f.shape size)
  | value t _ => desc_decodes size t
  | objPtr _ => ObjectPtrBase.decodes size

def refs : (f : FieldDesc) → f.Value → List ObjectPtrBase
  | value _ _, _ => []
  | objPtr _, p => [p]

end FieldDesc

def Row : List FieldDesc → Type
  | [] => Unit
  | f :: fields => f.Value × Row fields

namespace Row

def init : (fields : List FieldDesc) → Row fields
  | [] => ()
  | f :: fields => (f.init, init fields)

def bytes (size : SizeType) : (fields : List FieldDesc) → Row fields → ObjectData
  | [], _ => []
  | f :: fields, (v, row) => (f.codec size).put v ++ bytes size fields row

def refs : (fields : List FieldDesc) → Row fields → List ObjectPtrBase
  | [], _ => []
  | f :: fields, (v, row) => f.refs v ++ refs fields row

def merged (size : SizeType) : (fields : List FieldDesc) → Row fields → Row fields
  | [], _ => ()
  | f :: fields, (v, row) => ((f.shape size).merge v f.init, merged size fields row)

/-- No default member value shows through the values of the fields. -/
def Speaks (size : SizeType) : (fields : List FieldDesc) → Row fields → Prop
  | [], _ => True
  | f :: fields, (v, row) => (f.shape size).speaks v f.init ∧ Speaks size fields row

/-- Sizes fit, lists can be counted and each `VariantType` holds a value. -/
def Good (size : SizeType) : (fields : List FieldDesc) → Row fields → Prop
  | [], _ => True
  | f :: fields, (v, row) =>
    (∀ site ∈ (f.shape size).sites v, site.Good size) ∧ Good size fields row

theorem merged_eq_iff (size : SizeType) : (fs : List FieldDesc) → (row : Row fs) →
    (merged size fs row = row ↔ Speaks size fs row)
  | [], _ => iff_of_true rfl trivial
  | f :: fs, (v, row) => Prod.mk_inj.trans <|
    and_congr ((f.shape size).merge_eq_iff v f.init) (merged_eq_iff size fs row)

theorem length_refs : (fs : List FieldDesc) → (row : Row fs) →
    (refs fs row).length = (refs fs (init fs)).length
  | [], _ => rfl
  | .value _ _ :: fs, (_, row) => length_refs fs row
  | .objPtr _ :: fs, (_, row) => congrArg (· + 1) (length_refs fs row)

end Row

/-- A class of objects: `Obj`, or a class with its id and version, its base and its own
reflected fields, of which the base is visited first. -/
inductive ClassDesc : Type 1
  | obj
  | derived (classId : ClassId) (version : Version) (base : ClassDesc) (fields : List FieldDesc)

namespace ClassDesc

def State : ClassDesc → Type
  | obj => Unit
  | derived _ _ base fields => base.State × Row fields

def init : (cls : ClassDesc) → cls.State
  | obj => ()
  | derived _ _ base fields => (base.init, Row.init fields)

def refs : (cls : ClassDesc) → cls.State → List ObjectPtrBase
  | obj, _ => []
  | derived _ _ base fields, (state, row) => base.refs state ++ Row.refs fields row

def refCount : ClassDesc → Nat
  | obj => 0
  | derived _ _ base fields => base.refCount + (Row.refs fields (Row.init fields)).length

def merged (size : SizeType) : (cls : ClassDesc) → cls.State → cls.State
  | obj, _ => ()
  | derived _ _ base fields, (state, row) => (base.merged size state, Row.merged size fields row)

def Speaks (size : SizeType) : (cls : ClassDesc) → cls.State → Prop
  | obj, _ => True
  | derived _ _ base fields, (state, row) => base.Speaks size state ∧ Row.Speaks size fields row

def Good (size : SizeType) : (cls : ClassDesc) → cls.State → Prop
  | obj, _ => True
  | derived _ _ base fields, (state, row) => base.Good size state ∧ Row.Good size fields row

theorem merged_eq_iff (size : SizeType) : (cls : ClassDesc) → (s : cls.State) →
    (cls.merged size s = s ↔ cls.Speaks size s)
  | obj, _ => iff_of_true rfl trivial
  | derived _ _ base fields, (s, row) => Prod.mk_inj.trans <|
    and_congr (base.merged_eq_iff size s) (Row.merged_eq_iff size fields row)

theorem length_refs : (cls : ClassDesc) → (s : cls.State) → (cls.refs s).length = cls.refCount
  | obj, _ => rfl
  | derived _ _ base fields, (s, row) => by
    rw [refs, refCount, length_append, base.length_refs, Row.length_refs]

section

-- `Obj::kClassId`, a checksum of the name
variable (objClass : ClassId)

def classId : ClassDesc → ClassId
  | obj => objClass
  | derived classId _ _ _ => classId

def chain : ClassDesc → List ClassId
  | obj => [objClass]
  | derived classId _ base _ => classId :: base.chain

theorem classId_mem_chain (cls : ClassDesc) : cls.classId objClass ∈ cls.chain objClass := by
  cases cls <;> exact mem_cons_self

def records (size : SizeType) :
    (cls : ClassDesc) → cls.State → List (ClassId × Version × ObjectData)
  | obj, _ => [(objClass, 0, [])]
  | derived classId version base fields, (state, row) =>
    (classId, version, Row.bytes size fields row) :: base.records size state

theorem records_classes (size : SizeType) : (cls : ClassDesc) → (s : cls.State) →
    (cls.records objClass size s).map Prod.fst = cls.chain objClass
  | obj, _ => rfl
  | derived classId _ base _, (s, _) =>
    congrArg (classId :: ·) (base.records_classes size s)

end

end ClassDesc

end Ae.Obj.Reflection
