/- source: mstream.h, types/{nullable_type,variant_type,statistic_counter}.h
   digest: The types that the stream operators are put together for, nested to any depth. -/

import Ae.MStream.Operators

set_option autoImplicit false

namespace Ae.MStream.TypeDesc
open VectorReader Operators

inductive Kind where
  | scalar
  | compound

mutual

inductive Desc : Kind → Type → Type 1
  | int (w : Nat) (pos : 0 < w) : Desc .scalar (Bytes w)
  | enum (w : Nat) (pos : 0 < w) : Desc .scalar (Bytes w)
  | bool : Desc .scalar Bool
  | string : Desc .compound (List UInt8)
  | scalarVector (w : Nat) (pos : 0 < w) : Desc .compound (List (Bytes w))
  | scalarArray (n w : Nat) (pos : 0 < w) : Desc .compound (List.Vector (Bytes w) n)
  | boolArray (n : Nat) : Desc .compound (List.Vector Bool n)
  | vector {α : Type} (e : Desc .compound α) : Desc .compound (List α)
  | deque {k : Kind} {α : Type} (e : Desc k α) : Desc .compound (List α)
  | array {α : Type} (n : Nat) (e : Desc .compound α) : Desc .compound (List.Vector α n)
  | list {k : Kind} {α : Type} (e : Desc k α) : Desc .compound (List α)
  | pair {j k : Kind} {α β : Type} (a : Desc j α) (b : Desc k β) : Desc .compound (α × β)
  | map {j k : Kind} {α β : Type} (order : KeyOrder α) (a : Desc j α) (b : Desc k β) :
      Desc .compound (OrderedMap order β)
  | optional {k : Kind} {α : Type} (e : Desc k α) : Desc .compound (Option α)
  | uniquePtr {k : Kind} {α : Type} (e : Desc k α) : Desc .compound (Option α)
  | sharedPtr {k : Kind} {α : Type} (e : Desc k α) : Desc .compound (Option α)
  | variant {n : Nat} {K : Fin (n + 1) → Kind} {A : Fin (n + 1) → Type} (few : n + 1 ≤ 255)
      (alts : (i : Fin (n + 1)) → Desc (K i) (A i)) :
      Desc .compound (Option ((i : Fin (n + 1)) × A i))
  | variantType {n w : Nat} {K : Fin (n + 1) → Kind} {A : Fin (n + 1) → Type}
      (tags : Fin (n + 1) → Bytes w) (pos : 0 < w) (distinct : ∀ i j, tags i = tags j → i = j)
      (alts : (i : Fin (n + 1)) → Desc (K i) (A i)) :
      Desc .compound (Option ((i : Fin (n + 1)) × A i))
  | record {n : Nat} {β : Type} (fields : Fields n β) : Desc .compound β
  | nullable {n : Nat} {β : Type} (few : n ≤ 8) (fields : Fields n β) : Desc .compound β
  | statistics {k : Kind} {α : Type} (cap : Nat) (pos : 0 < cap) (e : Desc k α) :
      Desc .compound (Window cap α)

/-- The fields of a reflected record, each with its default member value; those of type
`std::optional` are told apart, since a `NullableType` does. -/
inductive Fields : Nat → Type → Type 1
  | nil : Fields 0 Unit
  | plain {n : Nat} {k : Kind} {α β : Type} (e : Desc k α) (init : α) (others : Fields n β) :
      Fields (n + 1) (α × β)
  | optional {n : Nat} {k : Kind} {α β : Type} (e : Desc k α) (init : Option α)
      (others : Fields n β) : Fields (n + 1) (Option α × β)

end

mutual

def Desc.codec (size : SizeType) {k : Kind} {α : Type} : Desc k α → Codec α
  | .int w _ => int w
  | .enum w _ => enum w
  | .bool => boolean
  | .string => string size
  | .scalarVector w _ => scalarVector size w
  | .scalarArray n w _ => scalarArray n w
  | .boolArray n => boolArray n
  | .vector e => vector size (e.codec size)
  | .deque e => vector size (e.codec size)
  | .array n e => array n (e.codec size)
  | .list e => list size (e.codec size)
  | .pair a b => pair (a.codec size) (b.codec size)
  | .map order a b => map size order (a.codec size) (b.codec size)
  | .optional e => optionalValue (e.codec size)
  | .uniquePtr e => optionalValue (e.codec size)
  | .sharedPtr e => optionalValue (e.codec size)
  | .variant _ alts => variant (fun i => (alts i).codec size)
  | .variantType tags _ _ alts => variantType tags (fun i => (alts i).codec size)
  | .record fields => fields.codec size
  | .nullable _ fields => nullable (fields.masked size)
  | .statistics _ pos e => statistics size (e.codec size) pos

def Fields.codec (size : SizeType) {n : Nat} {β : Type} : Fields n β → Codec β
  | .nil => noFields
  | .plain e init others => field (e.codec size) init (others.codec size)
  | .optional e init others =>
    field (optionalValue (e.codec size)) init (others.codec size)

def Fields.masked (size : SizeType) {n : Nat} {β : Type} : Fields n β → Masked β
  | .nil => noMaskedFields
  | .plain e init others => maskedField (e.codec size) init (others.masked size)
  | .optional e init others => maskedOptional (e.codec size) init (others.masked size)

end

end Ae.MStream.TypeDesc
