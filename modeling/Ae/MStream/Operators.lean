/- source: mstream.h, types/{nullable_type,variant_type,statistic_counter}.h
   digest: The stream operators of each kind of type, over those of its parts. -/

import Ae.MStream.VectorReader
import Mathlib.Data.List.Pairwise
import Mathlib.Data.List.FinRange
import Mathlib.Data.Vector.Basic

set_option autoImplicit false

namespace Ae.MStream.Operators
open List VectorReader

/-- A type with both stream operators: its value-initialised object, what `<<` writes, and
what `>>` leaves in a target. An object that the source reads into without initialising it
starts as the value-initialised one here. -/
structure Codec (α : Type) where
  init : α
  put : α → List UInt8
  get : α → Reader → Outcome α

/-- The object representation of a scalar of `w` bytes. -/
abbrev Bytes (w : Nat) := { bytes : List UInt8 // bytes.length = w }

def zeros (w : Nat) : Bytes w := ⟨List.replicate w 0, length_replicate⟩

def ofRaw (w : Nat) (bytes : List UInt8) : Bytes w :=
  if h : bytes.length = w then ⟨bytes, h⟩ else zeros w

/-- `s.read(&v, sizeof(T))`: a refused read leaves the target alone. -/
def readRaw (w : Nat) (target : Bytes w) (r : Reader) : Reader × Bytes w :=
  match r.read w with
  | (r, none) => (r, target)
  | (r, some bytes) => (r, ofRaw w bytes)

def int (w : Nat) : Codec (Bytes w) where
  init := zeros w
  put v := v.1
  get target r := .ok (readRaw w target r)

def enum (w : Nat) : Codec (Bytes w) where
  init := zeros w
  put v := v.1
  get target r :=
    let (r, t) := readRaw w (zeros w) r
    .ok (r, if r.result = .yes then t else target)

def boolean : Codec Bool where
  init := false
  put v := if v then [1] else [0]
  get _ r :=
    match r.read 1 with
    | (r, none) => .ok (r, false)
    | (r, some temp) => .ok (r, decide (temp = [1]))

def resizeTo {α : Type} (init : α) (n : Nat) (t : List α) : List α :=
  t.take n ++ List.replicate (n - t.length) init

def slices (w : Nat) : Nat → List UInt8 → List (Bytes w)
  | 0, _ => []
  | n + 1, bytes => ofRaw w (bytes.take w) :: slices w n (bytes.drop w)

@[simp] theorem slices_length (w n : Nat) (bs : List UInt8) : (slices w n bs).length = n := by
  induction n generalizing bs with
  | zero => rfl
  | succ n ih => simp [slices, ih]

def string (size : SizeType) : Codec (List UInt8) where
  init := []
  put t := size.encode t.length ++ t
  get t r :=
    match r.readSize size with
    | (r, none) => .ok (r, t)
    | (r, some n) => (r.resize n n).bind fun r =>
      match r.read n with
      | (r, none) => .ok (r, resizeTo 0 n t)
      | (r, some bytes) => .ok (r, bytes)

def scalarVector (size : SizeType) (w : Nat) : Codec (List (Bytes w)) where
  init := []
  put t := size.encode t.length ++ t.flatMap Subtype.val
  get t r :=
    match r.readSize size with
    | (r, none) => .ok (r, t)
    | (r, some n) => (r.resize n (n * w)).bind fun r =>
      match r.read (n * w) with
      | (r, none) => .ok (r, resizeTo (zeros w) n t)
      | (r, some bytes) => .ok (r, slices w n bytes)

def scalarArray (n w : Nat) : Codec (List.Vector (Bytes w) n) where
  init := List.Vector.replicate n (zeros w)
  put t := t.toList.flatMap Subtype.val
  get t r :=
    match r.read (n * w) with
    | (r, none) => .ok (r, t)
    | (r, some bytes) => .ok (r, ⟨slices w n bytes, slices_length w n bytes⟩)

def boolArray (n : Nat) : Codec (List.Vector Bool n) where
  init := List.Vector.replicate n false
  put t := t.toList.flatMap boolean.put
  get t r :=
    match r.read n with
    | (r, none) => .ok (r, t)
    | (r, some bytes) =>
      .ok (r, ⟨(slices 1 n bytes).map (fun b => decide (b.1 ≠ [0])), by simp⟩)

section

variable {α β : Type}

/-- The loop over elements that are there already: it ends at the first one that was not
read. -/
def getEach (c : Codec α) : List α → Reader → Outcome (List α)
  | [], r => .ok (r, [])
  | v :: vs, r => (c.get v r).bind fun (r, v) =>
    if r.result = .no then .ok (r, v :: vs)
    else (getEach c vs r).bind fun (r, vs) => .ok (r, v :: vs)

def vector (size : SizeType) (c : Codec α) : Codec (List α) where
  init := []
  put t := size.encode t.length ++ t.flatMap c.put
  get t r :=
    match r.readSize size with
    | (r, none) => .ok (r, t)
    | (r, some n) => (r.resize n n).bind fun r => getEach c (resizeTo c.init n t) r

theorem getEach_length (c : Codec α) (t : List α) {r r' : Reader} {t' : List α}
    (h : getEach c t r = .ok (r', t')) : t'.length = t.length := by
  induction t generalizing r r' t' with
  | nil =>
    simp only [getEach, Except.ok.injEq, Prod.mk.injEq] at h
    rw [← h.2]
  | cons v vs ih =>
    simp only [getEach, Except.bind] at h
    split at h
    · cases h
    · split at h
      · simp only [Except.ok.injEq, Prod.mk.injEq] at h
        rw [← h.2]
        rfl
      · split at h
        · cases h
        · rename_i rest
          simp only [Except.ok.injEq, Prod.mk.injEq] at h
          rw [← h.2, length_cons, length_cons, ih rest]

def array (n : Nat) (c : Codec α) : Codec (List.Vector α n) where
  init := List.Vector.replicate n c.init
  put t := t.toList.flatMap c.put
  get t r :=
    match h : getEach c t.1 r with
    | .error stop => .error stop
    | .ok (r, t') => .ok (r, ⟨t', (getEach_length c t.1 h).trans t.2⟩)

/-- The loop of `std::list`, whose counter has 32 bits whatever the size type is. -/
def listLoop (c : Codec α) (size : Nat) : Nat → UInt32 → List α → Reader → Outcome (List α)
  | 0, _, _, r => .error (.endless r)
  | fuel + 1, i, t, r =>
    if i.toNat < size then (c.get c.init r).bind fun (r, v) =>
      if r.result = .no then .ok (r, t)
      else listLoop c size fuel (i + 1) (t ++ [v]) (r.spend 1)
    else .ok (r, t)

/-- `std::list`. A loop that outlasts both the counter and the input makes no way: it reads
elements of no bytes for ever. -/
def list (size : SizeType) (c : Codec α) : Codec (List α) where
  init := []
  put t := size.encode t.length ++ t.flatMap c.put
  get t r :=
    match r.readSize size with
    | (r, none) => .ok (r, t)
    | (r, some n) => listLoop c n (min n (2 ^ 32) + r.rest.length + 2) 0 [] r

def pair (a : Codec α) (b : Codec β) : Codec (α × β) where
  init := (a.init, b.init)
  put v := a.put v.1 ++ b.put v.2
  get t r := (a.get t.1 r).bind fun (r, first) =>
    (b.get t.2 r).bind fun (r, second) => .ok (r, (first, second))

end

structure KeyOrder (α : Type) where
  less : α → α → Bool
  trans : ∀ a b c, less a b = true → less b c = true → less a c = true

/-- `std::map`: its entries in the order of their keys. -/
abbrev OrderedMap {α : Type} (order : KeyOrder α) (β : Type) :=
  { entries : List (α × β) // entries.Pairwise (fun a b => order.less a.1 b.1 = true) }

section

variable {α β : Type} {order : KeyOrder α}

def insertEntry (order : KeyOrder α) (kv : α × β) : List (α × β) → List (α × β)
  | [] => [kv]
  | e :: es =>
    if order.less e.1 kv.1 then e :: insertEntry order kv es
    else if order.less kv.1 e.1 then kv :: e :: es
    else e :: es

theorem mem_insertEntry {kv e : α × β} {es : List (α × β)} (h : e ∈ insertEntry order kv es) :
    e = kv ∨ e ∈ es := by
  induction es with
  | nil => exact .inl (mem_singleton.mp h)
  | cons x es ih =>
    rw [insertEntry] at h
    split at h
    · rcases mem_cons.mp h with rfl | later
      · exact .inr mem_cons_self
      · exact (ih later).imp_right (mem_cons_of_mem x)
    · split at h
      · exact mem_cons.mp h
      · exact .inr h

theorem insertEntry_ordered {kv : α × β} {es : List (α × β)}
    (h : es.Pairwise (fun a b => order.less a.1 b.1 = true)) :
    (insertEntry order kv es).Pairwise (fun a b => order.less a.1 b.1 = true) := by
  induction es with
  | nil => exact pairwise_singleton _ _
  | cons x es ih =>
    obtain ⟨h1, hl⟩ := pairwise_cons.mp h
    rw [insertEntry]
    split
    · rename_i ha
      refine pairwise_cons.mpr ⟨?_, ih hl⟩
      intro e hm
      rcases mem_insertEntry hm with rfl | old
      · exact ha
      · exact h1 e old
    · split
      · rename_i hb
        refine pairwise_cons.mpr ⟨?_, h⟩
        intro e hm
        rcases mem_cons.mp hm with rfl | old
        · exact hb
        · exact order.trans _ _ _ hb (h1 e old)
      · exact h

def emplace (m : OrderedMap order β) (kv : α × β) : OrderedMap order β :=
  ⟨insertEntry order kv m.1, insertEntry_ordered m.2⟩

def emptyMap : OrderedMap order β := ⟨[], List.Pairwise.nil⟩

def mapLoop (c : Codec (α × β)) : Nat → OrderedMap order β → Reader → Outcome (OrderedMap order β)
  | 0, m, r => .ok (r, m)
  | n + 1, m, r => (c.get c.init r).bind fun (r, kv) =>
    if r.result = .no then .ok (r, m)
    else mapLoop c n (emplace m kv) (r.spend 1)

def map (size : SizeType) (order : KeyOrder α) (a : Codec α) (b : Codec β) :
    Codec (OrderedMap order β) where
  init := emptyMap
  put t := size.encode t.1.length ++ t.1.flatMap (pair a b).put
  get t r :=
    match r.readSize size with
    | (r, none) => .ok (r, t)
    | (r, some n) => mapLoop (pair a b) n emptyMap r

end

section

variable {α : Type}

/-- `std::optional`, `std::unique_ptr` and `std::shared_ptr`: nothing is written for an
absent value but its mark, and reading that mark leaves the target alone. -/
def optionalValue (c : Codec α) : Codec (Option α) where
  init := none
  put
    | none => boolean.put false
    | some v => boolean.put true ++ c.put v
  get t r := (boolean.get false r).bind fun (r, hasValue) =>
    if r.result = .no then .ok (r, t)
    else if hasValue then (c.get c.init r).bind fun (r, temp) =>
      .ok (r, if r.result = .yes then some temp else t)
    else .ok (r, t)

def alternativeAt (n tag : Nat) : Option (Fin (n + 1)) :=
  if known : tag < n + 1 then some ⟨tag, known⟩ else none

def variant {n : Nat} {A : Fin (n + 1) → Type} (alts : (i : Fin (n + 1)) → Codec (A i)) :
    Codec (Option ((i : Fin (n + 1)) × A i)) where
  init := some ⟨0, (alts 0).init⟩
  put
    | none => [255]
    | some ⟨i, v⟩ => UInt8.ofNat i :: (alts i).put v
  get t r :=
    match readRaw 1 (zeros 1) r with
    | (r, tag) =>
      let tag := (tag.1.headD 0).toNat
      if r.result = .no then .ok (r, t)
      -- valueless sentinel, no payload follows
      else if tag = 255 then .ok (r, t)
      else match alternativeAt n tag with
        | none => .ok (r.refuse, t)
        | some i => ((alts i).get (alts i).init r).bind fun (r, alternative) =>
          .ok (if r.result = .no then r.refuse else r, some ⟨i, alternative⟩)

/-- `GetOrderByIndex`: the last alternative with that index, the first one for none. -/
def orderByIndex {n w : Nat} (tags : Fin (n + 1) → Bytes w) (index : Bytes w) : Fin (n + 1) :=
  (List.finRange (n + 1)).foldl (fun order i => if index = tags i then i else order) 0

def loadElement {n : Nat} {A : Fin (n + 1) → Type} (alts : (i : Fin (n + 1)) → Codec (A i))
    (order : Fin (n + 1)) (r : Reader) : Outcome (Option ((i : Fin (n + 1)) × A i)) :=
  ((alts order).get (alts order).init r).bind fun (r, t) => .ok (r, some ⟨order, t⟩)

def variantType {n w : Nat} {A : Fin (n + 1) → Type} (tags : Fin (n + 1) → Bytes w)
    (alts : (i : Fin (n + 1)) → Codec (A i)) : Codec (Option ((i : Fin (n + 1)) × A i)) where
  init := some ⟨0, (alts 0).init⟩
  put
    | none => (zeros w).1
    | some ⟨i, v⟩ => (tags i).1 ++ (alts i).put v
  get _ r :=
    match readRaw w (zeros w) r with
    | (r, index) => loadElement alts (orderByIndex tags index) r

end

section

variable {α β : Type}

def noFields : Codec Unit where
  init := ()
  put _ := []
  get _ r := .ok (r, ())

/-- A reflected record: one field with its default member value, then the others. -/
def field (c : Codec α) (init : α) (others : Codec β) : Codec (α × β) :=
  { pair c others with init := (init, others.init) }

/-- The fields of a `NullableType`, with the bits of its mask from the lowest on. -/
structure Masked (β : Type) where
  init : β
  mask : β → Nat
  put : β → List UInt8
  get : Nat → β → Reader → Outcome β

def noMaskedFields : Masked Unit where
  init := ()
  mask _ := 0
  put _ := []
  get _ _ r := .ok (r, ())

def maskedField (c : Codec α) (init : α) (others : Masked β) : Masked (α × β) where
  init := (init, others.init)
  mask v := 2 * others.mask v.2
  put v := c.put v.1 ++ others.put v.2
  get mask t r := (c.get t.1 r).bind fun (r, value) =>
    (others.get (mask / 2) t.2 r).bind fun (r, values) => .ok (r, (value, values))

def maskedOptional (c : Codec α) (init : Option α) (others : Masked β) : Masked (Option α × β) where
  init := (init, others.init)
  mask v := (if v.1.isNone then 1 else 0) + 2 * others.mask v.2
  put v := (match v.1 with | none => [] | some value => c.put value) ++ others.put v.2
  get mask t r :=
    if mask % 2 = 1 then
      (others.get (mask / 2) t.2 r).bind fun (r, values) => .ok (r, (t.1, values))
    else (c.get c.init r).bind fun (r, value) =>
      (others.get (mask / 2) t.2 r).bind fun (r, values) => .ok (r, (some value, values))

def nullable (fields : Masked β) : Codec β where
  init := fields.init
  put v := UInt8.ofNat (fields.mask v) :: fields.put v
  get t r :=
    match readRaw 1 (zeros 1) r with
    | (r, mask) => fields.get (mask.1.headD 0).toNat t r

end

abbrev Window (cap : Nat) (α : Type) := { values : List α // values.length ≤ cap }

section

variable {α : Type} {cap : Nat}

def push (pos : 0 < cap) (values : Window cap α) (v : α) : Window cap α :=
  if h : values.1.length < cap then
    ⟨values.1 ++ [v], by rw [length_append]; exact h⟩
  else
    ⟨values.1.drop 1 ++ [v], by
      have := values.2
      rw [length_append, length_drop, length_singleton]
      omega⟩

def pushLoop (c : Codec α) (pos : 0 < cap) : Nat → Window cap α → Reader → Outcome (Window cap α)
  | 0, values, r => .ok (r, values)
  | n + 1, values, r => (c.get c.init r).bind fun (r, temp) =>
    pushLoop c pos n (push pos values temp) (r.spend 1)

def statistics (size : SizeType) (c : Codec α) (pos : 0 < cap) : Codec (Window cap α) where
  init := ⟨[], Nat.zero_le _⟩
  put t := size.encode t.1.length ++ t.1.flatMap c.put
  get t r :=
    match r.readSize size with
    | (r, none) => .ok (r, t)
    | (r, some n) => pushLoop c pos (min n cap) t r

end

end Ae.MStream.Operators
