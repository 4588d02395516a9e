/- source: obj/{domain.{h,cpp},obj.cpp,obj_ptr.h}
   digest: The table of live objects of a domain over constructions and destructions. -/

import Ae.DomainStorage.Storage
import Ae.Lib.EventRun
import Ae.Ptr.ReferenceTree

set_option autoImplicit false

namespace Ae.Obj.DomainTable
open DomainStorage.Storage (ObjId StdMap)
open List Lib.EventRun
open Ptr.ReferenceTree (Addr)
open Option

abbrev IdObjects := StdMap ObjId Addr

namespace IdObjects

/-- `Find`: the view under an id is locked, which gives an object only while it is alive. -/
def find (table : IdObjects) (alive : Addr → Bool) (id : ObjId) : Option Addr :=
  (table.lookup id).filter alive

def addObject (table : IdObjects) (id : ObjId) (a : Addr) : IdObjects := table.insert id a

def removeObject (table : IdObjects) (id : ObjId) : IdObjects := table.erase id

end IdObjects

/-- An object is alive while a `Ptr` holds it. Once none does, the destructors of its class
and of its members run before that of `Obj`. -/
inductive Life where
  | alive
  | ending
  | ended
deriving DecidableEq, Repr

structure Object where
  /-- `obj->domain` is this domain, not another one or null. -/
  here : Bool
  objId : ObjId
  life : Life
deriving DecidableEq, Repr

/-- A domain, the objects made so far, and a history that the code does not keep: what was
added under which id, latest first. -/
structure Domain where
  objects : List Object
  idObjects : IdObjects
  added : List (ObjId × Addr)
  known : ∀ entry ∈ added, entry.2 < objects.length
  listed : ∀ id a, idObjects.lookup id = some a → (id, a) ∈ added

namespace Domain

theorem known_nil {n : Nat} : ∀ e ∈ ([] : List (ObjId × Addr)), e.2 < n := by
  simp

theorem listed_empty (id : ObjId) (a : Addr) (hf : (∅ : IdObjects).lookup id = some a) :
    (id, a) ∈ ([] : List (ObjId × Addr)) := by
  simp at hf

def empty : Domain := ⟨[], ∅, [], known_nil, listed_empty⟩

variable (s : Domain)

def alive (a : Addr) : Bool := (s.objects[a]?).any fun o => o.life = .alive

def find (id : ObjId) : Option Addr := s.idObjects.find s.alive id

theorem known_make (o : Object) : ∀ e ∈ s.added, e.2 < (s.objects ++ [o]).length := by
  intro e hm
  rw [length_append]
  exact Nat.lt_add_right _ (s.known e hm)

def make (o : Object) : Domain :=
  { s with
    objects := s.objects ++ [o]
    known := s.known_make o }

theorem known_add (id : ObjId) {a : Addr} (ht : a < s.objects.length) :
    ∀ e ∈ (id, a) :: s.added, e.2 < s.objects.length := by
  intro e hm
  rcases mem_cons.mp hm with rfl | old
  · exact ht
  · exact s.known e old

theorem listed_add (id : ObjId) (a : Addr) (id' : ObjId) (a' : Addr)
    (hf : (s.idObjects.addObject id a).lookup id' = some a') : (id', a') ∈ (id, a) :: s.added := by
  unfold IdObjects.addObject at hf
  by_cases same : id' = id
  · subst same
    rw [AList.lookup_insert, some.injEq] at hf
    exact hf ▸ mem_cons_self
  · rw [AList.lookup_insert_ne same] at hf
    exact mem_cons_of_mem _ (s.listed id' a' hf)

def addObject (id : ObjId) (a : Addr) : Domain :=
  if there : a < s.objects.length then
    { s with
      idObjects := s.idObjects.addObject id a
      added := (id, a) :: s.added
      known := s.known_add id there
      listed := s.listed_add id a }
  else s

def constructObj (id : ObjId) : Domain × Addr :=
  ((s.make ⟨true, id, .alive⟩).addObject id s.objects.length, s.objects.length)

/-- What both loads do for valid ids, up to the loads of the references of the new object,
which are events of their own; `found` is whether `GetMostRelatedFactory` finds a factory. -/
def findOrConstruct (id : ObjId) (found : Bool) : Domain × Option Addr :=
  match s.find id with
  | some a => (s, some a)
  | none => if found then ((s.constructObj id).1, some (s.constructObj id).2) else (s, none)

def loadRoot (id : ObjId) (found : Bool) : Domain × Option Addr :=
  if id = 0 then (s, none) else s.findOrConstruct id found

def loadCopy (refId copyId : ObjId) (found : Bool) : Domain × Option Addr :=
  if refId = 0 ∨ copyId = 0 then (s, none) else s.findOrConstruct copyId found

theorem known_become (a : Addr) (life : Life) :
    ∀ e ∈ s.added, e.2 < (s.objects.modify a fun o => { o with life := life }).length := by
  simpa only [length_modify] using s.known

def become (a : Addr) (life : Life) : Domain :=
  { s with
    objects := s.objects.modify a fun o => { o with life := life }
    known := s.known_become a life }

theorem listed_remove (id id' : ObjId) (a : Addr)
    (hf : (s.idObjects.removeObject id).lookup id' = some a) : (id', a) ∈ s.added := by
  unfold IdObjects.removeObject at hf
  by_cases same : id' = id
  · subst same
    rw [AList.lookup_erase] at hf
    cases hf
  · rw [AList.lookup_erase_ne same] at hf
    exact s.listed id' a hf

def removeObject (id : ObjId) : Domain :=
  { s with
    idObjects := s.idObjects.removeObject id
    listed := s.listed_remove id }

def destruct (a : Addr) : Domain :=
  match s.objects[a]? with
  | none => s
  | some o => if o.here then (s.become a .ended).removeObject o.objId else s.become a .ended

def latest (id : ObjId) : Option Addr :=
  (s.added.find? fun entry => entry.1 = id).map Prod.snd

/-- What `Find` is for: the object added last under an id, as long as it is alive. -/
def current (id : ObjId) : Option Addr := (s.latest id).filter s.alive

def Accurate : Prop := ∀ id, s.find id = s.current id

section

variable {s : Domain} {a b : Addr} {id id' : ObjId}

theorem latest_lt (hf : s.latest id = some a) : a < s.objects.length := by
  rw [latest, map_eq_some_iff] at hf
  obtain ⟨e, hf, rfl⟩ := hf
  exact s.known e (mem_of_find?_eq_some hf)

theorem lookup_lt (hf : s.idObjects.lookup id = some a) : a < s.objects.length :=
  s.known _ (s.listed id a hf)

theorem filter_agree {f : Option Addr} {p q : Addr → Bool}
    (ha : ∀ a, f = some a → p a = q a) : f.filter p = f.filter q := by
  cases f with
  | none => rfl
  | some a => rw [filter_some, filter_some, ha a rfl]

theorem alive_make {o : Object} (ht : a < s.objects.length) : (s.make o).alive a = s.alive a := by
  rw [alive, alive, make, getElem?_append_left ht]

theorem accurate_make (ha : s.Accurate) (o : Object) : (s.make o).Accurate := by
  intro id
  have hf : (s.make o).find id = s.find id :=
    filter_agree fun a hm => alive_make (lookup_lt hm)
  have hw : (s.make o).current id = s.current id :=
    filter_agree fun a hm => alive_make (latest_lt hm)
  rw [hf, hw, ha]

theorem find_add (ht : a < s.objects.length) :
    (s.addObject id a).find id' = if id' = id then (some a).filter s.alive else s.find id' := by
  rw [addObject, dif_pos ht]
  unfold find IdObjects.find IdObjects.addObject
  by_cases same : id' = id
  · subst same
    rw [if_pos rfl, AList.lookup_insert]
    rfl
  · rw [if_neg same, AList.lookup_insert_ne same]
    rfl

theorem current_add (ht : a < s.objects.length) :
    (s.addObject id a).current id' =
      if id' = id then (some a).filter s.alive else s.current id' := by
  rw [addObject, dif_pos ht]
  unfold current latest
  by_cases he : id' = id
  · subst he
    rw [if_pos rfl, find?_cons_of_pos (by simp)]
    rfl
  · rw [if_neg he, find?_cons_of_neg (by simp [Ne.symm he])]
    rfl

theorem accurate_add (ha : s.Accurate) (id : ObjId) (a : Addr) : (s.addObject id a).Accurate := by
  by_cases there : a < s.objects.length
  · intro id'
    rw [find_add there, current_add there, ha]
  · rw [addObject, dif_neg there]
    exact ha

theorem accurate_construct (ha : s.Accurate) (id : ObjId) : (s.constructObj id).1.Accurate :=
  accurate_add (accurate_make ha _) id _

theorem alive_become {l : Life} (hg : l ≠ .alive) :
    (s.become a l).alive b = (s.alive b && decide (b ≠ a)) := by
  rw [alive, alive, become, getElem?_modify]
  by_cases same : a = b
  · subst same
    cases s.objects[a]? <;> simp [hg]
  · simp [same, Ne.symm same]

theorem filter_become {l : Life} (hg : l ≠ .alive) (f : Option Addr) :
    f.filter (s.become a l).alive = (f.filter s.alive).filter fun b => b ≠ a := by
  rw [Option.filter_filter]
  exact filter_agree fun b _ => by rw [alive_become hg, Bool.and_comm]

theorem accurate_become {l : Life} (hg : l ≠ .alive) (ha : s.Accurate) (a : Addr) :
    (s.become a l).Accurate := by
  intro id
  have he := congrArg (Option.filter fun b => decide (b ≠ a)) (ha id)
  rw [find, current, IdObjects.find, filter_become hg, filter_become hg]
  exact he

theorem find_remove : (s.removeObject id).find id' = if id' = id then none else s.find id' := by
  unfold find IdObjects.find removeObject IdObjects.removeObject
  by_cases same : id' = id
  · subst same
    rw [if_pos rfl, AList.lookup_erase]
    rfl
  · rw [if_neg same, AList.lookup_erase_ne same]
    rfl

theorem accurate_remove_iff (ha : s.Accurate) :
    (s.removeObject id).Accurate ↔ s.current id = none := by
  constructor
  · intro hk
    have hai := hk id
    rw [find_remove, if_pos rfl] at hai
    exact hai.symm
  · intro hg id'
    rw [find_remove]
    split
    · rename_i he
      rw [he]
      exact hg.symm
    · exact ha id'

end

end Domain

open Domain

/-- What happens to the objects of a program with a domain. An object ends in two events: the
last `Ptr` to it goes, and later its destructor comes to that of `Obj`. -/
inductive Event where
  | makeObj (here : Bool) (id : ObjId)
  | addObject (id : ObjId) (a : Addr)
  | constructObj (id : ObjId)
  | loadRoot (id : ObjId) (found : Bool)
  | loadCopy (refId copyId : ObjId) (found : Bool)
  | release (a : Addr)
  | destruct (a : Addr)
deriving DecidableEq, Repr

def step (s : Domain) : Event → Domain
  | .makeObj here id => s.make ⟨here, id, .alive⟩
  | .addObject id a => s.addObject id a
  | .constructObj id => (s.constructObj id).1
  | .loadRoot id found => (s.loadRoot id found).1
  | .loadCopy refId copyId found => (s.loadCopy refId copyId found).1
  | .release a => s.become a .ending
  | .destruct a => s.destruct a

/-- Objects are added and released while alive and destructed once released. -/
def Admitted (s : Domain) : Event → Prop
  | .addObject _ a => s.alive a = true
  | .release a => s.alive a = true
  | .destruct a => ((s.objects[a]?).any fun o => o.life = .ending) = true
  | _ => True

/-- An object of the domain is destructed only while nothing alive was last added under its
id. -/
def Unshadowed (s : Domain) : Event → Prop
  | .destruct a => ∀ o ∈ s.objects[a]?, o.here = true → s.current o.objId = none
  | _ => True

/-- A load of an id with an object alive gives that object and makes none. -/
def LoadsOnce (s : Domain) : Event → Prop
  | .loadRoot id found => id ≠ 0 → ∀ a, s.current id = some a → s.loadRoot id found = (s, some a)
  | .loadCopy refId copyId found => refId ≠ 0 → copyId ≠ 0 → ∀ a, s.current copyId = some a →
      s.loadCopy refId copyId found = (s, some a)
  | _ => True

instance (s : Domain) : DecidablePred (Admitted s)
  | .makeObj _ _ => isTrue trivial
  | .addObject _ _ => inferInstanceAs (Decidable (_ = _))
  | .constructObj _ | .loadRoot _ _ | .loadCopy _ _ _ => isTrue trivial
  | .release _ | .destruct _ => inferInstanceAs (Decidable (_ = _))

instance (s : Domain) : DecidablePred (Unshadowed s)
  | .makeObj _ _ | .addObject _ _ | .constructObj _ | .loadRoot _ _ | .loadCopy _ _ _
  | .release _ => isTrue trivial
  | .destruct _ => inferInstanceAs (Decidable (∀ o ∈ _, _))

section

variable {s : Domain}

theorem findOrConstruct_accurate (ha : s.Accurate) (id : ObjId) (f : Bool) :
    (s.findOrConstruct id f).1.Accurate := by
  rw [findOrConstruct]
  split
  · exact ha
  split
  · exact accurate_construct ha id
  · exact ha

theorem loadRoot_accurate (ha : s.Accurate) (id : ObjId) (f : Bool) :
    (s.loadRoot id f).1.Accurate := by
  rw [loadRoot]
  split
  · exact ha
  · exact findOrConstruct_accurate ha id f

theorem loadCopy_accurate (ha : s.Accurate) (ri ci : ObjId) (f : Bool) :
    (s.loadCopy ri ci f).1.Accurate := by
  rw [loadCopy]
  split
  · exact ha
  · exact findOrConstruct_accurate ha ci f

theorem current_ended {a : Addr} (he : s.alive a = false) (id : ObjId) :
    (s.become a .ended).current id = s.current id := by
  have hs : (s.become a .ended).alive = s.alive := by
    funext b
    rw [alive_become (by decide)]
    by_cases own : b = a
    · simp [own, he]
    · simp [own]
  rw [current, hs]
  rfl

theorem destruct_accurate_iff (ha : s.Accurate) {a : Addr}
    (he : ((s.objects[a]?).any fun o => o.life = .ending) = true) :
    (s.destruct a).Accurate ↔ Unshadowed s (.destruct a) := by
  have hen : (s.become a .ended).Accurate := accurate_become (by decide) ha a
  rcases ht : s.objects[a]? with _ | o
  · simp [ht] at he
  · have hd : s.alive a = false := by
      rw [ht, any_some, decide_eq_true_eq] at he
      simp [alive, ht, he]
    simp only [destruct, ht, Unshadowed, mem_def, some.injEq, forall_eq']
    by_cases here : o.here = true
    · rw [if_pos here, accurate_remove_iff hen, current_ended hd]
      exact ⟨fun hg _ => hg, fun hg => hg here⟩
    · rw [if_neg here]
      exact iff_of_true hen fun hy => absurd hy here

/-- One event leaves an accurate table accurate unless it is the destruction of an object
whose id is now that of another one. -/
theorem step_accurate_iff (ha : s.Accurate) {e : Event} (had : Admitted s e) :
    (step s e).Accurate ↔ Unshadowed s e := by
  cases e with
  | makeObj h id => exact iff_of_true (accurate_make ha _) trivial
  | addObject id a => exact iff_of_true (accurate_add ha id a) trivial
  | constructObj id => exact iff_of_true (accurate_construct ha id) trivial
  | loadRoot id f => exact iff_of_true (loadRoot_accurate ha id f) trivial
  | loadCopy ri ci f =>
    exact iff_of_true (loadCopy_accurate ha ri ci f) trivial
  | release a => exact iff_of_true (accurate_become (by decide) ha a) trivial
  | destruct a => exact destruct_accurate_iff ha had

theorem loadsOnce_of_accurate (ha : s.Accurate) (e : Event) : LoadsOnce s e := by
  cases e with
  | loadRoot id f =>
    intro hv a hal
    rw [loadRoot, if_neg hv, findOrConstruct, ha, hal]
  | loadCopy ri ci f =>
    intro hrv hcv a hal
    rw [loadCopy, if_neg (not_or.mpr ⟨hrv, hcv⟩), findOrConstruct, ha, hal]
  | _ => trivial

theorem empty_accurate : empty.Accurate := fun _ => rfl

def reloaded : List Event :=
  [.loadRoot 7 true, .loadCopy 7 8 true, .release 0, .destruct 0, .loadRoot 7 true,
    .loadRoot 7 true]

def shadowed : List Event :=
  [.makeObj true 1, .addObject 1 0, .makeObj true 1, .addObject 1 1, .release 0, .destruct 0]

end

end Ae.Obj.DomainTable
