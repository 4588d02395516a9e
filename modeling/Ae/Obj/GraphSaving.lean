/- source: obj/{domain.{h,cpp},obj_ptr.h,registrar.h}
   digest: Saving a graph of objects stores each of them once, class by class. -/

import Ae.Obj.ObjectGraph

set_option autoImplicit false

namespace Ae.Obj.GraphSaving
open List DomainStorage.Storage Lib.CountedGraph Lib.DepthFirst
open MStream.VectorReader (SizeType)
open ObjectGraph Reflection Registrar Ptr.DecrementGraph Ptr.PtrBase
open Ptr.ReferenceTree Ptr.Release Ptr.Temporaries IDomainStorage

/-- A storage that gives back exactly what was stored and lists the classes it has data of. -/
structure KeepsStored (σ : Type) [IDomainStorage σ] : Prop where
  load_store : ∀ (s : σ) query data, (load (store s query data) query).data? = some data
  load_store_ne : ∀ (s : σ) query data other, other ≠ query →
    (load (store s query data) other).data? = (load s other).data?
  coherent : ∀ s : σ, Coherent s

/-- The memory of the program and the storage while a `DomainGraph` saves, and the nodes of
its `DomainCycleDetector`. The stores made so far are a history, oldest first. -/
structure Saving (σ : Type) where
  memory : Memory
  storage : σ
  visited : Finset (ClassId × ObjId)
  stored : List DomainQuery

namespace Saving

variable {σ : Type} [IDomainStorage σ]

def start (memory : Memory) (storage : σ) : Saving σ := ⟨memory, storage, ∅, []⟩

def visit (s : Saving σ) (c : ClassId) (id : ObjId) : Saving σ :=
  { s with visited := insert (c, id) s.visited }

def store (s : Saving σ) (query : DomainQuery) (data : ObjectData) : Saving σ :=
  { s with
    storage := IDomainStorage.store s.storage query data
    stored := s.stored ++ [query] }

section

-- `SaveRootImpl` for a `Ptr` that is not null, on the next level of the recursion
variable (save : Addr → ObjId → Saving σ → Option (Saving σ))

/-- `SavePtr`: the conversion to a `Ptr<Obj>` makes a `Ptr` for the time of the call, unless
it is one already. -/
def savePtr (toObj : Bool) (q : Place) (id : ObjId) (s : Saving σ) : Option (Saving σ) :=
  match s.memory.read q with
  | none => some s
  | some b =>
    if toObj then save b id s
    else (save b id { s with memory := s.memory.copy q }).map fun s =>
      { s with memory := leaveScope s.memory }

/-- What `<<` does for a field beside writing its bytes: an `ObjPtr` saves its object. -/
def saveRefs (a : Addr) (i : Nat) (s : Saving σ) : (f : FieldDesc) → f.Value → Option (Saving σ)
  | .value _ _, _ => some s
  | .objPtr toObj, p => savePtr save toObj (.member a i) p.id s

/-- The fields of one class of the object at `a`, of which `i` members come before; there is
no reading a field of an object that was destroyed meanwhile. -/
def saveFields (size : SizeType) (a : Addr) : (fields : List FieldDesc) → Row fields → Nat →
    Saving σ → Option (ObjectData × Saving σ)
  | [], _, _, s => some ([], s)
  | f :: fields, (v, row), i, s =>
    if s.memory.mainRefs a = 0 then none
    else (saveRefs save a i s f v).bind fun s =>
      (saveFields size a fields row (i + (f.refs v).length) s).map fun (data, s) =>
        ((f.codec size).put v ++ data, s)

/-- `Save` of an object as one of its classes: the base has its own query and comes first. -/
def saveClass (r : Registry) (size : SizeType) (a : Addr) (id : ObjId) :
    (cls : ClassDesc) → cls.State → Saving σ → Option (Saving σ)
  | .obj, _, s =>
    if (r.objClass, id) ∈ s.visited then some s
    else some ((s.visit r.objClass id).store ⟨id, r.objClass, 0⟩ [])
  | .derived c v base fields, (state, row), s =>
    if (c, id) ∈ s.visited then some s
    else (saveClass r size a id base state (s.visit c id)).bind fun s =>
      (saveFields save size a fields row base.refCount s).map fun (data, s) =>
        s.store ⟨id, c, v⟩ data

end

/-- `SaveRootImpl` for a `Ptr` that is not null: the factory is that of the object's class.
`fuel` bounds the depth. -/
def saveRootImpl (r : Registry) (size : SizeType) (instances : Addr → Instance) :
    Nat → Addr → ObjId → Saving σ → Option (Saving σ)
  | 0, _, _, _ => none
  | fuel + 1, b, id, s =>
    if s.memory.mainRefs b = 0 then none
    else if r.isExisting ((instances b).cls.classId r.objClass) then
      saveClass (saveRootImpl r size instances fuel) r size b id (instances b).cls
        (instances b).state s
    else some s

/-- `ObjPtr::Save` of the `ObjPtr` at a place. -/
def save (r : Registry) (size : SizeType) (H : Heap) (storage : σ) (fuel : Nat) (toObj : Bool)
    (q : Place) (id : ObjId) : Option (Saving σ) :=
  savePtr (saveRootImpl r size H.instances fuel) toObj q id (start H.memory storage)

end Saving

open Saving

section

variable {σ : Type} [IDomainStorage σ]

def Recorded (storage : σ) (id : ObjId) (records : List (ClassId × Version × ObjectData)) : Prop :=
  ∀ entry ∈ records, (load storage ⟨id, entry.1, entry.2.1⟩).data? = some entry.2.2

def queries (id : ObjId) (records : List (ClassId × Version × ObjectData)) : List DomainQuery :=
  records.map fun entry => ⟨id, entry.1, entry.2.1⟩

variable (r : Registry) (size : SizeType) (H : Heap) (root : Addr)

def Marks (seen : List Addr) (s : Saving σ) : Prop :=
  ∀ a, H.Reach root a → ∀ c ∈ H.chain r a, ((c, H.objId a) ∈ s.visited ↔ a ∈ seen)

/-- The memory is that of the graph, but for `Ptr`s outside that the calls in progress hold,
at most one for each object in `seen`. -/
structure Ready (seen : List Addr) (M : Memory) : Prop where
  graph : M.graph = H.memory.graph
  members : ∀ a, (M.storage a).members = H.members a
  counted : Counted M M.roots
  roots : ∀ x ∈ H.memory.roots, x ∈ M.roots
  room : ∀ a, H.Reach root a → (M.mainRefs a).toNat ≤ 127 + if a ∈ seen then 1 else 0

/-- What a part of a save does: it visits and records all that `starts` lead to, records `own`
for the object `id`, and leaves the memory and all other records alone. -/
structure Saves (id : ObjId) (own : List (ClassId × Version × ObjectData))
    (starts seen found : List Addr) (s s' : Saving σ) : Prop where
  searched : Searched H.memory.targets starts seen found
  within : ∀ a ∈ found, H.Reach root a
  marks : Marks r H root found s'
  memory : s'.memory = s.memory
  owned : Recorded s'.storage id own
  recorded : ∀ a ∈ found, a ∉ seen → Recorded s'.storage (H.objId a) (H.records r size a)
  kept : ∀ query, (∀ a ∈ found, a ∉ seen → query.id = H.objId a → query.classId ∉ H.chain r a) →
    (query.id = id → ∀ entry ∈ own, query.classId ≠ entry.1) →
    (load s'.storage query).data? = (load s.storage query).data?
  stored : ∃ new, found = seen ++ new ∧ s'.stored.Perm (s.stored ++
    (queries id own ++ new.flatMap fun a => queries (H.objId a) (H.records r size a)))

end

section

variable {r : Registry} {H : Heap} {root b : Addr} {seen : List Addr} {M : Memory}

theorem Ready.mono (hr : Ready H root seen M) {found : List Addr}
    (more : ∀ a ∈ seen, a ∈ found) : Ready H root found M := by
  refine ⟨hr.graph, hr.members, hr.counted, hr.roots, fun a hrc => ?_⟩
  have hrm := hr.room a hrc
  by_cases ho : a ∈ seen
  · rwa [if_pos (more a ho), ← if_pos (c := a ∈ seen) (t := 1) (e := 0) ho]
  · rw [if_neg ho] at hrm
    omega

variable (G : Persistable r H root)
include G

theorem Ready.live (ready : Ready H root seen M) {a : Addr} (reach : H.Reach root a) :
    a ∈ M.live := by
  rw [show M.live = H.memory.live from congrArg RefGraph.live ready.graph]
  exact G.live reach

theorem Ready.alive (hr : Ready H root seen M) {a : Addr} (hrc : H.Reach root a) :
    M.mainRefs a ≠ 0 :=
  Memory.mem_live.mp (hr.live G hrc)

theorem ready_start : Ready H root [] H.memory := by
  refine ⟨rfl, fun _ => rfl, G.counted, fun _ => id, fun a hr => ?_⟩
  have hrm := G.mainRefs_lt hr
  omega

variable (hr : Ready H root seen M)
include hr

omit G in
theorem Ready.lt {a : Addr} (hrc : H.Reach root a) : (M.mainRefs a).toNat + 1 < 256 := by
  have hrm := hr.room a hrc
  split at hrm <;> omega

theorem Ready.holding (hrc : H.Reach root b) (hf : b ∉ seen) :
    Ready H root (seen ++ [b]) (hold M (some b)) := by
  have hh := hr.live G hrc
  have hrm := hr.lt hrc
  refine ⟨(graph_hold hh hrm).trans hr.graph, fun a => ?_,
    counted_hold hr.counted hh hrm, fun x hm => ?_, fun a hra => ?_⟩
  · rw [members_hold, hr.members]
  · rw [roots_hold]
    exact mem_append_left _ (hr.roots x hm)
  · have hb := hr.room a hra
    by_cases same : a = b
    · subst same
      rw [if_neg hf] at hb
      rw [toNat_hold hh hrm, if_pos (by simp)]
      omega
    · rw [mainRefs_hold_ne same]
      simpa [same] using hb

theorem Ready.drop (hf : Indexable H.memory root) (hrc : H.Reach root b) :
    leaveScope (hold M (some b)) = M := by
  refine leaveScope_hold hr.counted (hr.live G hrc) (hr.lt hrc) ?_ ?_
  · rw [Indexable, hr.graph]
    exact G.indexable hf hrc
  · rw [hr.graph]
    exact (G.reached hrc).mono fun x hm _ => hr.roots x hm

end

section

variable {σ : Type} {r : Registry} {H : Heap} {root b : Addr} {seen : List Addr} {s : Saving σ}

structure Opened (r : Registry) (H : Heap) (root b : Addr) (cls : ClassDesc) (seen : List Addr)
    (s : Saving σ) : Prop where
  others : ∀ a, H.Reach root a → a ≠ b → ∀ c ∈ H.chain r a, ((c, H.objId a) ∈ s.visited ↔ a ∈ seen)
  own : ∀ c ∈ H.chain r b, ((c, H.objId b) ∈ s.visited ↔ c ∉ cls.chain r.objClass)

theorem mem_visit {c d : ClassId} {id id' : ObjId} :
    (d, id') ∈ (s.visit c id).visited ↔ (d = c ∧ id' = id) ∨ (d, id') ∈ s.visited := by
  rw [visit, Finset.mem_insert, Prod.mk.injEq]

theorem Opened.visit_others {cls : ClassDesc} (G : Persistable r H root)
    (ho : Opened r H root b cls seen s) (hr : H.Reach root b) (c : ClassId) :
    ∀ a, H.Reach root a → a ≠ b → ∀ d ∈ H.chain r a,
      ((d, H.objId a) ∈ (s.visit c (H.objId b)).visited ↔ a ∈ seen) := by
  intro a hra hn d hm
  rw [mem_visit, ← ho.others a hra hn d hm, or_iff_right]
  exact fun hb => hn (G.distinct a b hra hr hb.2)

theorem Opened.visit {c : ClassId} {v : Version} {base : ClassDesc} {fs : List FieldDesc}
    (G : Persistable r H root) (ho : Opened r H root b (.derived c v base fs) seen s)
    (hr : H.Reach root b) (ha : c ∉ base.chain r.objClass) :
    Opened r H root b base seen (s.visit c (H.objId b)) := by
  refine ⟨ho.visit_others G hr c, fun d hm => ?_⟩
  rw [mem_visit, ho.own d hm, ClassDesc.chain, mem_cons]
  by_cases same : d = c
  · simp [same, ha]
  · simp [same]

theorem Opened.marks (G : Persistable r H root) (ho : Opened r H root b .obj seen s)
    (hr : H.Reach root b) : Marks r H root (seen ++ [b]) (s.visit r.objClass (H.objId b)) := by
  intro a hra c hm
  by_cases same : a = b
  · subst same
    rw [mem_visit, ho.own c hm, ClassDesc.chain, mem_singleton]
    simp [Classical.em]
  · rw [ho.visit_others G hr r.objClass a hra same c hm]
    simp [same]

theorem Marks.opened (hm : Marks r H root seen s) (hr : H.Reach root b)
    (hf : b ∉ seen) : Opened r H root b (H.cls b) seen s := by
  refine ⟨fun a hra _ => hm a hra, fun c mem => ?_⟩
  rw [hm b hr c mem]
  exact iff_of_false hf fun ho => ho mem

end

section

variable {σ : Type} [IDomainStorage σ] {r : Registry} {size : SizeType} {H : Heap} {root b : Addr}
  {id : ObjId} {own : List (ClassId × Version × ObjectData)}
  {starts more seen middle found : List Addr} {s s1 s2 : Saving σ}

theorem Saves.nil (within : ∀ a ∈ seen, H.Reach root a) (marks : Marks r H root seen s) :
    Saves r size H root id [] [] seen seen s s where
  searched := Searched.nil
  within := within
  marks := marks
  memory := rfl
  owned := by simp [Recorded]
  recorded := fun _ hm hf => absurd hm hf
  kept := fun _ _ _ => rfl
  stored := ⟨[], by simp, by simp [queries]⟩

theorem objId_ne (G : Persistable r H root) (hw : ∀ a ∈ found, H.Reach root a)
    (hg : seen <+: found) (hi : b ∈ seen) {a : Addr} (hm : a ∈ found)
    (hf : a ∉ seen) : H.objId a ≠ H.objId b := by
  intro hs
  have he := G.distinct a b (hw a hm) (hw b (hg.subset hi)) hs
  exact hf (he ▸ hi)

theorem Saves.append (G : Persistable r H root) (hi : b ∈ seen)
    (h1 : Saves r size H root (H.objId b) own starts seen middle s s1)
    (h2 : Saves r size H root (H.objId b) [] more middle found s1 s2) :
    Saves r size H root (H.objId b) own (starts ++ more) seen found s s2 where
  searched := h1.searched.append h2.searched
  within := h2.within
  marks := h2.marks
  memory := h2.memory.trans h1.memory
  owned := by
    intro e mem
    rw [h2.kept _ _ (by simp), h1.owned e mem]
    intro a hm hf hs
    exact absurd hs.symm (objId_ne G h2.within h2.searched.grows
      (h1.searched.grows.subset hi) hm hf)
  recorded := by
    intro a hm hf
    by_cases he : a ∈ middle
    · intro e mem
      rw [h2.kept _ _ (by simp), h1.recorded a he hf e mem]
      intro a' hm' hf' hs
      exact absurd hs.symm (objId_ne G h2.within h2.searched.grows he hm' hf')
    · exact h2.recorded a hm he
  kept := by
    intro q ha hn
    rw [h2.kept q _ (by simp), h1.kept q _ hn]
    · exact fun a hm hf => ha a (h2.searched.grows.subset hm) hf
    · exact fun a hm hf =>
        ha a hm fun ho => hf (h1.searched.grows.subset ho)
  stored := by
    obtain ⟨n1, hg1, hp1⟩ := h1.stored
    obtain ⟨n2, hg2, hp2⟩ := h2.stored
    refine ⟨n1 ++ n2, by rw [hg2, hg1, append_assoc], ?_⟩
    refine hp2.trans ((hp1.append_right _).trans ?_)
    simp [queries]

theorem Saves.store (hk : KeepsStored σ) (G : Persistable r H root) (hi : b ∈ seen)
    (hd : Saves r size H root (H.objId b) own starts seen found s s1) {c : ClassId}
    (v : Version) (data : ObjectData) (hn : ∀ e ∈ own, c ≠ e.1) :
    Saves r size H root (H.objId b) ((c, v, data) :: own) starts seen found s
      (s1.store ⟨H.objId b, c, v⟩ data) where
  searched := hd.searched
  within := hd.within
  marks := hd.marks
  memory := hd.memory
  owned := by
    intro e hm
    rcases mem_cons.mp hm with rfl | old
    · exact hk.load_store _ _ _
    · rw [← hd.owned e old]
      refine hk.load_store_ne _ _ _ _ fun he => ?_
      exact hn e old (congrArg DomainQuery.classId he).symm
  recorded := by
    intro a hmr hf e hm
    rw [← hd.recorded a hmr hf e hm]
    refine hk.load_store_ne _ _ _ _ fun he => ?_
    exact objId_ne G hd.within hd.searched.grows hi hmr hf
      (congrArg DomainQuery.id he)
  kept := by
    intro q ha ho
    rw [← hd.kept q ha fun he e hm =>
      ho he e (mem_cons_of_mem _ hm)]
    refine hk.load_store_ne _ _ _ _ ?_
    rintro rfl
    exact ho rfl _ mem_cons_self rfl
  stored := by
    obtain ⟨new, hg, hp⟩ := hd.stored
    refine ⟨new, hg, (hp.append_right _).trans ?_⟩
    rw [append_assoc]
    refine Perm.append_left _ ?_
    exact perm_append_singleton _ _

end

section

variable {σ : Type} [IDomainStorage σ]

/-- What is shown of the calls of `SaveRootImpl` with some fuel, while fewer than `n` objects
are still to be visited. -/
def SavesFrom (r : Registry) (size : SizeType) (H : Heap) (root : Addr)
    (call : Addr → ObjId → Saving σ → Option (Saving σ)) (n : Nat) : Prop :=
  ∀ b seen s, H.Reach root b → (∀ a ∈ seen, H.Reach root a) → Marks r H root seen s →
    s.memory.mainRefs b ≠ 0 → (b ∉ seen → Ready H root (seen ++ [b]) s.memory) →
    unseen H root seen < n → ∃ found s', call b (H.objId b) s = some s' ∧
      ∀ id, Saves r size H root id [] [b] seen found s s'

variable {r : Registry} {size : SizeType} {H : Heap} {root a b : Addr} {seen : List Addr}
  {s : Saving σ} {call : Addr → ObjId → Saving σ → Option (Saving σ)} {n : Nat}

variable (G : Persistable r H root) (hf : Indexable H.memory root)
include G hf

theorem savePtr_saves (hc : SavesFrom r size H root call n) {q : Place} (too : Bool)
    (hp : s.memory.read q = some b) (hr : H.Reach root b)
    (hw : ∀ a ∈ seen, H.Reach root a) (hm : Marks r H root seen s)
    (hrd : Ready H root seen s.memory) (hl : unseen H root seen < n) :
    ∃ found s', savePtr call too q (H.objId b) s = some s' ∧
      ∀ id, Saves r size H root id [] [b] seen found s s' := by
  simp only [savePtr, hp]
  cases too with
  | true =>
    exact hc b seen s hr hw hm (hrd.alive G hr)
      (fun _ => hrd.mono fun a ho => mem_append_left _ ho) hl
  | false =>
    have hh := hrd.live G hr
    have ha : (hold s.memory (some b)).mainRefs b ≠ 0 := by
      have more := toNat_hold hh (hrd.lt hr)
      intro hz
      rw [hz] at more
      simp at more
    obtain ⟨found, s', run, hs⟩ := hc b seen { s with memory := hold s.memory (some b) }
      hr hw hm ha (hrd.holding G hr) hl
    have hd : leaveScope s'.memory = s.memory := by
      rw [(hs 0).memory]
      exact hrd.drop G hf hr
    refine ⟨found, { s' with memory := s.memory }, ?_, fun id => ?_⟩
    · rw [copy_eq_hold, hp, run, ← hd]
      rfl
    · exact ⟨(hs id).searched, (hs id).within, (hs id).marks, rfl, (hs id).owned,
        (hs id).recorded, (hs id).kept, (hs id).stored⟩

theorem saveFields_saves (hc : SavesFrom r size H root call n) (hrc : H.Reach root a) :
    (fs : List FieldDesc) → (row : Row fs) → ∀ (i : Nat) (ts rest seen) (s : Saving σ),
      List.Forall₂ H.Refers (Row.refs fs row) ts →
      (H.members a).drop i = ts ++ rest → a ∈ seen → (∀ b ∈ seen, H.Reach root b) →
      Marks r H root seen s → Ready H root seen s.memory → unseen H root seen < n →
      ∃ found s', saveFields call size a fs row i s = some (Row.bytes size fs row, s') ∧
        Saves r size H root (H.objId a) [] (ts.filterMap id) seen found s s'
  | [], _, i, ts, rest, seen, s, refers, _, _, hw, hm, _, _ => by
    cases refers
    exact ⟨seen, s, rfl, Saves.nil hw hm⟩
  | .value type init :: fs, (v, row), i, ts, rest, seen, s, refers, segment, hi,
      hw, hm, hr, left => by
    obtain ⟨found, s', run, hs⟩ := saveFields_saves hc hrc fs row i ts rest
      seen s refers segment hi hw hm hr left
    refine ⟨found, s', ?_, hs⟩
    simp only [saveFields, if_neg (hr.alive G hrc), saveRefs,
      Option.bind_some, FieldDesc.refs, length_nil, add_zero, run, Option.map_some]
    rfl
  | .objPtr toObj :: fs, (p, row), i, ts, rest, seen, s, refers, segment, hi, hw, hm, hr, left => by
    obtain ⟨m, ms, refers_p, refer, rfl⟩ := forall₂_cons_left_iff.mp refers
    have at_i : (H.members a)[i]? = some m := by
      have head := congrArg (fun l => l[0]?) segment
      simpa using head
    have read : s.memory.read (.member a i) = m := by
      rw [Memory.read, hr.members, at_i]
      rfl
    have next : (H.members a).drop (i + 1) = ms ++ rest := by
      rw [← tail_drop, segment]
      rfl
    have unfold_run : ∀ s1 s2, savePtr call toObj (.member a i) p.id s = some s1 →
        saveFields call size a fs row (i + 1) s1 = some (Row.bytes size fs row, s2) →
        saveFields call size a (.objPtr toObj :: fs) (p, row) i s =
          some (Row.bytes size (.objPtr toObj :: fs) (p, row), s2) := by
      intro s1 s2 own others
      simp only [saveFields, if_neg (hr.alive G hrc), saveRefs, own, Option.bind_some]
      exact congrArg (Option.map _) others
    cases m with
    | none =>
      obtain ⟨found, s', run, hs⟩ := saveFields_saves hc hrc fs row (i + 1) ms
        rest seen s refer next hi hw hm hr left
      refine ⟨found, s', unfold_run s s' ?_ run, hs⟩
      rw [savePtr, read]
    | some b =>
      have reach_b := Persistable.reach_member hrc (mem_of_getElem? at_i)
      obtain ⟨middle, s1, own, saves₁⟩ := savePtr_saves G hf hc toObj read reach_b hw hm hr left
      have first := saves₁ (H.objId a)
      have hg := first.searched.grows
      have ready₁ : Ready H root middle s1.memory := by
        rw [first.memory]
        exact hr.mono fun c old => hg.subset old
      obtain ⟨found, s2, run, second⟩ := saveFields_saves hc hrc fs row (i + 1) ms
        rest middle s1 refer next (hg.subset hi) first.within first.marks ready₁
        (lt_of_le_of_lt (unseen_mono hg) left)
      refine ⟨found, s2, unfold_run s1 s2 ?_ run, first.append G hi second⟩
      rw [refers_p.1]
      exact own

omit G hf in
theorem Saves.of_visit {id id' : ObjId} {c : ClassId}
    {own : List (ClassId × Version × ObjectData)} {starts found : List Addr} {s' : Saving σ}
    (hd : Saves r size H root id own starts seen found (s.visit c id') s') :
    Saves r size H root id own starts seen found s s' :=
  ⟨hd.searched, hd.within, hd.marks, hd.memory, hd.owned, hd.recorded, hd.kept, hd.stored⟩

theorem saveClass_saves (hk : KeepsStored σ) (hc : SavesFrom r size H root call n)
    (hr : H.Reach root b) (hw : ∀ a ∈ seen, H.Reach root a)
    (hl : unseen H root (seen ++ [b]) < n) :
    (cls : ClassDesc) → (st : cls.State) → ∀ (ts rest) (s : Saving σ),
      cls.chain r.objClass <:+ H.chain r b → Opened r H root b cls seen s →
      Ready H root (seen ++ [b]) s.memory → List.Forall₂ H.Refers (cls.refs st) ts →
      H.members b = ts ++ rest →
      ∃ found s', saveClass call r size b (H.objId b) cls st s = some s' ∧
        Saves r size H root (H.objId b) (cls.records r.objClass size st)
          (ts.filterMap id) (seen ++ [b]) found s s'
  | .obj, _, ts, rest, s, part, opened, ready, refers, _ => by
    have here : r.objClass ∈ H.chain r b := part.subset mem_cons_self
    have unvisited : (r.objClass, H.objId b) ∉ s.visited := by
      rw [opened.own _ here]
      simp [ClassDesc.chain]
    have all : ∀ a ∈ seen ++ [b], H.Reach root a := by
      intro a hm
      rcases mem_append.mp hm with old | new
      · exact hw a old
      · exact mem_singleton.mp new ▸ hr
    cases refers
    refine ⟨seen ++ [b], _, if_neg unvisited, ?_⟩
    exact ((Saves.nil all (opened.marks G hr)).store hk G (by simp) 0 [] (by simp)).of_visit
  | .derived c v base fields, (st, row), ts, rest, s, part, opened, ready, refers, members => by
    have known := Registry.chain_nodup (G.registered b hr)
    obtain ⟨ha, -⟩ := nodup_cons.mp (part.sublist.nodup known)
    have unvisited : (c, H.objId b) ∉ s.visited := by
      rw [opened.own c (part.subset mem_cons_self)]
      simp [ClassDesc.chain]
    obtain ⟨ms, others, rfl, refers_base, refers_row⟩ := Heap.split_refers refers
    rw [append_assoc] at members
    obtain ⟨middle, s1, run1, first⟩ := saveClass_saves hk hc hr hw hl base
      st ms (others ++ rest) (s.visit c (H.objId b)) ((suffix_cons c _).trans part)
      (opened.visit G hr ha) ready refers_base members
    have grows := first.searched.grows
    have ready₁ : Ready H root middle s1.memory := by
      rw [first.memory]
      exact ready.mono fun a old => grows.subset old
    have counted : base.refCount = ms.length := by
      rw [← base.length_refs st, refers_base.length_eq]
    have segment : (H.members b).drop base.refCount = others ++ rest := by
      rw [members, counted, drop_left]
    obtain ⟨found, s2, run2, second⟩ := saveFields_saves G hf hc hr fields row
      base.refCount others rest middle s1 refers_row segment (grows.subset (by simp))
      first.within first.marks ready₁ (lt_of_le_of_lt (unseen_mono grows) hl)
    refine ⟨found, s2.store ⟨H.objId b, c, v⟩ (Row.bytes size fields row), ?_, ?_⟩
    · simp only [saveClass, if_neg unvisited, run1, Option.bind_some, run2, Option.map_some]
    · rw [filterMap_append]
      refine Saves.of_visit (((first.append G (by simp) second).store hk G (by simp) v _ ?_))
      intro entry hm he
      refine ha ?_
      rw [← base.records_classes r.objClass size st, he]
      exact mem_map_of_mem hm

omit G hf in
theorem saveClass_visited {id : ObjId} {cls : ClassDesc} {st : cls.State}
    (hv : (cls.classId r.objClass, id) ∈ s.visited) :
    saveClass call r size b id cls st s = some s := by
  cases cls with
  | obj | derived c v base fs => exact if_pos hv

omit G hf in
theorem Saves.whole {found : List Addr} {s' : Saving σ} {id : ObjId} (hf : b ∉ seen)
    (hd : Saves r size H root (H.objId b) (H.records r size b) (H.memory.targets b)
      (seen ++ [b]) found s s') : Saves r size H root id [] [b] seen found s s' where
  searched := Searched.descend hf hd.searched Searched.nil
  within := hd.within
  marks := hd.marks
  memory := hd.memory
  owned := by simp [Recorded]
  recorded := by
    intro a hm hu
    by_cases he : a = b
    · exact he ▸ hd.owned
    · exact hd.recorded a hm (by simp [hu, he])
  kept := by
    intro q ha _
    refine hd.kept q (fun a hm hu => ?_) fun he e mem hn => ?_
    · exact ha a hm fun ho => hu (mem_append_left _ ho)
    · refine ha b (hd.searched.grows.subset (by simp)) hf he ?_
      rw [hn, Heap.chain, ← (H.cls b).records_classes r.objClass size (H.instances b).state]
      exact mem_map_of_mem mem
  stored := by
    obtain ⟨new, hg, hp⟩ := hd.stored
    exact ⟨b :: new, by rw [hg, append_assoc, singleton_append], hp⟩

theorem saveRootImpl_saves (hkp : KeepsStored σ) (fuel : Nat) :
    SavesFrom r size H root (saveRootImpl (σ := σ) r size H.instances fuel) fuel := by
  induction fuel with
  | zero => exact fun b seen s _ _ _ _ _ hl => absurd hl (Nat.not_lt_zero _)
  | succ fuel ih =>
    intro b seen s hr hw hm ha hrd hl
    have hrg := G.registered b hr
    have he : r.isExisting ((H.instances b).cls.classId r.objClass) = true := by
      rw [Registry.isExisting, show (H.instances b).cls = H.cls b from rfl, hrg]
      rfl
    simp only [saveRootImpl, if_neg ha, he, if_true]
    by_cases hk : b ∈ seen
    · have hv := (hm b hr _ ((H.cls b).classId_mem_chain r.objClass)).mpr hk
      exact ⟨seen, s, saveClass_visited hv, fun id =>
        { Saves.nil hw hm with searched := Searched.skip hk Searched.nil }⟩
    · have hfw := G.unseen_append hr hk
      obtain ⟨found, s', run, hs⟩ := saveClass_saves G hf hkp ih hr hw (by omega)
        (H.cls b) (H.instances b).state (H.members b) [] s suffix_rfl
        (hm.opened hr hk) (hrd hk) (G.refers b hr) (by simp)
      exact ⟨found, s', run, fun id => hs.whole hk⟩

theorem save_saves (hk : KeepsStored σ) (st : σ) (too : Bool) {q : Place}
    (hp : H.memory.read q = some root) {fuel : Nat} (he : H.memory.storages.length < fuel) :
    ∃ found s', save r size H st fuel too q (H.objId root) = some s' ∧
      Saves r size H root 0 [] [root] [] found (start H.memory st) s' := by
  have hm : Marks r H root [] (start H.memory st) := by
    simp [Marks, start]
  obtain ⟨found, s', hr, hs⟩ := savePtr_saves G hf (saveRootImpl_saves G hf hk fuel)
    too (s := start H.memory st) hp (Leads.refl root) (by simp) hm
    (ready_start G) (unseen_le.trans_lt he)
  exact ⟨found, s', hr, hs 0⟩

end

end Ae.Obj.GraphSaving
