/- source: obj/{domain.{h,cpp},obj_ptr.h}
   digest: A saved graph of objects comes back isomorphic when no default value shows through. -/

import Ae.Obj.CopyLoading

set_option autoImplicit false

namespace Ae.Obj.Persistence
open List
open DomainStorage.Storage Lib.CountedGraph Lib.DepthFirst MStream.Operators MStream.VectorReader
open GraphCopying GraphLoading GraphSaving ObjectGraph
open Reflection Registrar Ptr.DecrementGraph Ptr.PtrBase Ptr.ReferenceTree
open RamDomainStorage Leads

variable {σ : Type} [IDomainStorage σ] {storage : σ}

section

variable (r : Registry) (size : SizeType) (H : Heap) (root : Addr)

/-- Each object of the graph is stored once under each of its classes, and nothing else is; the
objects themselves are left as they were. -/
structure SavedOnce (s : Saving σ) : Prop where
  once : s.stored.Nodup
  all : ∀ query, query ∈ s.stored ↔
    ∃ a, H.Reach root a ∧ query ∈ queries (H.objId a) (H.records r size a)
  memory : s.memory = H.memory

/-- An object is constructed once for each id of the graph, and for no other. -/
structure LoadedOnce (s : Loading) : Prop where
  once : s.constructed.Nodup
  all : ∀ id, id ∈ s.constructed ↔ ∃ a, H.Reach root a ∧ H.objId a = id

/-- The objects loaded beside those of `heap` have the shape of the graph, `f` taking each
object to its copy: one for each id, with the same sharing and cycles. -/
structure SameShape (heap : Heap) (s : Loading) (f : Addr → Addr) : Prop where
  held : s.heap.memory.outside = heap.memory.outside ++ [some (f root)]
  injective : ∀ a b, H.Reach root a → H.Reach root b → f a = f b → a = b
  copies : ∀ x, heap.memory.storages.length ≤ x ∧ x < s.heap.memory.storages.length ↔
    ∃ a, H.Reach root a ∧ f a = x
  members : ∀ a, H.Reach root a → s.heap.members (f a) = (H.members a).map (Option.map f)
  found : ∀ a, H.Reach root a → s.find (H.objId a) = some (f a)

/-- The copies have the shape, the classes and the field values of the graph. -/
structure Isomorphic (heap : Heap) (s : Loading) (f : Addr → Addr) : Prop extends
    SameShape H root heap s f where
  instances : ∀ a, H.Reach root a → s.heap.instances (f a) = H.instances a

/-- Saving the root through the `ObjPtr` at `q` and loading its id in a new domain both end, and
give an isomorphic graph, each object saved and loaded once. -/
def Persists (storage : σ) (toObj : Bool) (q : Place) (heap : Heap) : Prop :=
  ∀ fuel, H.memory.storages.length < fuel → ∃ saved loaded f,
    Saving.save r size H storage fuel toObj q (H.objId root) = some saved ∧
    Loading.load r size saved.storage heap fuel (H.objId root) = some loaded ∧
    SavedOnce r size H root saved ∧ LoadedOnce H root loaded ∧ Isomorphic H root heap loaded f

/-- What a graph needs to be saved: it is persistable, no more than 256 objects are in it, and
the values of its fields can be encoded. -/
structure Encodable : Prop where
  graph : Persistable r H root
  few : Indexable H.memory root
  good : ∀ a, H.Reach root a → (H.cls a).Good size (H.instances a).state

/-- The storage lists no foreign class for an object of the graph: it was empty, or the graph
was saved in it before. -/
def OwnClasses (storage : σ) : Prop :=
  ∀ a, H.Reach root a → ∀ c ∈ IDomainStorage.enumerate storage (H.objId a), c ∈ H.chain r a

end

section

variable {r : Registry} {size : SizeType} {H : Heap} {root : Addr} {found : List Addr}
  {s : Saving σ}

theorem queries_nodup (G : Persistable r H root) {a : Addr} (hr : H.Reach root a) :
    (queries (H.objId a) (H.records r size a)).Nodup := by
  have hc := Registry.chain_nodup (G.registered a hr)
  rw [← (H.cls a).records_classes r.objClass size (H.instances a).state] at hc
  refine Nodup.of_map DomainQuery.classId ?_
  rwa [queries, map_map]

theorem savedOnce_of_saves (G : Persistable r H root)
    (hs : Saves r size H root 0 [] [root] [] found (Saving.start H.memory storage) s) :
    SavedOnce r size H root s := by
  obtain ⟨new, hg, hp⟩ := hs.stored
  obtain rfl : found = new := hg
  have hp : s.stored.Perm
      (found.flatMap fun a => queries (H.objId a) (H.records r size a)) := hp
  refine ⟨hp.nodup_iff.mpr ?_, fun qu => ?_, hs.memory⟩
  · rw [nodup_flatMap]
    refine ⟨fun a hm => queries_nodup G (hs.within a hm), ?_⟩
    refine (hs.searched.nodup nodup_nil).pairwise_of_forall_ne fun a haa b hab ha => ?_
    intro qu ho hn
    obtain ⟨_, -, rfl⟩ := mem_map.mp ho
    obtain ⟨_, -, he⟩ := mem_map.mp hn
    refine ha (G.distinct a b (hs.within a haa) (hs.within b hab) ?_)
    exact (congrArg DomainQuery.id he).symm
  · rw [hp.mem_iff, mem_flatMap]
    exact exists_congr fun a => and_congr_left fun _ => hs.searched.mem_iff_of_start

theorem stored_of_saves (hk : KeepsStored σ) (G : Persistable r H root)
    (ho : OwnClasses r H root storage)
    (hs : Saves r size H root 0 [] [root] [] found (Saving.start H.memory storage) s) :
    Stored r size H root s.storage := by
  have hm : ∀ a, H.Reach root a → a ∈ found := fun a hr =>
    hs.searched.mem_iff_of_start.mpr hr
  refine ⟨fun a hr => hs.recorded a (hm a hr) (by simp), ?_, hk.coherent s.storage⟩
  intro a hr c hls
  by_contra foreign
  obtain ⟨v, hl⟩ := (hk.coherent s.storage _ c).mp hls
  have hkp := hs.kept ⟨H.objId a, c, v⟩ (fun b mem _ he => ?_) (by simp)
  · refine foreign (ho a hr c ((hk.coherent storage _ c).mpr ⟨v, ?_⟩))
    rw [DomainLoad.isLoaded_eq, hkp, ← DomainLoad.isLoaded_eq] at hl
    exact hl
  · obtain rfl := G.distinct a b hr (hs.within b mem) he
    exact foreign

end

section

variable {r : Registry} {size : SizeType} {H : Heap} {root a : Addr}

theorem idsOf_refers {re : List ObjectPtrBase} {ms : List (Option Addr)}
    (hrf : List.Forall₂ H.Refers re ms) (hv : ∀ t, some t ∈ ms → H.objId t ≠ 0) :
    (idsOf re).filter (· ≠ 0) = (ms.filterMap id).map H.objId := by
  induction hrf with
  | nil => rfl
  | @cons p m re ms first _ ih =>
    have hr := ih fun t hi => hv t (mem_cons_of_mem m hi)
    cases m with
    | none =>
      have hn : p.id = 0 := first
      by_cases hl : p.Loads <;> simpa [idsOf, hl, hn] using hr
    | some t =>
      obtain ⟨he, hl⟩ := first
      have ht := hv t mem_cons_self
      simpa [idsOf, hl, he, ht] using hr

variable (G : Persistable r H root)

section

include G

theorem loadIds_eq (hr : H.Reach root a) :
    (loadIds (H.instances a)).filter (· ≠ 0) = (H.memory.targets a).map H.objId :=
  idsOf_refers (G.refers a hr) fun t hi =>
    G.valid t (Persistable.reach_member hr hi)

theorem exists_of_loadIds (hr : H.Reach root a) {id : ObjId}
    (hl : id ∈ loadIds (H.instances a)) (hv : id ≠ 0) : ∃ b, H.Reach root b ∧ H.objId b = id := by
  have hi : id ∈ (loadIds (H.instances a)).filter (· ≠ 0) := by simp [hl, hv]
  rw [loadIds_eq G hr] at hi
  obtain ⟨b, hed, he⟩ := mem_map.mp hi
  exact ⟨b, hr.tail hed, he⟩

theorem count_loadIds (hr : H.Reach root a) {c : Addr} (ht : H.Reach root c) :
    (loadIds (H.instances a)).count (H.objId c) = (H.memory.targets a).count c := by
  have hv : decide (H.objId c ≠ 0) = true := decide_eq_true (G.valid c ht)
  rw [← count_filter (p := fun id => decide (id ≠ 0)) hv, loadIds_eq G hr, count, countP_map, count]
  refine countP_congr fun t he => ?_
  simp only [Function.comp_apply, beq_iff_eq]
  exact ⟨G.distinct t c (hr.tail he) ht, congrArg H.objId⟩

noncomputable def objects (H : Heap) (root : Addr) : List Instance :=
  (nodes H root).toList.map H.instances

theorem mem_objects {o : Instance} :
    o ∈ objects H root ↔ ∃ a, H.Reach root a ∧ H.instances a = o := by
  simp [objects, G.mem_nodes]

theorem references_lt {id : ObjId} (hv : id ≠ 0) :
    references (objects H root) id < 128 := by
  have hs : references (objects H root) id =
      ∑ a ∈ nodes H root, (loadIds (H.instances a)).count id := by
    rw [references, objects, map_map]
    exact Finset.sum_map_toList _ _
  by_cases known : ∃ c, H.Reach root c ∧ H.objId c = id
  · obtain ⟨c, hr, rfl⟩ := known
    refine lt_of_le_of_lt ?_ (G.references c hr)
    calc references (objects H root) (H.objId c)
        = ∑ a ∈ nodes H root, (H.memory.graph.succ a).count c := by
          rw [hs]
          refine Finset.sum_congr rfl fun a hm => ?_
          have hh := G.mem_nodes.mp hm
          rw [count_loadIds G hh hr, Memory.succ_of_live (G.live hh)]
      _ ≤ ∑ a ∈ H.memory.graph.live, (H.memory.graph.succ a).count c := by
          refine Finset.sum_le_sum_of_subset fun a hm => ?_
          exact G.live (G.mem_nodes.mp hm)
      _ ≤ H.memory.graph.references H.memory.roots c := le_add_self
  · have hu : references (objects H root) id = 0 := by
      rw [hs]
      refine Finset.sum_eq_zero fun a hm => count_eq_zero.mpr fun hl => known ?_
      exact exists_of_loadIds G (G.mem_nodes.mp hm) hl hv
    omega

theorem storedObjects (stored : Stored r size H root storage)
    (good : ∀ a, H.Reach root a → (H.cls a).Good size (H.instances a).state) :
    StoredObjects r size storage (objects H root) := by
  refine ⟨?_, fun o hm => ?_, fun o hm => ?_, fun o hm => ?_, fun o hm => ?_, fun o hm id hl => ?_⟩
  · rw [objects, map_map]
    refine Nodup.map_on (fun a haa b hab he => ?_) (Finset.nodup_toList _)
    exact G.distinct a b (G.mem_nodes.mp (Finset.mem_toList.mp haa))
      (G.mem_nodes.mp (Finset.mem_toList.mp hab)) he
  all_goals obtain ⟨a, hr, rfl⟩ := (mem_objects G).mp hm
  · exact G.valid a hr
  · exact stored.factory G hr
  · exact stored.recorded a hr
  · exact good a hr
  · refine or_iff_not_imp_left.mpr fun hv => .inl ?_
    obtain ⟨b, ht, rfl⟩ := exists_of_loadIds G hr hl hv
    exact mem_map_of_mem ((mem_objects G).mpr ⟨b, ht, rfl⟩)

end

noncomputable def restoring (stored : Stored r size H root storage)
    (good : ∀ a, H.Reach root a → (H.cls a).Good size (H.instances a).state) (heap : Heap) :
    Restoring σ where
  registry := r
  size := size
  storage := storage
  objects := objects H root
  domain := ⟨heap, ∅, nofun, nofun⟩
  ref := H.instances root
  copyId := H.objId root
  stored := storedObjects G stored good
  ref_stored := (mem_objects G).mpr ⟨root, refl root, rfl⟩
  copy_valid := G.valid root (refl root)

variable {G} {stored : Stored r size H root storage}
  {good : ∀ a, H.Reach root a → (H.cls a).Good size (H.instances a).state} {heap : Heap}
  {s : Loading}

theorem next_objId (hr : H.Reach root a) :
    (restoring G stored good heap).next (H.objId a) = (H.memory.targets a).map H.objId := by
  have hm := (mem_objects G).mpr ⟨a, hr, rfl⟩
  have hln : (restoring G stored good heap).links (H.objId a) = loadIds (H.instances a) := by
    by_cases he : H.objId a = H.objId root
    · obtain rfl := G.distinct a root hr (refl root) he
      exact if_pos rfl
    · refine (links_of_stored (C := restoring G stored good heap) hm he).trans ?_
      exact if_neg he
  rw [Restoring.next, hln, ← loadIds_eq G hr]
  refine filter_congr fun id hl => decide_eq_decide.mpr ?_
  constructor
  · rintro ⟨-, hk⟩ rfl
    obtain ⟨o, hi, he⟩ := mem_map.mp hk
    exact (restoring G stored good heap).stored.valid o hi he
  · intro hv
    obtain ⟨b, ht, rfl⟩ := exists_of_loadIds G hr hl hv
    exact ⟨rfl, mem_map_of_mem ((mem_objects G).mpr ⟨b, ht, rfl⟩)⟩

theorem leads_iff {id : ObjId} : Leads (restoring G stored good heap).next (H.objId root) id ↔
    ∃ a, H.Reach root a ∧ H.objId a = id := by
  constructor
  · intro hp
    refine hp.stays (P := fun id => ∃ a, H.Reach root a ∧ H.objId a = id) ?_
      ⟨root, refl root, rfl⟩
    rintro _ ⟨a, hr, rfl⟩ m he
    rw [next_objId hr] at he
    obtain ⟨b, ht, hs⟩ := mem_map.mp he
    exact ⟨b, hr.tail ht, hs⟩
  · rintro ⟨a, hr, rfl⟩
    induction hr with
    | refl => exact refl _
    | @tail b c hr he ih =>
      refine ih.tail ?_
      rw [next_objId hr]
      exact mem_map_of_mem he

theorem map_target_of_refers {re : List ObjectPtrBase} {ms : List (Option Addr)}
    {f : Addr → Addr} (hr : List.Forall₂ H.Refers re ms)
    (found : ∀ t, some t ∈ ms → H.objId t ≠ 0 ∧ s.find (H.objId t) = some (f t)) :
    re.map (target s) = ms.map (Option.map f) := by
  induction hr with
  | nil => rfl
  | @cons p m re ms first _ ih =>
    rw [map_cons, map_cons, ih fun t hi => found t (mem_cons_of_mem m hi)]
    cases m with
    | none =>
      have hn : p.id = 0 := first
      simp [target, hn]
    | some t =>
      obtain ⟨he, hl⟩ := first
      obtain ⟨hv, ht⟩ := found t mem_cons_self
      simp [target, hl, he, hv, ht]

variable (G stored good heap) in
theorem load_copied {fuel : Nat} (he : H.memory.storages.length < fuel) :
    ∃ s, Loading.load r size storage heap fuel (H.objId root) = some s ∧
      (restoring G stored good heap).Copied s := by
  obtain ⟨depth, rfl⟩ := Nat.exists_eq_succ_of_ne_zero (Nat.ne_zero_of_lt he)
  have hr : ∀ id ≠ 0, holders (restoring G stored good heap).domain.graph id +
      references (objects H root) id < 255 := by
    intro id hv
    have few := references_lt G hv
    rw [holders_of_none rfl]
    omega
  have hlf : (restoring G stored good heap).unseen [H.objId root] < depth := by
    have hfw : _ < (objects H root).length := unseen_lt (C := restoring G stored good heap) rfl
    have hl : (objects H root).length ≤ H.memory.storages.length := by
      have hi : unseen H root [] ≤ _ := ObjectGraph.unseen_le
      simpa [objects, unseen] using hi
    exact hfw.trans_le (hl.trans (Nat.le_of_lt_succ he))
  obtain ⟨s, run, hf⟩ := loadCopyImpl_fills (C := restoring G stored good heap) rfl hr hlf
  exact ⟨_, loadCopyImpl_self.symm.trans run, copied_of_fills hf⟩

section

variable (copied : (restoring G stored good heap).Copied s)

include copied

theorem loadedOnce_of_copied : LoadedOnce H root s where
  once := copied.searched.nodup (nodup_singleton _)
  all := fun _ => copied.searched.mem_iff.trans leads_iff

theorem reread_of_copied (hr : H.Reach root a) : ∃ x, heap.memory.storages.length ≤ x ∧
    s.find (H.objId a) = some x ∧
      (restoring G stored good heap).Reread s x (H.objId a) (H.instances a) := by
  by_cases he : H.objId a = H.objId root
  · obtain rfl := G.distinct a root hr (refl root) he
    exact ⟨_, le_rfl, copied.copy, copied.reread⟩
  · obtain ⟨x, hn, found, hb⟩ := copied.built (H.instances a)
      ((mem_objects G).mpr ⟨a, hr, rfl⟩) he (leads_iff.mpr ⟨a, hr, rfl⟩)
    cases hb with
    | blank blank _ => exact absurd blank he
    | loaded _ hrr => exact ⟨x, hn, found, hrr⟩

theorem sameShape_of_copied : ∃ f, SameShape H root heap s f ∧
    ∀ a, H.Reach root a → s.heap.instances (f a) = reread size H a := by
  have hec : ∀ a, ∃ x, H.Reach root a → heap.memory.storages.length ≤ x ∧
      s.find (H.objId a) = some x ∧
      (restoring G stored good heap).Reread s x (H.objId a) (H.instances a) := by
    intro a
    by_cases hr : H.Reach root a
    · obtain ⟨x, hh⟩ := reread_of_copied copied hr
      exact ⟨x, fun _ => hh⟩
    · exact ⟨0, fun hi => absurd hi hr⟩
  choose f hp using hec
  have hf : ∀ a, H.Reach root a → s.heap.instances (f a) = reread size H a :=
    fun a hr => (hp a hr).2.2.fields
  have hra : f root = heap.memory.storages.length :=
    Option.some.inj ((hp root (refl root)).2.1.symm.trans copied.copy)
  refine ⟨f, ⟨?_, fun a b haa hab hs => ?_, fun x => ⟨?_, ?_⟩, fun a hr => ?_,
    fun a hr => (hp a hr).2.1⟩, hf⟩
  · rw [hra]
    exact copied.outside
  · refine G.distinct a b haa hab ?_
    have he : reread size H a = reread size H b := by
      rw [← hf a haa, hs, hf b hab]
    have ids : (reread size H a).objId = (reread size H b).objId := by rw [he]
    exact ids
  · rintro ⟨hn, hl⟩
    by_cases h1 : s.find (H.objId root) = some x
    · exact ⟨root, refl root, Option.some.inj ((hp root (refl root)).2.1.symm.trans h1)⟩
    · obtain ⟨o, hm, -, -, found⟩ := copied.placed x hn hl h1
      obtain ⟨a, hr, rfl⟩ := (mem_objects G).mp hm
      exact ⟨a, hr, Option.some.inj ((hp a hr).2.1.symm.trans found)⟩
  · rintro ⟨a, hr, rfl⟩
    obtain ⟨hn, found, -⟩ := hp a hr
    exact ⟨hn, Memory.lt_of_live (find_live found)⟩
  · rw [(hp a hr).2.2.members]
    exact map_target_of_refers (G.refers a hr) fun t hi =>
      ⟨G.valid t (Persistable.reach_member hr hi), (hp t (Persistable.reach_member hr hi)).2.1⟩

end

/-- An object read over default values is as it was exactly when no default shows through. -/
theorem reread_eq_iff {a : Addr} :
    reread size H a = H.instances a ↔ (H.cls a).Speaks size (H.instances a).state := by
  have he : ∀ o : Instance, (⟨o.cls, o.objId, o.cls.merged size o.state⟩ : Instance) = o ↔
      o.cls.Speaks size o.state := by
    rintro ⟨cls, id, st⟩
    rw [← ClassDesc.merged_eq_iff]
    simp
  exact he (H.instances a)

end

section

variable {r : Registry} {size : SizeType} {H : Heap} {root : Addr} {q : Place}

/-- A save and a load end with each object saved and loaded once, and with a graph of the same
shape in which each object was read over the default values of its class. -/
theorem save_load (hk : KeepsStored σ) (E : Encodable r size H root)
    (ho : OwnClasses r H root storage) (too : Bool) (hp : H.memory.read q = some root)
    (heap : Heap) {fuel : Nat} (he : H.memory.storages.length < fuel) :
    ∃ sa l f, Saving.save r size H storage fuel too q (H.objId root) = some sa ∧
      Loading.load r size sa.storage heap fuel (H.objId root) = some l ∧
      SavedOnce r size H root sa ∧ LoadedOnce H root l ∧
      SameShape H root heap l f ∧
      ∀ a, H.Reach root a → l.heap.instances (f a) = reread size H a := by
  obtain ⟨ms, sa, hsv, hs⟩ := save_saves E.graph E.few hk storage too hp he
  obtain ⟨l, hl, copied⟩ := load_copied E.graph (stored_of_saves hk E.graph ho hs) E.good heap he
  obtain ⟨f, hsh, hf⟩ := sameShape_of_copied copied
  exact ⟨sa, l, f, hsv, hl, savedOnce_of_saves E.graph hs, loadedOnce_of_copied copied, hsh, hf⟩

theorem persists_of_speaks (hk : KeepsStored σ) (E : Encodable r size H root)
    (own : OwnClasses r H root storage) (too : Bool) (hp : H.memory.read q = some root)
    (heap : Heap) (hs : ∀ a, H.Reach root a → (H.cls a).Speaks size (H.instances a).state) :
    Persists r size H root storage too q heap := by
  intro fuel he
  obtain ⟨sa, l, f, hsv, hl, ho, hc, hsh, hf⟩ :=
    save_load hk E own too hp heap he
  refine ⟨sa, l, f, hsv, hl, ho, hc, hsh, fun a hr => ?_⟩
  rw [hf a hr, reread_eq_iff]
  exact hs a hr

theorem speaks_of_persists (hk : KeepsStored σ) (E : Encodable r size H root)
    (ho : OwnClasses r H root storage) {too : Bool} (hpn : H.memory.read q = some root)
    {heap : Heap} (hp : Persists r size H root storage too q heap) {a : Addr}
    (hr : H.Reach root a) : (H.cls a).Speaks size (H.instances a).state := by
  obtain ⟨sa, l, f, hsv, hl, -, -, hi⟩ := hp _ (Nat.lt_succ_self _)
  obtain ⟨saved', loaded', g, hs', hl', -, -, hs, hf⟩ :=
    save_load hk E ho too hpn heap (Nat.lt_succ_self H.memory.storages.length)
  obtain rfl : sa = saved' := Option.some.inj (hsv.symm.trans hs')
  obtain rfl : l = loaded' := Option.some.inj (hl.symm.trans hl')
  -- an id has one object, so both ways of copying agree
  have he : f a = g a :=
    Option.some.inj ((hi.found a hr).symm.trans (hs.found a hr))
  rw [← reread_eq_iff, ← hf a hr, ← he]
  exact hi.instances a hr

/-- A graph of objects comes back isomorphic from its storage exactly when none of its fields
lets the default value of its class show through. -/
theorem persists_iff_speaks (keeps : KeepsStored σ) (E : Encodable r size H root)
    (own : OwnClasses r H root storage) (toObj : Bool) (points : H.memory.read q = some root)
    (heap : Heap) : Persists r size H root storage toObj q heap ↔
      ∀ a, H.Reach root a → (H.cls a).Speaks size (H.instances a).state :=
  ⟨fun hp _ hr => speaks_of_persists keeps E own points hp hr,
    persists_of_speaks keeps E own toObj points heap⟩

end

theorem ram_keepsStored : KeepsStored RamDomainStorage where
  load_store s qu data := by
    show ((s.saveData qu data).load qu).data? = _
    rw [data?_load, classesOf, lookup_saveData]
    simp [saved, AList.lookup_insert]
  load_store_ne s qu data o apart := by
    show ((s.saveData qu data).load o).data? = (s.load o).data?
    rw [data?_load, data?_load]
    by_cases same_id : o.id = qu.id
    · rw [classesOf, same_id, lookup_saveData]
      simp only [Option.getD_some, saved]
      by_cases same_class : o.classId = qu.classId
      · have hv : o.version ≠ qu.version := fun he =>
          apart (by cases o; cases qu; simp_all)
        rw [same_class, AList.lookup_insert, Option.bind_some, AList.lookup_insert_ne hv]
        cases (s.classesOf qu.id).lookup qu.classId <;> rfl
      · rw [AList.lookup_insert_ne same_class]
    · rw [classesOf, lookup_saveData_ne s qu data same_id, classesOf]
  coherent := ram_coherent

section

def oneByte (b : UInt8) : Bytes 1 := ⟨[b], length_singleton⟩

def peerFields : List FieldDesc :=
  [.value (.optional (.int 1 Nat.one_pos)) (some (oneByte 5)), .objPtr false, .objPtr false]

def peerClass : ClassDesc := .derived 7 0 .obj peerFields

theorem peers_new : (Registry.empty 1).factories.lookup 7 = none := rfl

theorem peers_named : (7 : ClassId) ≠ (Registry.empty 1).objClass := by decide

def peerRegistry : Registry :=
  (Registry.empty 1).registerClass 7 0 .obj peerFields peers_new peers_named (Or.inl rfl)

def peerRow (v : Option (Bytes 1)) (p q : ObjectPtrBase) : peerClass.State := ((), v, p, q, ())

def peerMemory : Memory :=
  ⟨[⟨2, 2, [some 1, some 1]⟩, ⟨2, 2, [some 0, none]⟩], [some 0], [], []⟩

def peers (v w : Option (Bytes 1)) : Heap where
  memory := peerMemory
  instances
    | 0 => ⟨peerClass, 10, peerRow v ⟨11, 0⟩ ⟨11, 0⟩⟩
    | _ => ⟨peerClass, 11, peerRow w ⟨10, 0⟩ ⟨0, unloaded⟩⟩

theorem peers_reach {a : Addr} (path : Leads peerMemory.targets 0 a) : a = 0 ∨ a = 1 := by
  refine stays (P := fun a => a = 0 ∨ a = 1) path ?_ (.inl rfl)
  rintro n (rfl | rfl) m he
  · exact .inr (mem_pair.mp he |>.elim id id)
  · exact .inl (mem_singleton.mp he)

variable (v w : Option (Bytes 1))

theorem peers_cases {P : Addr → Prop} (hz : P 0) (ho : P 1) (a : Addr)
    (hr : (peers v w).Reach 0 a) : P a := by
  rcases peers_reach hr with rfl | rfl
  · exact hz
  · exact ho

theorem peers_persistable : Persistable peerRegistry (peers v w) 0 where
  valid := peers_cases v w (show (10 : ObjId) ≠ 0 by decide) (show (11 : ObjId) ≠ 0 by decide)
  distinct := by
    intro a b hra hrb he
    rcases peers_reach hra with rfl | rfl <;> rcases peers_reach hrb with rfl | rfl
    · rfl
    · exact absurd (show (10 : ObjId) = 11 from he) (by decide)
    · exact absurd (show (11 : ObjId) = 10 from he) (by decide)
    · rfl
  registered := peers_cases v w rfl rfl
  final := peers_cases v w rfl rfl
  refers := by
    refine peers_cases v w ?_ ?_
    · exact .cons ⟨rfl, rfl, rfl⟩ (.cons ⟨rfl, rfl, rfl⟩ .nil)
    · exact .cons ⟨rfl, rfl, rfl⟩ (.cons rfl .nil)
  references := by
    refine peers_cases v w ?_ ?_
    · show peerMemory.graph.references peerMemory.roots 0 < 128
      decide
    · show peerMemory.graph.references peerMemory.roots 1 < 128
      decide
  counted := show ∀ a ∈ peerMemory.live, (peerMemory.mainRefs a).toNat =
      peerMemory.graph.references peerMemory.roots a by decide
  anchored := ⟨show ∀ a ∈ peerMemory.roots, a ∈ peerMemory.live ∨ a ∈ [] by decide,
    show ∀ b ∈ peerMemory.live, ∀ t ∈ peerMemory.targets b, t ∈ peerMemory.live ∨ t ∈ [] by decide⟩
  held := RefGraph.Reached.of_mem (show (0 : Addr) ∈ peerMemory.roots by decide)
    (show 0 ∈ peerMemory.live by decide)

theorem peerRow_good (p q : ObjectPtrBase) : peerClass.Good shortSizes (peerRow v p q) := by
  refine ⟨trivial, ?_, fun _ none => absurd none not_mem_nil,
    fun _ none => absurd none not_mem_nil, trivial⟩
  cases v with
  | none | some b => exact fun _ none => absurd none not_mem_nil

theorem peers_encodable : Encodable peerRegistry shortSizes (peers v w) 0 where
  graph := peers_persistable v w
  few := by
    intro l hd hi
    have hpr : l ⊆ [0, 1] := fun n hm => by
      have hp : Leads peerMemory.targets 0 n := Ptr.Lifetimes.leads_targets (hi n hm)
      simpa using peers_reach hp
    exact ((subperm_of_subset hd hpr).length_le).trans (by decide)
  good := by
    exact peers_cases v w (peerRow_good v _ _) (peerRow_good w _ _)

theorem peers_ownClasses : OwnClasses peerRegistry (peers v w) 0 empty :=
  fun _ _ _ hl => absurd hl not_mem_nil

def noObjects : Heap := ⟨Memory.empty, fun _ => ⟨.obj, 0, ()⟩⟩

theorem persists_iff_speaks_peers :
    Persists peerRegistry shortSizes (peers (some (oneByte 3)) (some (oneByte 4))) 0
      empty false (.outside 0) noObjects := by
  refine (persists_iff_speaks ram_keepsStored (peers_encodable _ _) (peers_ownClasses _ _) false
    rfl noObjects).mpr ?_
  refine peers_cases _ _ ?_ ?_ <;> repeat' constructor

/-- An empty optional comes back with the default value of the class in it. -/
theorem empty_optional_not_persistent :
    ¬ Persists peerRegistry shortSizes (peers none (some (oneByte 4))) 0
      empty false (.outside 0) noObjects := by
  intro hp
  have hs := speaks_of_persists ram_keepsStored (peers_encodable _ _) (peers_ownClasses _ _)
    rfl hp (refl 0)
  have hd : some (oneByte 5) = none := hs.2.1
  cases hd

end

end Ae.Obj.Persistence
