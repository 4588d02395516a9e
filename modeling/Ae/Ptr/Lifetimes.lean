/- source: ptr/ptr.{h,cpp}, tests/test-ptr/test-ptr-cycles.cpp
   digest: Over whole runs the destroyed objects are those no outside Ptr reaches. -/

import Ae.Lib.EventRun
import Ae.Ptr.Release

set_option autoImplicit false

namespace Ae.Ptr.Lifetimes
open List
open Lib.CountedGraph Lib.DepthFirst Lib.EventRun DecrementGraph PtrBase ReferenceTree
open Release
open Memory hiding modify read
open RefGraph

/-- What a program does with `Ptr`s; the destructor of an outside `Ptr` is its `reset`. -/
inductive Operation where
  | makePtr (k : Nat)
  | copy (q : Place)
  | assign (p q : Place)
  | moveAssign (p q : Place)
  | reset (p : Place)
deriving DecidableEq, Repr

def step (M : Memory) : Operation → Memory
  | .makePtr k => M.makePtr k
  | .copy q => M.copy q
  | .assign p q => M.assign p q
  | .moveAssign p q => M.moveAssign p q
  | .reset p => M.reset p

/-- A `Ptr` that exists: one outside, or a member of an object that was not destroyed. -/
def Held (M : Memory) : Place → Prop
  | .outside i => i < M.outside.length
  | .member a i =>
    a < M.storages.length ∧ a ∉ M.destroyed ∧ i < (M.storage a).members.length

def Outer : Place → Prop
  | .outside _ => True
  | .member _ _ => False

instance (M : Memory) : DecidablePred (Held M)
  | .outside _ => inferInstanceAs (Decidable (_ < _))
  | .member _ _ => inferInstanceAs (Decidable (_ ∧ _ ∧ _))

instance : DecidablePred Outer
  | .outside _ => isTrue trivial
  | .member _ _ => isFalse id

/-- Objects are made, outside `Ptr`s are copied, assigned from one another and reset, and
null members take copies of any `Ptr`. -/
def Permitted (M : Memory) : Operation → Prop
  | .makePtr _ => True
  | .copy q => Held M q
  | .assign p q =>
    Held M p ∧ Held M q ∧ (Outer p ∧ Outer q ∨ ¬ Outer p ∧ M.read p = none)
  | .moveAssign p q => Held M p ∧ Held M q ∧ Outer p ∧ Outer q
  | .reset p => Held M p ∧ Outer p

instance (M : Memory) : DecidablePred (Permitted M)
  | .makePtr _ => isTrue trivial
  | .copy _ => inferInstanceAs (Decidable (Held _ _))
  | .assign _ _ => inferInstanceAs (Decidable (_ ∧ _ ∧ _))
  | .moveAssign _ _ => inferInstanceAs (Decidable (_ ∧ _ ∧ _ ∧ _))
  | .reset _ => inferInstanceAs (Decidable (_ ∧ _))

def objects (M : Memory) : Finset Addr :=
  (Finset.range M.storages.length).filter fun a => a ∉ M.destroyed

/-- The number of `Ptr`s to an object: outside ones and members of objects. -/
def pointers (M : Memory) (a : Addr) : Nat :=
  M.outside.count (some a) + ∑ b ∈ objects M, (M.storage b).members.count (some a)

/-- An outside `Ptr` points to an object from which members lead to `a`. -/
def Reachable (M : Memory) (a : Addr) : Prop := ∃ r, some r ∈ M.outside ∧ Leads M.targets r a

/-- Fewer than 256 `Ptr`s point to each object and each leads to at most 256 objects. -/
structure Small (M : Memory) : Prop where
  pointers : ∀ a, pointers M a < 256
  objects : ∀ a, ∀ l : List Addr, l.Nodup → (∀ n ∈ l, n ∈ objects M ∧ Leads M.targets a n) →
    l.length ≤ 256

structure Exact (M : Memory) : Prop where
  counted : Counted M M.roots
  rooted : Rooted Reached M M.roots
  anchored : Anchored M M.roots []
  distinct : M.destroyed.Nodup
  destroyed : ∀ a, a ∈ M.destroyed ↔ a < M.storages.length ∧ a ∉ M.live

section

variable {M : Memory} {a : Addr}

theorem mem_roots : a ∈ M.roots ↔ some a ∈ M.outside := by
  simp [roots]

theorem mem_targets {b : Addr} : b ∈ M.targets a ↔ some b ∈ (M.storage a).members := by
  simp [targets]

theorem count_filterMap (l : List (Option Addr)) : (l.filterMap id).count a = l.count (some a) := by
  induction l with
  | nil => rfl
  | cons v rest ih =>
    cases v with
    | none => simpa using ih
    | some b => simpa [count_cons] using ih

theorem Exact.objects_eq (he : Exact M) : objects M = M.live := by
  ext a
  have hd := he.destroyed a
  simp only [objects, Finset.mem_filter, Finset.mem_range, hd]
  have hi : a ∈ M.live → a < M.storages.length := lt_of_live
  tauto

theorem pointers_eq (ha : objects M = M.live) : pointers M a = M.graph.references M.roots a := by
  rw [pointers, references, roots, count_filterMap, ha]
  congr 1
  refine Finset.sum_congr rfl fun b hh => ?_
  rw [succ_of_live hh, targets, count_filterMap]

theorem leads_targets {r : Addr} (hp : Leads M.graph.next r a) : Leads M.targets r a := by
  induction hp with
  | refl => exact Leads.refl r
  | @tail b c _ he ih =>
    have hm := (mem_next.mp he).1
    by_cases hd : M.mainRefs b = 0
    · simp [graph, hd] at hm
    · rw [succ_of_live (mem_live.mpr hd)] at hm
      exact ih.tail hm

theorem leads_next (hf : Anchored M M.roots []) {r : Addr} (hh : r ∈ M.live)
    (hp : Leads M.targets r a) : Leads M.graph.next r a := by
  induction hp with
  | refl => exact Leads.refl r
  | @tail b c _ he ih =>
    have hlb : b ∈ M.live := leads_live ih hh
    refine ih.tail (mem_next.mpr ⟨?_, ?_⟩)
    · rw [succ_of_live hlb]
      exact he
    · exact (hf.members b hlb c he).resolve_right (by simp)

theorem reachable_iff (hf : Anchored M M.roots []) : Reachable M a ↔ M.graph.Reached M.roots a := by
  constructor
  · rintro ⟨r, hm, hp⟩
    have hh : r ∈ M.live := (hf.roots r (mem_roots.mpr hm)).resolve_right (by simp)
    exact ⟨r, mem_roots.mpr hm, hh, leads_next hf hh hp⟩
  · rintro ⟨r, hm, -, hp⟩
    exact ⟨r, mem_roots.mp hm, leads_targets hp⟩

theorem Exact.live_iff_reachable (exact : Exact M) : a ∈ M.live ↔ Reachable M a := by
  rw [reachable_iff exact.anchored]
  exact ⟨exact.rooted a, fun hr => hr.live⟩

theorem Exact.indexable (exact : Exact M) (hs : Small M) : ∀ a ∈ M.live, Indexable M a := by
  intro a hh l hd hl
  refine hs.objects a l hd fun n hm => ⟨?_, leads_targets (hl n hm)⟩
  rw [exact.objects_eq]
  exact leads_live (hl n hm) hh

end

section

variable {l : List (Option Addr)} {i : Nat} {y : Addr}

theorem emptied_perm (hh : l[i]? = some (some y)) :
    (l.filterMap id).Perm (y :: (l.set i none).filterMap id) := by
  induction l generalizing i with
  | nil => simp at hh
  | cons v rest ih =>
    cases i with
    | zero =>
      obtain rfl : v = some y := by simpa using hh
      exact Perm.refl _
    | succ i =>
      have hl := ih (i := i) (by simpa using hh)
      cases v with
      | none => exact hl
      | some b => exact (hl.cons b).trans (Perm.swap y b _)

theorem getElem?_null (hi : i < l.length) (hn : l[i]?.join = none) :
    l[i]? = some none := by
  rw [getElem?_eq_getElem hi] at hn ⊢
  simpa using hn

theorem set_null (hn : l[i]? = some none) : l.set i none = l := by
  refine ext_getElem? fun j => ?_
  by_cases same : i = j
  · subst same
    have hi : i < l.length := (List.getElem?_eq_some_iff.mp hn).1
    rw [getElem?_set_self hi, hn]
  · rw [getElem?_set_ne same]

theorem filled_perm (hn : l[i]? = some none) :
    ((l.set i (some y)).filterMap id).Perm (y :: l.filterMap id) := by
  have hi : i < l.length := (List.getElem?_eq_some_iff.mp hn).1
  have hh : (l.set i (some y))[i]? = some (some y) := getElem?_set_self hi
  have he := emptied_perm hh
  rwa [set_set, set_null hn] at he

end

section

variable {M N : Memory} {A : List Addr} {y : Addr} {B : List Addr} {i k : Nat} {q : Place}

theorem Counted.perm (hc : Counted M A) (he : A.Perm B) : Counted M B := by
  intro a hh
  rw [hc a hh, references, references, he.count_eq]

theorem Rooted.perm (ha : Rooted Reached M A) (he : A.Perm B) : Rooted Reached M B :=
  fun a hh => (ha a hh).mono fun _ hm _ => he.subset hm

theorem Anchored.perm {dying : List Addr} (hf : Anchored M A dying) (he : A.Perm B) :
    Anchored M B dying :=
  ⟨fun r hm => hf.roots r (he.symm.subset hm), hf.members⟩

theorem Exact.released (exact : Exact M) {P : Place → Prop} (he : M.roots.Perm A)
    (hd : Released Reached P A N.roots M N) : Exact N := by
  obtain ⟨new, log, hds, hni⟩ := hd.ended
  have ha := Rooted.perm exact.rooted he
  refine ⟨hd.counted, hd.rooted ha,
    hd.anchored [] ha (Anchored.perm exact.anchored he), ?_, fun a => ?_⟩
  · rw [log, nodup_append]
    refine ⟨exact.distinct, hds, ?_⟩
    rintro a hm b hl rfl
    exact ((exact.destroyed a).mp hm).2 ((hni a).mp hl).1
  · have hi : a ∈ M.live → a < M.storages.length := lt_of_live
    have hb : a ∈ N.live → a ∈ M.live := fun hh => hd.frame.fewer hh
    rw [log, mem_append, exact.destroyed, hni, hd.frame.size]
    tauto

theorem Exact.reset_outer (exact : Exact M) (hs : ∀ a ∈ M.live, Indexable M a)
    (hi : i < M.outside.length) :
    Exact (M.reset (.outside i)) ∧ (M.reset (.outside i)).outside = M.outside.set i none := by
  rcases hh : M.outside[i]? with _ | _ | y
  · simp at hh
    omega
  · have hn : M.read (.outside i) = none := by simp [Memory.read, hh]
    rw [reset, resetWith_null hn, set_null hh]
    exact ⟨exact, rfl⟩
  · have hp : M.read (.outside i) = some y := by simp [Memory.read, hh]
    have he := emptied_perm hh
    have hhr : y ∈ M.live :=
      (exact.anchored.roots y (he.symm.subset mem_cons_self)).resolve_right (by simp)
    have hd := reclaim_released (resets M.storages.length) hhr
      (Counted.perm exact.counted he) hs card_live_le
    have ho : ((M.decrement y).reclaim (resetWith M.storages.length) y).outside =
        M.outside := ext_getElem? fun j => hd.frame.outside j id
    have run := reset_eq hp hhr
    have hr : (M.reset (.outside i)).outside = M.outside.set i none := by
      rw [run, write, ho]
    refine ⟨exact.released (P := (· = .outside i)) he ?_, hr⟩
    rw [Memory.roots, hr, run]
    exact hd.followed keeping_reached
      (Released.write keeping_reached hd.counted (by rintro a j ⟨⟩) none)

theorem mainRefs_increment (hi : y < M.storages.length) :
    (M.increment (some y)).mainRefs y = M.mainRefs y + 1 := by
  rw [mainRefs, increment, storage_modify_self hi, mainRefs]

variable {a : Addr}

theorem mainRefs_increment_ne (hn : a ≠ y) : (M.increment (some y)).mainRefs a = M.mainRefs a := by
  rw [mainRefs, increment, storage_modify_ne hn, mainRefs]

theorem members_increment (a : Addr) :
    ((M.increment (some y)).storage a).members = (M.storage a).members :=
  members_modify fun _ => rfl

theorem toNat_increment (hi : y < M.storages.length) (hr : (M.mainRefs y).toNat + 1 < 256) :
    ((M.increment (some y)).mainRefs y).toNat = (M.mainRefs y).toNat + 1 := by
  rw [mainRefs_increment hi, UInt8.toNat_add, UInt8.toNat_one, Nat.mod_eq_of_lt hr]

theorem live_increment (hh : y ∈ M.live) (hr : (M.mainRefs y).toNat + 1 < 256) :
    (M.increment (some y)).live = M.live := by
  ext a
  rw [mem_live, mem_live]
  by_cases same : a = y
  · subst same
    have hc := toNat_increment (lt_of_live hh) hr
    have hn : (M.increment (some a)).mainRefs a ≠ 0 := by
      intro hz
      rw [hz, UInt8.toNat_zero] at hc
      omega
    simp [hn, mem_live.mp hh]
  · rw [mainRefs_increment_ne same]

theorem pointers_increment (a : Addr) : pointers (M.increment (some y)) a = pointers M a := by
  have he : objects (M.increment (some y)) = objects M := by
    simp only [objects, increment, Memory.modify, List.length_modify]
  rw [pointers, pointers, he]
  congr 1
  exact Finset.sum_congr rfl fun b _ => by rw [members_increment]

theorem Exact.increment (exact : Exact M) (hh : y ∈ N.live) (hs : N.storages.length =
    M.storages.length) (hl : N.destroyed = M.destroyed) (hsal : N.live = M.live)
    (hmn : ∀ a ∈ M.live, N.mainRefs a = M.mainRefs a)
    (hr : ∀ a, N.graph.references N.roots a = M.graph.references M.roots a +
      if a = y then 1 else 0)
    (hg : ∀ a, M.graph.Reached M.roots a → N.graph.Reached N.roots a)
    (hrt : ∀ r ∈ N.roots, r = y ∨ r ∈ M.roots)
    (hmm : ∀ b ∈ M.live, ∀ t ∈ N.targets b, t = y ∨ t ∈ M.targets b)
    (hsm : Small (N.increment (some y))) : Exact (N.increment (some y)) := by
  have hi := lt_of_live hh
  have hby : y ∈ M.live := hsal ▸ hh
  have hrh : (N.mainRefs y).toNat + 1 < 256 := by
    have hbn := hsm.pointers y
    have ha : objects N = N.live := by
      rw [objects, hs, hl, hsal, ← exact.objects_eq, objects]
    rw [pointers_increment, pointers_eq ha, hr, if_pos rfl, ← exact.counted y hby,
      ← hmn y hby] at hbn
    exact hbn
  have hsl := live_increment hh hrh
  have he : (N.increment (some y)).graph = N.graph := by
    refine graph_congr (fun a => ?_) fun a _ => ?_
    · have hli := Finset.ext_iff.mp hsl a
      rw [mem_live, mem_live] at hli
      exact not_iff_not.mp hli
    · rw [targets, members_increment, targets]
  have htl : ∀ t, t = y ∨ t ∈ M.live → t ∈ (N.increment (some y)).live := by
    rintro t (rfl | live_t)
    · exact hsl ▸ hh
    · rw [hsl, hsal]
      exact live_t
  refine ⟨fun a hla => ?_, fun a hla => ?_, ⟨fun r hm => ?_, fun b hlb t hm => ?_⟩, ?_, fun a => ?_⟩
  · rw [hsl] at hla
    have hb : a ∈ M.live := hsal ▸ hla
    have ht := hr a
    rw [← exact.counted a hb, ← hmn a hb] at ht
    rw [he, show (N.increment (some y)).roots = N.roots from rfl, ht]
    by_cases equal : a = y
    · subst equal
      rw [toNat_increment hi hrh, if_pos rfl]
    · rw [mainRefs_increment_ne equal, if_neg equal, add_zero]
  · rw [hsl, hsal] at hla
    rw [he]
    exact hg a (exact.rooted a hla)
  · refine .inl (htl r ((hrt r hm).imp_right fun ho => ?_))
    exact (exact.anchored.roots r ho).resolve_right (by simp)
  · rw [hsl, hsal] at hlb
    rw [targets, members_increment, ← targets] at hm
    refine .inl (htl t ((hmm b hlb t hm).imp_right fun ho => ?_))
    exact (exact.anchored.members b hlb t ho).resolve_right (by simp)
  · rw [show (N.increment (some y)).destroyed = N.destroyed from rfl, hl]
    exact exact.distinct
  · rw [show (N.increment (some y)).destroyed = N.destroyed from rfl, hl, exact.destroyed,
      hsl, hsal, Memory.increment, Memory.length_modify, hs]

theorem Exact.attach_root (exact : Exact M) (hh : y ∈ M.live) {o : List (Option Addr)}
    (hm : (o.filterMap id).Perm (y :: M.roots))
    (hs : Small ({ M with outside := o }.increment (some y))) :
    Exact ({ M with outside := o }.increment (some y)) := by
  refine exact.increment (N := { M with outside := o }) hh rfl rfl rfl (fun _ _ => rfl)
    (fun a => ?_) (fun a hr => ?_) (fun r mem => ?_) (fun b _ t => .inr) hs
  · have hc := references_cons (M := M) (x := y) (A := M.roots) a
    have ht : references M.graph (o.filterMap id) a = references M.graph (y :: M.roots) a := by
      rw [references, hm.count_eq, references]
    exact ht.trans (hc.trans (add_comm _ _))
  · exact hr.mono fun r mem _ => hm.symm.subset (mem_cons_of_mem y mem)
  · exact mem_cons.mp (hm.subset mem)

theorem Exact.attach_member (exact : Exact M) (here : y ∈ M.live) (owner : a ∈ M.live)
    (null : (M.storage a).members[i]? = some none)
    (small : Small ((M.write (.member a i) (some y)).increment (some y))) :
    Exact ((M.write (.member a i) (some y)).increment (some y)) := by
  have inside := lt_of_live owner
  have members : ((M.write (.member a i) (some y)).storage a).members =
      (M.storage a).members.set i (some y) := by
    rw [write, storage_modify_self inside]
  have more : ((M.write (.member a i) (some y)).targets a).Perm (y :: M.targets a) := by
    rw [targets, members]
    exact filled_perm null
  have same_live := live_write (M := M) (.member a i) (some y)
  have size : (M.write (.member a i) (some y)).storages.length = M.storages.length :=
    length_modify
  have own_succ : ((M.write (.member a i) (some y)).graph.succ a).Perm (y :: M.graph.succ a) := by
    rw [succ_of_live (same_live ▸ owner), succ_of_live owner]
    exact more
  refine exact.increment (same_live ▸ here) size rfl same_live
    (fun b _ => mainRefs_write _ _)
    (fun b => references_attach same_live owner own_succ fun c _ => succ_write_ne)
    (fun b reached => reached.grow same_live.ge fun c live_c t edge => ?_)
    (fun r => .inr) (fun b live_b t mem => ?_) small
  · by_cases same : c = a
    · subst same
      exact own_succ.symm.subset (mem_cons_of_mem y edge)
    · rwa [succ_write_ne same]
  · by_cases same : b = a
    · subst same
      exact mem_cons.mp (more.subset mem)
    · exact .inr (targets_write_ne same ▸ mem)

theorem Exact.exchange (he : Exact M) {o : List (Option Addr)}
    (hs : (o.filterMap id).Perm M.roots) : Exact { M with outside := o } :=
  ⟨Counted.perm (M := { M with outside := o }) he.counted hs.symm,
    Rooted.perm (M := { M with outside := o }) he.rooted hs.symm,
    Anchored.perm (M := { M with outside := o }) ⟨he.anchored.roots, he.anchored.members⟩ hs.symm,
    he.distinct, he.destroyed⟩

theorem storage_makePtr (a : Addr) : (M.makePtr k).storage a =
      if a = M.storages.length then ⟨1, 1, replicate k none⟩ else M.storage a := by
  rcases lt_trichotomy a M.storages.length with hl | equal | more
  · have hn : a ≠ M.storages.length := hl.ne
    simp [makePtr, storage, hn, getElem?_append_left hl]
  · simp [makePtr, storage, equal]
  · have hn : a ≠ M.storages.length := more.ne'
    have hp : (M.storages ++ [(⟨1, 1, replicate k none⟩ : PtrStorage)]).length ≤ a := by
      simpa using Nat.succ_le_of_lt more
    simp [makePtr, storage, hn, getElem?_eq_none hp, getElem?_eq_none more.le]

theorem mainRefs_makePtr (k : Nat) (a : Addr) :
    (M.makePtr k).mainRefs a = if a = M.storages.length then 1 else M.mainRefs a := by
  rw [mainRefs, storage_makePtr]
  split <;> rfl

theorem targets_makePtr (k : Nat) (a : Addr) :
    (M.makePtr k).targets a = if a = M.storages.length then [] else M.targets a := by
  rw [targets, storage_makePtr]
  split
  · simp
  · rfl

theorem new_not_live : M.storages.length ∉ M.live :=
  fun hh => lt_irrefl _ (lt_of_live hh)

theorem mem_live_makePtr : a ∈ (M.makePtr k).live ↔ a = M.storages.length ∨ a ∈ M.live := by
  rw [mem_live, mem_live, mainRefs_makePtr]
  split <;> simp_all

theorem roots_makePtr (k : Nat) : (M.makePtr k).roots = M.roots ++ [M.storages.length] := by
  simp [makePtr, roots]

theorem succ_makePtr (hh : a ∈ M.live) : (M.makePtr k).graph.succ a = M.graph.succ a := by
  have ha : a ≠ M.storages.length := fun he => new_not_live (he ▸ hh)
  rw [succ_of_live (mem_live_makePtr.mpr (.inr hh)), succ_of_live hh, targets_makePtr, if_neg ha]

theorem references_makePtr (k : Nat) (a : Addr) :
    (M.makePtr k).graph.references (M.makePtr k).roots a =
      M.graph.references M.roots a + if a = M.storages.length then 1 else 0 := by
  have hle : (M.makePtr k).graph.live = insert M.storages.length M.live := by
    ext b
    exact mem_live_makePtr.trans Finset.mem_insert.symm
  have hsn : (M.makePtr k).graph.succ M.storages.length = [] := by
    simp [graph, targets_makePtr]
  have ho : ∑ b ∈ M.live, ((M.makePtr k).graph.succ b).count a =
      ∑ b ∈ M.live, (M.graph.succ b).count a :=
    Finset.sum_congr rfl fun b hh => by rw [succ_makePtr hh]
  have hs : ∑ b ∈ (M.makePtr k).graph.live, ((M.makePtr k).graph.succ b).count a =
      ∑ b ∈ M.graph.live, (M.graph.succ b).count a := by
    rw [hle, Finset.sum_insert new_not_live, ho, hsn, count_nil, Nat.zero_add]
    rfl
  rw [references, references, hs, roots_makePtr, count_append, count_singleton]
  by_cases same : a = M.storages.length
  · simp [same]
    omega
  · simp [same, Ne.symm same]

theorem Exact.unreferenced (exact : Exact M) (hg : a ∉ M.live) :
    M.graph.references M.roots a = 0 := by
  have hnr : M.roots.count a = 0 := count_eq_zero.mpr fun hm =>
    hg ((exact.anchored.roots a hm).resolve_right (by simp))
  have hnm : ∑ b ∈ M.graph.live, (M.graph.succ b).count a = 0 := by
    refine Finset.sum_eq_zero fun b hh => count_eq_zero.mpr fun hm => hg ?_
    rw [succ_of_live hh] at hm
    exact (exact.anchored.members b hh a hm).resolve_right (by simp)
  rw [references, hnr, hnm]

theorem Exact.makePtr (exact : Exact M) (k : Nat) : Exact (M.makePtr k) := by
  refine ⟨fun a hh => ?_, fun a hh => ?_, ⟨fun r hm => ?_, fun b hh t hm => ?_⟩,
    exact.distinct, fun a => ?_⟩
  · rw [references_makePtr, mainRefs_makePtr]
    by_cases he : a = M.storages.length
    · subst he
      rw [exact.unreferenced new_not_live, if_pos rfl, if_pos rfl]
      rfl
    · rw [if_neg he, if_neg he, exact.counted a ((mem_live_makePtr.mp hh).resolve_left he),
        add_zero]
  · rw [roots_makePtr]
    rcases mem_live_makePtr.mp hh with rfl | old
    · exact RefGraph.Reached.of_mem (by simp) hh
    · refine ((exact.rooted a old).grow (H := (M.makePtr k).graph) ?_ ?_).mono
        fun r hm _ => mem_append_left _ hm
      · exact fun b hlb => mem_live_makePtr.mpr (.inr hlb)
      · exact fun b hlb c hed => by rwa [succ_makePtr hlb]
  · rw [roots_makePtr, mem_append, mem_singleton] at hm
    refine .inl (mem_live_makePtr.mpr (hm.symm.imp_right fun old => ?_))
    exact (exact.anchored.roots r old).resolve_right (by simp)
  · rw [targets_makePtr] at hm
    split at hm
    · simp at hm
    · have old := (mem_live_makePtr.mp hh).resolve_left ‹_›
      refine .inl (mem_live_makePtr.mpr (.inr ?_))
      exact (exact.anchored.members b old t hm).resolve_right (by simp)
  · have hs : (M.makePtr k).storages.length = M.storages.length + 1 := by
      simp [Memory.makePtr]
    have hi : a ∈ M.live → a < M.storages.length := lt_of_live
    have he : (M.makePtr k).destroyed = M.destroyed := rfl
    rw [he, exact.destroyed, mem_live_makePtr, hs]
    constructor
    · rintro ⟨hl, hg⟩
      exact ⟨Nat.lt_succ_of_lt hl, fun het => het.elim hl.ne hg⟩
    · rintro ⟨hl, ha⟩
      rw [not_or] at ha
      exact ⟨lt_of_le_of_ne (Nat.le_of_lt_succ hl) ha.1, ha.2⟩

theorem owner_live (hl : objects M = M.live) (hh : Held M (.member a i)) : a ∈ M.live := by
  rw [← hl]
  exact Finset.mem_filter.mpr ⟨Finset.mem_range.mpr hh.1, hh.2.1⟩

theorem Anchored.read_live (hf : Anchored M M.roots []) (hl : objects M = M.live) (hh : Held M q)
    (hp : M.read q = some y) : y ∈ M.live := by
  cases q with
  | outside i =>
    rw [Memory.read, Option.join_eq_some_iff] at hp
    exact (hf.roots y (mem_roots.mpr (mem_of_getElem? hp))).resolve_right (by simp)
  | member o i =>
    rw [Memory.read, Option.join_eq_some_iff] at hp
    have hm : y ∈ M.targets o := mem_targets.mpr (mem_of_getElem? hp)
    exact (hf.members o (owner_live hl hh) y hm).resolve_right (by simp)

theorem Exact.read_live (exact : Exact M) (hh : Held M q) (hp : M.read q = some y) : y ∈ M.live :=
  Anchored.read_live exact.anchored exact.objects_eq hh hp

theorem Exact.copy (exact : Exact M) (hh : Held M q) (hs : Small (M.copy q)) :
    Exact (M.copy q) := by
  rw [Memory.copy] at hs ⊢
  cases hp : M.read q with
  | none =>
    exact exact.exchange (o := M.outside ++ [none]) (by simp [roots])
  | some y =>
    rw [hp] at hs
    refine exact.attach_root (exact.read_live hh hp) ?_ hs
    simp [roots]

theorem outside_emptied (hi : i < M.outside.length) (ho : N.outside = M.outside.set i none) :
    N.outside[i]? = some none := by
  rw [ho, getElem?_set_self hi]

theorem Exact.assign_outer (exact : Exact M) (hr : ∀ a ∈ M.live, Indexable M a) {j : Nat}
    (hi : i < M.outside.length) (ht : j < M.outside.length)
    (hs : Small (M.assign (.outside i) (.outside j))) :
    Exact (M.assign (.outside i) (.outside j)) := by
  rw [assign] at hs ⊢
  split
  · exact exact
  · rename_i hd
    rw [if_neg hd] at hs
    obtain ⟨dropped, ho⟩ := exact.reset_outer hr hi
    have hn := outside_emptied hi ho
    cases hp : (M.reset (.outside i)).read (.outside j) with
    | none =>
      simp only [hp]
      exact dropped.exchange (o := (M.reset (.outside i)).outside.set i none)
        (by rw [set_null hn]; exact Perm.refl _)
    | some y =>
      simp only [hp] at hs ⊢
      have hh : Held (M.reset (.outside i)) (.outside j) := by
        rw [Held, ho, length_set]
        exact ht
      exact dropped.attach_root (dropped.read_live hh hp) (filled_perm hn) hs

theorem write_null {p : Place} (hh : Held M p) (hn : M.read p = none) : M.write p none = M := by
  cases p with
  | outside i =>
    have he : M.outside[i]? = some none := getElem?_null hh hn
    rw [write, set_null he]
  | member a i =>
    have he : (M.storage a).members[i]? = some none := getElem?_null hh.2.2 hn
    have hsm : M.storages.modify a (fun s => { s with members := s.members.set i none }) =
        M.storages := by
      refine ext_getElem? fun j => ?_
      rw [getElem?_modify]
      by_cases here : a = j
      · subst here
        have hs : M.storages[a]? = some (M.storage a) := by
          rw [storage, getD_eq_getElem?_getD, getElem?_eq_getElem hh.1]
          rfl
        simp [hs, set_null he]
      · simp [here]
    rw [write, Memory.modify, hsm]

theorem Exact.assign_member (exact : Exact M) (hh : Held M (.member a i)) (hsr : Held M q)
    (hn : M.read (.member a i) = none) (hs : Small (M.assign (.member a i) q)) :
    Exact (M.assign (.member a i) q) := by
  rw [assign] at hs ⊢
  split
  · exact exact
  · rename_i hd
    rw [if_neg hd] at hs
    have hsm : M.reset (.member a i) = M := resetWith_null hn
    simp only [hsm] at hs ⊢
    cases hp : M.read q with
    | none =>
      rw [write_null hh hn]
      exact exact
    | some y =>
      simp only [hp] at hs
      have ho : a ∈ M.live := owner_live exact.objects_eq hh
      have he : (M.storage a).members[i]? = some none := getElem?_null hh.2.2 hn
      exact exact.attach_member (exact.read_live hsr hp) ho he hs

theorem Exact.moveAssign (exact : Exact M) (hr : ∀ a ∈ M.live, Indexable M a) {j : Nat}
    (hi : i < M.outside.length) (ht : j < M.outside.length) :
    Exact (M.moveAssign (.outside i) (.outside j)) := by
  rw [Memory.moveAssign]
  split
  · exact exact
  · rename_i hd
    have hot : i ≠ j := fun hs => hd (by rw [hs])
    obtain ⟨dropped, ho⟩ := exact.reset_outer hr hi
    have hn := outside_emptied hi ho
    have he : (M.reset (.outside i)).read (.outside i) = none := by
      rw [Memory.read, hn]
      rfl
    have hb : j < (M.reset (.outside i)).outside.length := by
      rw [ho, length_set]
      exact ht
    simp only [he]
    refine dropped.exchange (o := ((M.reset (.outside i)).outside.set i
      ((M.reset (.outside i)).read (.outside j))).set j none) ?_
    cases points : (M.reset (.outside i)).outside[j]? with
    | none => simp [getElem?_eq_getElem hb] at points
    | some v =>
      have hm : (M.reset (.outside i)).read (.outside j) = v := by
        rw [Memory.read, points]
        rfl
      rw [hm]
      cases v with
      | none =>
        rw [set_null hn, set_null points]
        exact Perm.refl _
      | some y =>
        have hk : ((M.reset (.outside i)).outside.set i (some y))[j]? = some (some y) := by
          rw [getElem?_set_ne hot, points]
        exact ((emptied_perm hk).symm.trans (filled_perm hn)).cons_inv

theorem Exact.step (exact : Exact M) (hsm : Small M) {o : Operation}
    (hp : Permitted M o) (ha : Small (step M o)) : Exact (step M o) := by
  have hr := exact.indexable hsm
  cases o with
  | makePtr k => exact exact.makePtr k
  | copy q => exact exact.copy hp ha
  | assign p q =>
    obtain ⟨hh, hs, ⟨ho, hfo⟩ | ⟨hi, hn⟩⟩ := hp
    · cases p with
      | outside i =>
        cases q with
        | outside j => exact exact.assign_outer hr hh hs ha
        | member b j => exact hfo.elim
      | member a i => exact ho.elim
    · cases p with
      | outside i => exact absurd trivial hi
      | member a i => exact exact.assign_member hh hs hn ha
  | moveAssign p q =>
    obtain ⟨hh, hs, ho, hfo⟩ := hp
    cases p with
    | outside i =>
      cases q with
      | outside j => exact exact.moveAssign hr hh hs
      | member b j => exact hfo.elim
    | member a i => exact ho.elim
  | reset p =>
    obtain ⟨hh, ho⟩ := hp
    cases p with
    | outside i => exact (exact.reset_outer hr hh).1
    | member a i => exact ho.elim

end

def Bounded (M : Memory) : Prop :=
  M.storages.length ≤ 256 ∧ M.outside.length + ∑ b ∈ objects M, (M.storage b).members.length < 256

instance : DecidablePred Bounded := fun _ => inferInstanceAs (Decidable (_ ∧ _))

theorem Bounded.small {M : Memory} (hb : Bounded M) : Small M := by
  refine ⟨fun a => ?_, fun a l hd hi => ?_⟩
  · refine lt_of_le_of_lt (Nat.add_le_add count_le_length ?_) hb.2
    exact Finset.sum_le_sum fun b _ => count_le_length
  · have hp : l.toFinset ⊆ Finset.range M.storages.length := fun n hm =>
      (Finset.mem_filter.mp (hi n (mem_toFinset.mp hm)).1).1
    have hc := Finset.card_le_card hp
    rw [toFinset_card_of_nodup hd, Finset.card_range] at hc
    exact hc.trans hb.1

theorem empty_exact : Exact empty := by
  have hnl : ∀ a, a ∉ empty.live := fun a hh =>
    Nat.not_lt_zero a (lt_of_live hh)
  exact ⟨fun a hh => absurd hh (hnl a), fun a hh => absurd hh (hnl a), ⟨by simp [roots, empty],
    fun b hh => absurd hh (hnl b)⟩, nodup_nil, fun a => by simp [empty]⟩

def Admitted (M : Memory) (operation : Operation) : Prop :=
  Permitted M operation ∧ Small (step M operation)

theorem admitted_of_bounded {M : Memory} {operations : List Operation}
    (hb : Along step (fun M o => Permitted M o ∧ Bounded (step M o))
      M operations) : Along step Admitted M operations :=
  Along.of_invariant (I := fun _ => True) (fun _ _ _ _ => trivial)
    (fun _ _ _ hbt => ⟨hbt.1, hbt.2.small⟩) trivial hb

theorem always_exact {P : Memory → Prop} (hs : ∀ M, Exact M → P M) {operations : List Operation}
    (ha : Along step Admitted empty operations) : Always step P empty operations := by
  refine Always.of_invariant (I := fun M => Exact M ∧ Small M) ?_ (fun M hi => hs M hi.1)
    ⟨empty_exact, Bounded.small (by decide)⟩ ha
  exact fun M o hi ha => ⟨hi.1.step hi.2 ha.1 ha.2, ha.2⟩

/-- The destroyed objects, each destroyed once, are those that no outside `Ptr` reaches. -/
def FreesUnreachable (M : Memory) : Prop :=
  M.destroyed.Nodup ∧ ∀ a, a ∈ M.destroyed ↔ a < M.storages.length ∧ ¬ Reachable M a

/-- Starting from no objects, after every operation the destroyed objects are exactly the
created ones that the `Ptr`s held outside do not reach. -/
theorem destroys_exactly_unreachable (operations : List Operation)
    (admitted : Along step Admitted empty operations) :
    Always step FreesUnreachable empty operations := by
  refine always_exact (fun M he => ⟨he.distinct, fun a => ?_⟩) admitted
  rw [he.destroyed, he.live_iff_reachable]

/-- Two objects that point to each other, each held by one outside `Ptr` that is then reset. -/
def cycle : List Operation :=
  [.makePtr 1, .makePtr 1, .assign (.member 0 0) (.outside 1), .assign (.member 1 0) (.outside 0),
    .reset (.outside 1), .reset (.outside 0)]

theorem cycle_admitted : Along step Admitted empty cycle :=
  admitted_of_bounded (by decide)

theorem destroys_exactly_unreachable_cycle :
    Along step Admitted empty cycle ∧ Always step FreesUnreachable empty cycle :=
  ⟨cycle_admitted, destroys_exactly_unreachable cycle cycle_admitted⟩

example : (run step empty cycle).destroyed = [0, 1] := by decide

def CountsPtrs (M : Memory) : Prop :=
  (∀ a ∈ objects M, (M.mainRefs a).toNat = pointers M a) ∧ ∀ a, Reachable M a → a ∉ M.destroyed

theorem counts_ptrs_while_small (operations : List Operation)
    (admitted : Along step Admitted empty operations) :
    Always step CountsPtrs empty operations := by
  refine always_exact (fun M exact => ⟨fun a hh => ?_, fun a hr he => ?_⟩) admitted
  · rw [pointers_eq exact.objects_eq]
    exact exact.counted a (exact.objects_eq ▸ hh)
  · exact ((exact.destroyed a).mp he).2 (exact.live_iff_reachable.mpr hr)

theorem counts_ptrs_while_small_cycle :
    Along step Admitted empty cycle ∧ Always step CountsPtrs empty cycle :=
  ⟨cycle_admitted, counts_ptrs_while_small cycle cycle_admitted⟩

/-- One object with no members and `n + 1` outside `Ptr`s, as copying them leaves it. -/
def copies (n : Nat) : Memory :=
  ⟨[⟨UInt8.ofNat (n + 1), UInt8.ofNat (n + 1), []⟩], List.replicate (n + 1) (some 0), [], []⟩

theorem step_copies (n : Nat) : step (copies n) (.copy (.outside 0)) = copies (n + 1) := by
  have hp : (copies n).read (.outside 0) = some 0 := by
    simp [copies, Memory.read, replicate_succ]
  rw [step, copy, hp]
  simp [copies, increment, Memory.modify, replicate_succ', UInt8.ofNat_add]

def makeCopies (n : Nat) : List Operation :=
  .makePtr 0 :: List.replicate n (.copy (.outside 0))

theorem run_copies (n : Nat) : run step empty (makeCopies n) = copies n := by
  induction n with
  | zero => rfl
  | succ n ih =>
    have hm : makeCopies (n + 1) = makeCopies n ++ [.copy (.outside 0)] := by
      rw [makeCopies, replicate_succ', ← cons_append, ← makeCopies]
    rw [run, hm, foldl_append, ← run, ← run, ih]
    exact step_copies n

theorem permitted_copies (n : Nat) : Along step Permitted empty (makeCopies n) := by
  have hl : ∀ k m, Along step Permitted (copies m) (replicate k (.copy (.outside 0))) := by
    intro k
    induction k with
    | zero => exact fun _ => trivial
    | succ k ih =>
      intro m
      have hh : Permitted (copies m) (.copy (.outside 0)) := by
        simp [Permitted, Held, copies]
      rw [replicate_succ]
      exact ⟨hh, step_copies m ▸ ih (m + 1)⟩
  exact ⟨trivial, hl n 0⟩

/-- With 256 `Ptr`s the stored count is zero; with 257 it is one, and the `Reset` of one of
them destroys the object the other 256 point to. -/
theorem copies_wrap :
    Along step Permitted empty (makeCopies 256) ∧ (run step empty (makeCopies 255)).mainRefs 0 = 0 ∧
      pointers (run step empty (makeCopies 255)) 0 = 256 ∧
      0 ∈ (step (run step empty (makeCopies 256)) (.reset (.outside 0))).destroyed ∧
      Reachable (step (run step empty (makeCopies 256)) (.reset (.outside 0))) 0 := by
  rw [run_copies, run_copies]
  refine ⟨permitted_copies 256, by decide, ?_, by decide, 0, by decide, Leads.refl 0⟩
  rw [pointers, show (copies 255).outside = replicate 256 (some 0) from rfl, count_replicate_self]
  rfl

end Ae.Ptr.Lifetimes
