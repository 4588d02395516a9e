/- source: ptr/{ptr.{h,cpp},ref_tree.h}
   digest: When the drop of a Ptr member destroys an object that is still reachable. -/

import Ae.Ptr.Lifetimes

set_option autoImplicit false

namespace Ae.Ptr.MemberReset
open List Lib.CountedGraph Lib.DepthFirst Lib.EventRun DecrementGraph Lifetimes PtrBase
open ReferenceTree Release Memory RefGraph

/-- Any object graph with exact counts and at most 256 objects; objects that no outside `Ptr`
reaches may be among them. -/
structure ObjectGraph (M : Memory) : Prop where
  counted : ∀ a ∈ objects M, (M.mainRefs a).toNat = pointers M a
  ended : ∀ a, M.mainRefs a = 0 ↔ a ∉ objects M
  outside : ∀ a, some a ∈ M.outside → a ∈ objects M
  members : ∀ b ∈ objects M, ∀ a ∈ M.targets b, a ∈ objects M
  few : (objects M).card ≤ 256

/-- The ways to drop a `Ptr`: to reset it or to overwrite it with a null `Ptr`. -/
inductive Drops (M : Memory) (m : Place) : Operation → Prop where
  | reset : Drops M m (.reset m)
  | assign (q : Place) (null : M.read q = none) : Drops M m (.assign m q)
  | moveAssign (q : Place) (null : M.read q = none) : Drops M m (.moveAssign m q)

open Classical in
noncomputable def below (M : Memory) (x : Addr) : Finset Addr :=
  (objects M).filter (Leads M.targets x)

/-- The number of `Ptr`s to `v` held outside the objects that `x` leads to. -/
noncomputable def heldBeyond (M : Memory) (x v : Addr) : Nat :=
  M.outside.count (some v) + ∑ b ∈ objects M \ below M x, (M.storage b).members.count (some v)

/-- The objects without the `Ptr` of a member. -/
abbrev cut (M : Memory) (o : Addr) (i : Nat) : Memory := M.write (.member o i) none

/-- The member stands in an object that its target leads to, and the tree counts it twice:
as the dropped `Ptr` and as a member. One `Ptr` held beyond the tree then goes unseen. -/
def CountedTwice (M : Memory) : Place → Prop
  | .outside _ => False
  | .member o i =>
    ∃ x, M.read (.member o i) = some x ∧ Leads M.targets x o ∧ heldBeyond M x x = 1 ∧
      (∀ v, Leads M.targets x v → Leads M.targets v x → v ≠ x → heldBeyond M x v = 0) ∧
      Reachable (cut M o i) x

variable {M : Memory} {x o : Addr} {i : Nat}

section

variable {v : Addr}

section

variable (hg : ObjectGraph M)
include hg

theorem ObjectGraph.objects_eq : objects M = M.live := by
  ext a
  rw [mem_live, ne_eq, hg.ended, not_not]

theorem ObjectGraph.intact : ∀ a ∈ M.live, a ∉ M.destroyed := by
  intro a hh
  rw [← hg.objects_eq] at hh
  exact (Finset.mem_filter.mp hh).2

theorem ObjectGraph.anchored : Anchored M M.roots [] := by
  have he := hg.objects_eq
  refine ⟨fun r hm => .inl ?_, fun b hh t hm => .inl ?_⟩
  · rw [← he]
    exact hg.outside r (mem_roots.mp hm)
  · rw [← he] at hh ⊢
    exact hg.members b hh t hm

theorem ObjectGraph.counts : Counted M M.roots := by
  intro a hh
  rw [← pointers_eq hg.objects_eq]
  exact hg.counted a (hg.objects_eq ▸ hh)

theorem ObjectGraph.indexable : ∀ a ∈ M.live, Indexable M a := by
  intro a hh l hd hl
  have hp : l.toFinset ⊆ objects M := fun n hm => by
    rw [hg.objects_eq]
    exact leads_live (hl n (mem_toFinset.mp hm)) hh
  have hc := Finset.card_le_card hp
  rw [toFinset_card_of_nodup hd] at hc
  exact hc.trans hg.few

theorem ObjectGraph.leads_iff (hh : x ∈ M.live) :
    Leads M.targets x v ↔ Leads M.graph.next x v :=
  ⟨leads_next hg.anchored hh, leads_targets⟩

theorem ObjectGraph.mem_below (hh : x ∈ M.live) :
    v ∈ below M x ↔ Leads M.graph.next x v := by
  simp only [below, Finset.mem_filter, hg.leads_iff hh, hg.objects_eq, and_iff_right_iff_imp]
  exact fun hp => leads_live hp hh

theorem ObjectGraph.heldBeyond_eq :
    heldBeyond M x v = M.graph.beyond (below M x) M.roots v := by
  rw [heldBeyond, beyond, roots, count_filterMap, hg.objects_eq]
  congr 1
  refine Finset.sum_congr rfl fun b hm => ?_
  rw [succ_of_live (Finset.mem_sdiff.mp hm).1, targets, count_filterMap]

end

def HeldOnce (M : Memory) (x : Addr) (R : Finset Addr) : Prop :=
  ∀ v ∈ R, Leads M.graph.next v x → M.graph.beyond R M.roots v = if v = x then 1 else 0

theorem ObjectGraph.matched_iff (hg : ObjectGraph M) {R : Finset Addr} (hp : R ⊆ M.live)
    (hh : v ∈ M.live) : Matched M x R v ↔ M.graph.beyond R M.roots v = if v = x then 1 else 0 := by
  have ht := hg.counts v hh
  rw [references_split hp] at ht
  have hb := UInt8.toNat_lt (M.mainRefs v)
  rw [Matched, ← UInt8.toNat_inj, UInt8.toNat_ofNat', ht]
  split <;> omega

theorem ObjectGraph.decrement_cases (hg : ObjectGraph M) (hh : x ∈ M.live) :
    (M.decrement x = M.decrementRef x (M.mainRefs x) ∧
      (M.mainRefs x = 1 ∨ HeldOnce M x (below M x))) ∨
    (M.decrement x = M.decrementRef x 1 ∧ 1 < M.mainRefs x ∧ ¬ HeldOnce M x (below M x)) := by
  have hr : ∀ n, n ∈ below M x ↔ Leads M.graph.next x n := fun n => hg.mem_below hh
  have hp : below M x ⊆ M.live := fun n hm => leads_live ((hr n).mp hm) hh
  have hii : Isolated M x (below M x) ↔ HeldOnce M x (below M x) :=
    forall₃_congr fun v hm _ => hg.matched_iff hp (hp hm)
  by_cases several : 1 < M.mainRefs x
  · rw [decrement, if_pos several, ← hii]
    rcases decrementGraphCount_cases hh (hg.indexable x hh) hr with
      ⟨isolated, count⟩ | ⟨held, count⟩
    · exact .inl ⟨by rw [count], .inr isolated⟩
    · exact .inr ⟨by rw [count], several, held⟩
  · have hs := mainRefs_eq_one hh several
    refine .inl ⟨?_, .inl hs⟩
    rw [decrement, if_neg several, hs]

end

section

theorem emptied_live {a : Addr} (hh : a ∈ M.live) : a ∈ (cut M o i).live := by
  rw [live_write]
  exact hh

variable (ho : o ∈ M.live) (hp : M.read (.member o i) = some x)
include ho hp

theorem emptied_succ : (M.graph.succ o).Perm (x :: (cut M o i).graph.succ o) := by
  rw [Memory.read, Option.join_eq_some_iff] at hp
  rw [succ_of_live (emptied_live ho), succ_of_live ho, targets,
    targets, cut, write, storage_modify_self (lt_of_live ho)]
  exact emptied_perm hp

theorem emptied_subset {b : Addr} :
    ∀ c ∈ (cut M o i).graph.succ b, c ∈ M.graph.succ b := by
  intro c he
  by_cases same : b = o
  · subst same
    exact (emptied_succ ho hp).symm.subset (mem_cons_of_mem x he)
  · rwa [succ_write_ne same] at he

theorem ObjectGraph.emptied_anchored (hg : ObjectGraph M) :
    Anchored (cut M o i) (cut M o i).roots [] := by
  have hf := hg.anchored
  have hsl := live_write (M := M) (.member o i) none
  refine ⟨fun r hm => ?_, fun b hh t hm => ?_⟩
  · rw [hsl]
    exact hf.roots r hm
  · rw [← succ_of_live hh] at hm
    have hb : b ∈ M.live := hsl ▸ hh
    have he := emptied_subset ho hp t hm
    rw [succ_of_live hb] at he
    rw [hsl]
    exact hf.members b hb t he

theorem ObjectGraph.single_unreached (hg : ObjectGraph M) (hh : x ∈ M.live)
    (hs : M.mainRefs x = 1) : ¬ (cut M o i).graph.Reached M.roots x := by
  intro hr
  have ht := hg.counts x hh
  have ha : M.graph.references M.roots x =
      (cut M o i).graph.references M.roots x + if x = x then 1 else 0 :=
    references_attach (live_write (.member o i) none).symm (emptied_live ho)
      (emptied_succ ho hp) fun b _ hn => (succ_write_ne hn).symm
  rw [hs, ha, if_pos rfl, UInt8.toNat_one] at ht
  obtain ⟨v, hm, -, hb⟩ := hr.enters (R := {x}) (by simp)
  rw [references_split (R := {x}) (by simpa using hr.live)] at ht
  rw [Finset.mem_singleton.mp hm] at hb
  omega

theorem ObjectGraph.once_unreached (hg : ObjectGraph M) (hh : x ∈ M.live) (out : o ∉ below M x)
    (hon : HeldOnce M x (below M x)) : ¬ (cut M o i).graph.Reached M.roots x := by
  intro hr
  obtain ⟨v, hm, hb, hbn⟩ :=
    hr.enters ((hg.mem_below hh).mpr (Leads.refl x))
  have hlv : v ∈ M.live := leads_live ((hg.mem_below hh).mp hm) hh
  have hbh : M.graph.Reached [v] x := by
    have hpt : (cut M o i).graph.Reached [v] x :=
      ⟨v, by simp, emptied_live hlv, hb⟩
    exact hpt.grow (live_write (.member o i) none).le fun b _ => emptied_subset ho hp
  obtain ⟨r, he, -, hbh⟩ := hbh
  rw [mem_singleton.mp he] at hbh
  have hhl := hon v hm hbh
  have ha : M.graph.beyond (below M x) M.roots v = (cut M o i).graph.beyond (below M x) M.roots v +
        if o ∉ below M x ∧ v = x then 1 else 0 :=
    beyond_attach (live_write (.member o i) none).symm (emptied_live ho)
      (emptied_succ ho hp) fun b _ hn => (succ_write_ne hn).symm
  simp only [out, not_false_eq_true, true_and] at ha
  omega

theorem ObjectGraph.reachable_emptied (hg : ObjectGraph M) {a : Addr} :
    Reachable (cut M o i) a ↔ (cut M o i).graph.Reached M.roots a :=
  reachable_iff (hg.emptied_anchored ho hp)

theorem emptied_removed (hu : ¬ (cut M o i).graph.Reached M.roots x) {a : Addr}
    (hr : (cut M o i).graph.Reached M.roots a) :
    (M.graph.remove x).Reached M.roots a := by
  have hsl := live_write (M := M) (.member o i) none
  refine (keeping_reached.remove_of_not hr hu).grow (fun b hk => ?_) fun b hk c he => ?_
  · obtain ⟨hn, hlb⟩ := mem_remove.mp hk
    exact mem_remove.mpr ⟨hn, (hsl ▸ hlb : b ∈ M.live)⟩
  · obtain ⟨hn, hlb⟩ := mem_remove.mp hk
    rw [succ_remove hn] at he ⊢
    exact emptied_subset ho hp c he

end

theorem destroyed_write {p : Place} {w : Option Addr} : (M.write p w).destroyed = M.destroyed := by
  cases p with
  | outside i | member a i => rfl

theorem destroyed_increment {w : Option Addr} : (M.increment w).destroyed = M.destroyed := by
  cases w with
  | none | some a => rfl

theorem drops_destroyed {m : Place} {ot : Operation} (hd : Drops M m ot) :
    (step M ot).destroyed = (M.reset m).destroyed := by
  cases hd with
  | reset => rfl
  | assign q hn =>
    rw [step, assign]
    split
    · rename_i he
      rw [reset, resetWith_null (he ▸ hn)]
    · rw [destroyed_increment, destroyed_write]
  | moveAssign q hn =>
    rw [step, moveAssign]
    split
    · rename_i he
      rw [reset, resetWith_null (he ▸ hn)]
    · rw [destroyed_write, destroyed_write]

theorem reset_kept {p : Place} (hp : M.read p = some x) (hh : x ∈ M.live)
    (hs : 1 < M.mainRefs x) (ho : M.decrement x = M.decrementRef x 1) :
    (M.reset p).destroyed = M.destroyed := by
  rw [reset_eq hp hh, destroyed_write, ho, reclaim, if_neg (decrementRef_one hh hs).1]
  rfl

theorem ObjectGraph.loop (hg : ObjectGraph M) (hh : x ∈ M.live)
    (ha : M.decrement x = M.decrementRef x (M.mainRefs x)) :
    ∃ Z, Recounted M Z x ∧ Z.mainRefs x = 0 ∧
      Released Reached (fun q => ∃ j, q = .member x j) (M.targets x ++ M.roots) M.roots
        (Z.beginDestroy x) ((M.decrement x).reclaim (resetWith M.storages.length) x) := by
  have hz : Recounted M (M.decrementRef x (M.mainRefs x)) x := recounted_modify fun _ => rfl
  have hgn : (M.decrementRef x (M.mainRefs x)).mainRefs x = 0 := by
    rw [mainRefs_decrementRef (lt_of_live hh), UInt8.sub_self]
  rw [ha]
  exact ⟨_, hz, hgn, reclaim_loop keeping_reached (resets M.storages.length) (nil_subset _) hz hgn
    hh (fun a hla _ => hg.counts a hla)
    ((doomed_frame hz hgn).indexable (fun _ _ => False.elim) hg.indexable) card_live_le⟩

theorem ObjectGraph.reset_ended (hg : ObjectGraph M) {p : Place} (hp : M.read p = some x)
    (hh : x ∈ M.live) (ha : M.decrement x = M.decrementRef x (M.mainRefs x)) :
    x ∈ (M.reset p).destroyed ∧ ∀ a, (M.graph.remove x).Reached M.roots a →
      a ∉ (M.reset p).destroyed := by
  obtain ⟨Z, hz, hgn, hl⟩ := hg.loop hh ha
  obtain ⟨new, log, -, hni⟩ := ended_destroyed hz hgn hh hl
  rw [reset_eq hp hh, destroyed_write, log]
  refine ⟨mem_append_right _ ((hni x).mpr ⟨hh, (ended_frame hz hgn hh hl).1⟩), fun a hr hd => ?_⟩
  rw [← doomed_graph hz hgn] at hr
  have hla := ((mem_doomed_live hz hgn).mp hr.live).2
  rcases mem_append.mp hd with old | fresh
  · exact hg.intact a hla old
  · exact ((hni a).mp fresh).2 (hl.survives a hr)

theorem ObjectGraph.heldOnce_iff (hg : ObjectGraph M) (hh : x ∈ M.live) :
    HeldOnce M x (below M x) ↔ heldBeyond M x x = 1 ∧
      ∀ v, Leads M.targets x v → Leads M.targets v x → v ≠ x → heldBeyond M x v = 0 := by
  constructor
  · intro hon
    refine ⟨?_, fun v hpt hb hot => ?_⟩
    · have own := hon x ((hg.mem_below hh).mpr (Leads.refl x)) (Leads.refl x)
      rwa [if_pos rfl, ← hg.heldBeyond_eq] at own
    · have hn := (hg.leads_iff hh).mp hpt
      have hlv := leads_live hn hh
      have hnh := hon v ((hg.mem_below hh).mpr hn)
        ((hg.leads_iff hlv).mp hb)
      rwa [if_neg hot, ← hg.heldBeyond_eq] at hnh
  · rintro ⟨own, ho⟩ v hm hb
    have hn := (hg.mem_below hh).mp hm
    have hlv := leads_live hn hh
    rw [← hg.heldBeyond_eq]
    by_cases he : v = x
    · rw [if_pos he, he, own]
    · rw [if_neg he]
      exact ho v (leads_targets hn) (leads_targets hb) he

theorem ObjectGraph.countedTwice_iff (hg : ObjectGraph M)
    (hp : M.read (.member o i) = some x) (hh : x ∈ M.live) :
    CountedTwice M (.member o i) ↔ o ∈ below M x ∧ HeldOnce M x (below M x) ∧
      Reachable (cut M o i) x := by
  rw [hg.mem_below hh, ← hg.leads_iff hh, hg.heldOnce_iff hh]
  constructor
  · rintro ⟨y, he, hc, own, ho, hr⟩
    rw [hp, Option.some.injEq] at he
    subst he
    exact ⟨hc, ⟨own, ho⟩, hr⟩
  · rintro ⟨hc, ⟨own, ho⟩, hr⟩
    exact ⟨x, hp, hc, own, ho, hr⟩

/-- The drop of a `Ptr` member destroys nothing that is reachable without it, exactly unless
the tree counts the member twice. -/
theorem member_drop_keeps_reachable_iff {M : Memory} (graph : ObjectGraph M) {o : Addr} {i : Nat}
    (held : Held M (.member o i)) {operation : Operation}
    (drops : Drops M (.member o i) operation) :
    (∀ a, Reachable (cut M o i) a → a ∉ (step M operation).destroyed) ↔
      ¬ CountedTwice M (.member o i) := by
  have ho : o ∈ M.live := owner_live graph.objects_eq held
  have hi := graph.intact
  rw [drops_destroyed drops]
  cases hp : M.read (.member o i) with
  | none =>
    rw [cut, write_null held hp, reset, resetWith_null hp]
    refine ⟨fun _ ht => ?_, fun _ a hrc => ?_⟩
    · obtain ⟨x, hsm, -⟩ := ht
      rw [hp] at hsm
      cases hsm
    · exact hi a ((reachable_iff graph.anchored).mp hrc).live
  | some x =>
    have hh : x ∈ M.live := Anchored.read_live graph.anchored graph.objects_eq held hp
    rw [graph.countedTwice_iff hp hh]
    simp only [graph.reachable_emptied ho hp]
    have hkl : ∀ a, (cut M o i).graph.Reached M.roots a → a ∈ M.live :=
      fun a hr => live_write (M := M) (.member o i) none ▸ hr.live
    rcases graph.decrement_cases hh with ⟨ha, hw⟩ | ⟨one, hsv, hn⟩
    · obtain ⟨hd, hs⟩ := graph.reset_ended hp hh ha
      constructor
      · rintro hsf ⟨-, -, hr⟩
        exact hsf x hr hd
      · intro hnt a hr
        have hu : ¬ (cut M o i).graph.Reached M.roots x := by
          intro hrx
          rcases hw with hsn | once
          · exact graph.single_unreached ho hp hh hsn hrx
          · refine hnt ⟨?_, once, hrx⟩
            by_contra out
            exact graph.once_unreached ho hp hh out once hrx
        exact hs a (emptied_removed ho hp hu hr)
    · rw [reset_kept hp hh hsv one]
      exact ⟨fun _ ht => hn ht.2.1, fun _ a hr => hi a (hkl a hr)⟩

theorem objectGraph_of_exact {M : Memory} (exact : Exact M) (few : (objects M).card ≤ 256) :
    ObjectGraph M where
  counted := fun a hh => by
    rw [pointers_eq exact.objects_eq]
    exact exact.counted a (exact.objects_eq ▸ hh)
  ended := fun a => by
    rw [exact.objects_eq, mem_live, not_not]
  outside := fun a hm => by
    rw [exact.objects_eq]
    exact (exact.anchored.roots a (mem_roots.mpr hm)).resolve_right (by simp)
  members := fun b hh a hm => by
    rw [exact.objects_eq] at hh ⊢
    exact (exact.anchored.members b hh a hm).resolve_right (by simp)
  few := few

def looped : Memory := run step empty (cycle.take 5)

theorem looped_graph : ObjectGraph looped := by
  have exact : Always step Exact empty (cycle.take 5) :=
    always_exact (fun _ exact => exact) (admitted_of_bounded (by decide))
  exact objectGraph_of_exact exact.2.2.2.2.2 (by decide)

theorem member_drop_keeps_reachable_iff_looped :
    Held looped (.member 0 0) ∧ ((∀ a, Reachable (looped.write (.member 0 0) none) a →
        a ∉ (step looped (.reset (.member 0 0))).destroyed) ↔
          ¬ CountedTwice looped (.member 0 0)) :=
  ⟨by decide, member_drop_keeps_reachable_iff looped_graph (by decide) .reset⟩

/-- The second object drops its `Ptr` to the first, and both are destroyed though the first
is held outside. -/
theorem member_drop_destroys_held :
    ObjectGraph looped ∧ Held looped (.member 1 0) ∧ Reachable (looped.write (.member 1 0) none) 0 ∧
      (step looped (.reset (.member 1 0))).outside = [some 0, none] ∧
      (step looped (.reset (.member 1 0))).destroyed = [0, 1] :=
  ⟨looped_graph, by decide, ⟨0, by decide, Leads.refl 0⟩, by decide, by decide⟩

end Ae.Ptr.MemberReset
