/- source: ptr/ptr.cpp
   digest: The tree of a dropped reference draws what its target leads to, with exact counts. -/

import Ae.Ptr.PtrBase

set_option autoImplicit false

namespace Ae.Ptr.DecrementGraph
open Function List Lib.CountedGraph Lib.DepthFirst PtrBase ReferenceTree Memory

section

variable {α β : Type} [DecidableEq α]

theorem findIdx_position (l : List α) (c : α) :
    l.findIdx? (· == c) = if c ∈ l then some (l.idxOf c) else none := by
  induction l with
  | nil => rfl
  | cons head rest ih =>
    by_cases same : head = c
    · simp [findIdx?_cons, same]
    · by_cases later : c ∈ rest
      · simp [findIdx?_cons, same, ih, later]
      · simp [findIdx?_cons, same, ih, later, Ne.symm same]

theorem modify_position {l : List α} (hd : l.Nodup) {c : α} (hm : c ∈ l)
    (f : α → β) (g : β → β) :
    (l.map f).modify (l.idxOf c) g = l.map fun a => if a = c then g (f a) else f a := by
  induction l with
  | nil => cases hm
  | cons head rest ih =>
    obtain ⟨ha, hdr⟩ := nodup_cons.mp hd
    by_cases he : head = c
    · subst he
      have ho : ∀ a ∈ rest, (if a = head then g (f a) else f a) = f a := fun a hl =>
        if_neg fun (hh : a = head) => ha (hh ▸ hl)
      simp [map_congr_left ho]
    · have hl : c ∈ rest := (mem_cons.mp hm).resolve_left (Ne.symm he)
      simp [he, ih hdr hl]

theorem sum_update {l : List α} (hd : l.Nodup) {b : α} (hm : b ∈ l)
    (f : α → Nat) (k : Nat) : (l.map (update f b (f b + k))).sum = (l.map f).sum + k := by
  induction l with
  | nil => cases hm
  | cons head rest ih =>
    obtain ⟨ha, hdr⟩ := nodup_cons.mp hd
    by_cases he : head = b
    · subst he
      have ho : ∀ a ∈ rest, update f head (f head + k) a = f a := fun a hl =>
        update_of_ne (fun (hh : a = head) => ha (hh ▸ hl)) _ _
      simp only [map_cons, sum_cons, update_self, map_congr_left ho]
      omega
    · have hl : b ∈ rest := (mem_cons.mp hm).resolve_left (Ne.symm he)
      simp only [map_cons, sum_cons, update_of_ne he, ih hdr hl]
      omega

end

def index (seen : List Addr) (a : Addr) : Index := UInt8.ofNat (seen.idxOf a)

/-- The node of `a` in a tree with head `x` over the nodes of `seen`, when the references
in `done` have been linked. -/
def nodeOf (M : Memory) (x : Addr) (seen : List Addr) (done : Addr → List Addr) (a : Addr) : Node :=
  { value :=
      { pointer := a
        refCount := M.mainRefs a
        reachableRefCount :=
          UInt8.ofNat ((if a = x then 1 else 0) + (seen.map fun b => (done b).count a).sum) }
    index := index seen a
    childrenIndices := (done a).map (index seen) }

def picture (M : Memory) (x : Addr) (seen : List Addr) (done : Addr → List Addr) : RefTree :=
  ⟨seen.map (nodeOf M x seen done)⟩

structure Linked (x : Addr) (seen : List Addr) (done : Addr → List Addr) : Prop where
  distinct : seen.Nodup
  head : x ∈ seen
  starts : ∀ n, n ∉ seen → done n = []
  ends : ∀ n, ∀ c ∈ done n, c ∈ seen

variable {M : Memory} {x : Addr} {seen : List Addr} {done : Addr → List Addr} {b : Addr}

section

variable {c : Addr}

def marked (seen : List Addr) (c : Addr) : List Addr := if c ∈ seen then seen else seen ++ [c]

theorem mem_marked : c ∈ marked seen c := by
  unfold marked
  split <;> simp_all

theorem subset_marked (hm : b ∈ seen) : b ∈ marked seen c := by
  unfold marked
  split <;> simp_all

theorem Linked.mark (hl : Linked x seen done) (c : Addr) : Linked x (marked seen c) done := by
  unfold marked
  by_cases known : c ∈ seen
  · simpa only [known, if_true] using hl
  · simp only [known, if_false]
    refine ⟨?_, mem_append_left _ hl.head, fun n hu => ?_, fun n d hm => ?_⟩
    · rw [nodup_append]
      refine ⟨hl.distinct, nodup_singleton c, ?_⟩
      rintro n hm d hls rfl
      exact known (mem_singleton.mp hls ▸ hm)
    · exact hl.starts n fun hm => hu (mem_append_left _ hm)
    · exact mem_append_left _ (hl.ends n d hm)

theorem index_append (hm : b ∈ seen) (c : Addr) : index (seen ++ [c]) b = index seen b := by
  rw [index, index, idxOf_append_of_mem hm]

theorem emplace_picture (hl : Linked x seen done) (c : Addr) :
    (picture M x seen done).emplace c (M.mainRefs c) =
      (picture M x (marked seen c) done, (marked seen c).idxOf c) := by
  have hs : (seen.map (nodeOf M x seen done)).findIdx? (fun n => n.value.pointer == c) =
      if c ∈ seen then some (seen.idxOf c) else none := by
    rw [findIdx?_map]
    exact findIdx_position seen c
  unfold RefTree.emplace picture marked
  by_cases known : c ∈ seen
  · simp only [hs, known, if_true]
  · have hn : c ≠ x := fun he => known (he ▸ hl.head)
    have hu : ∀ n, (done n).count c = 0 := fun n =>
      count_eq_zero.mpr fun hm => known (hl.ends n c hm)
    simp only [hs, known, if_false, Prod.mk.injEq, RefTree.mk.injEq, map_append, length_map]
    refine ⟨?_, ?_⟩
    · congr 1
      · refine map_congr_left fun a hm => ?_
        have hsc : (done a).map (index seen) = (done a).map (index (seen ++ [c])) :=
          map_congr_left fun d hed => (index_append (hl.ends a d hed) c).symm
        simp [nodeOf, index_append hm, hsc, hl.starts c known]
      · simp [nodeOf, hn, hu, hl.starts c known, index, idxOf_append_of_notMem known]
    · rw [idxOf_append_of_notMem known]
      simp

theorem index_toNat (hm : b ∈ seen) (hs : seen.length ≤ 256) :
    (index seen b).toNat = seen.idxOf b := by
  have hb := idxOf_lt_length_of_mem hm
  rw [index, UInt8.toNat_ofNat', Nat.mod_eq_of_lt (hb.trans_le hs)]

theorem index_marked (hm : b ∈ seen) : index (marked seen c) b = index seen b := by
  unfold marked
  split
  · rfl
  · exact index_append hm c

theorem nodeOf_update {seen : List Addr} (hl : Linked x seen done) (hm : b ∈ seen)
    (c a : Addr) :
    nodeOf M x seen (update done b (done b ++ [c])) a =
      let counted := if a = c then countReference (nodeOf M x seen done a)
        else nodeOf M x seen done a
      if a = b then
        { counted with childrenIndices := counted.childrenIndices ++ [index seen c] }
      else counted := by
  have hs : (seen.map fun n => (update done b (done b ++ [c]) n).count a).sum =
      (seen.map fun n => (done n).count a).sum + if a = c then 1 else 0 := by
    rw [← sum_update hl.distinct hm]
    congr 1
    refine map_congr_left fun n _ => ?_
    by_cases same : n = b
    · subst same
      by_cases this : a = c
      · simp [this]
      · simp [this, Ne.symm this]
    · simp [same]
  have hr : UInt8.ofNat ((if a = x then 1 else 0) +
      (seen.map fun n => (update done b (done b ++ [c]) n).count a).sum) =
      if a = c then (nodeOf M x seen done a).value.reachableRefCount + 1
      else (nodeOf M x seen done a).value.reachableRefCount := by
    rw [hs]
    by_cases this : a = c
    · rw [if_pos this, if_pos this, ← Nat.add_assoc, UInt8.ofNat_add]
      rfl
    · rw [if_neg this, if_neg this]
      rfl
  have hc : (update done b (done b ++ [c]) a).map (index seen) =
      if a = b then (nodeOf M x seen done a).childrenIndices ++ [index seen c]
      else (nodeOf M x seen done a).childrenIndices := by
    by_cases same : a = b
    · subst same
      simp [nodeOf]
    · simp [same, nodeOf]
  rw [nodeOf, hr, hc]
  split_ifs <;> rfl

theorem link_picture (hl : Linked x seen done) (hm : b ∈ seen) (hs : (marked seen c).length ≤ 256) :
    M.link (index seen b) (picture M x seen done) c =
      (picture M x (marked seen c) (update done b (done b ++ [c])), index (marked seen c) c) := by
  have hlc := hl.mark c
  have hp : (index seen b).toNat = (marked seen c).idxOf b := by
    rw [← index_marked (c := c) hm, index_toNat (subset_marked hm) hs]
  have hc : (picture M x (marked seen c) done).modify ((marked seen c).idxOf c)
      countReference = ⟨(marked seen c).map fun a =>
        if a = c then countReference (nodeOf M x (marked seen c) done a)
        else nodeOf M x (marked seen c) done a⟩ := by
    rw [RefTree.modify, picture, modify_position hlc.distinct mem_marked]
  have hn : indexAt ((picture M x (marked seen c) done).modify
      ((marked seen c).idxOf c) countReference) ((marked seen c).idxOf c) =
      index (marked seen c) c := by
    rw [hc, indexAt, getElem?_map, getElem?_idxOf mem_marked]
    simp [countReference, nodeOf]
  simp only [link, emplace_picture hl c, hn, Prod.mk.injEq, and_true]
  rw [hc, hp, RefTree.modify, modify_position hlc.distinct (subset_marked hm),
    picture, RefTree.mk.injEq]
  refine map_congr_left fun a _ => ?_
  rw [nodeOf_update hlc (subset_marked hm) c a]

end

section

variable {found : List Addr} {head : Addr}

theorem index_extends (hg : seen <+: found) (hm : b ∈ seen) : index found b = index seen b := by
  obtain ⟨m, rfl⟩ := hg
  rw [index, index, idxOf_append_of_mem hm]

theorem Linked.link (hl : Linked x seen done) (hi : head ∈ seen) (hm : b ∈ seen) :
    Linked x seen (update done head (done head ++ [b])) := by
  refine ⟨hl.distinct, hl.head, fun n hu => ?_, fun n c hed => ?_⟩
  · have hn : n ≠ head := fun he => hu (he ▸ hi)
    rw [update_of_ne hn, hl.starts n hu]
  · by_cases he : n = head
    · rw [he, update_self] at hed
      rcases mem_append.mp hed with her | last
      · exact hl.ends head c her
      · exact mem_singleton.mp last ▸ hm
    · rw [update_of_ne he] at hed
      exact hl.ends n c hed

/-- What the loop over the children `starts` of `head` adds to the links: those children for
the head, and all children for each node it finds. -/
structure Adds (next : Addr → List Addr) (head : Addr) (starts seen found : List Addr)
    (done after : Addr → List Addr) : Prop where
  own : after head = done head ++ starts
  kept : ∀ n ∈ seen, n ≠ head → after n = done n
  full : ∀ n ∈ found, n ∉ seen → after n = next n

def Builds (M : Memory) (x : Addr) (fuel : Nat) (starts seen found : List Addr) : Prop :=
  ∀ head done, Linked x seen done → head ∈ seen → found.length ≤ 256 →
    ∃ after, Linked x found after ∧ Adds M.graph.next head starts seen found done after ∧
      starts.foldl (M.buildChild (M.buildDecrementGraphImpl fuel) (index seen head))
        (picture M x seen done, seen.toFinset) = (picture M x found after, found.toFinset)

theorem builds_nil (fuel : Nat) (seen : List Addr) : Builds M x fuel [] seen seen := by
  intro head done hl _ _
  refine ⟨done, hl, ⟨by simp, fun _ _ _ => rfl, ?_⟩, rfl⟩
  exact fun n hm hf => absurd hm hf

theorem builds_skip {fuel : Nat} {starts : List Addr} (hk : b ∈ seen) (hg : seen <+: found)
    (hr : Builds M x fuel starts seen found) : Builds M x fuel (b :: starts) seen found := by
  intro head done hl hi hs
  have he : marked seen b = seen := if_pos hk
  have hst := link_picture (M := M) (c := b) hl hi (by
    rw [he]
    exact le_trans hg.length_le hs)
  rw [he] at hst
  obtain ⟨after, hla, ha, run⟩ := hr head _ (hl.link hi hk) hi hs
  refine ⟨after, hla, ⟨?_, fun n hm hn => ?_, ha.full⟩, ?_⟩
  · rw [ha.own, update_self, append_assoc, singleton_append]
  · rw [ha.kept n hm hn, update_of_ne hn]
  · rw [foldl_cons, ← run]
    simp [buildChild, hst, hk]

theorem builds_descend {fuel : Nat} {starts middle : List Addr} (hu : b ∉ seen)
    (hd : seen ++ [b] <+: middle) (hgr : middle <+: found)
    (hb : Builds M x fuel (M.graph.next b) (seen ++ [b]) middle)
    (hrs : Builds M x (fuel + 1) starts middle found) :
    Builds M x (fuel + 1) (b :: starts) seen found := by
  intro head done hl hi hs
  have hsm : middle.length ≤ 256 := le_trans hgr.length_le hs
  have hg : marked seen b = seen ++ [b] := if_neg hu
  have hst := link_picture (M := M) (c := b) hl hi (by
    rw [hg]
    exact le_trans hd.length_le hsm)
  have hlb := hl.mark b
  rw [hg] at hst hlb
  have hib : head ∈ seen ++ [b] := mem_append_left _ hi
  have him : head ∈ middle := hd.subset hib
  have hn : head ≠ b := fun he => hu (he ▸ hi)
  -- the child's own loop starts from no links of the child
  obtain ⟨within, hlw, haw, hrw⟩ :=
    hb b _ (hlb.link (b := b) hib (by simp)) (by simp) hsm
  obtain ⟨after, hla, had, run⟩ := hrs head within hlw him hs
  refine ⟨after, hla, ⟨?_, fun n hm ha => ?_, fun n hm hf => ?_⟩, ?_⟩
  · rw [had.own, haw.kept head hib hn, update_self, append_assoc, singleton_append]
  · have hnb : n ≠ b := fun he => hu (he ▸ hm)
    rw [had.kept n (hd.subset (mem_append_left _ hm)) ha,
      haw.kept n (mem_append_left _ hm) hnb, update_of_ne ha]
  · have ha : n ≠ head := fun he => hf (he ▸ hi)
    by_cases early : n ∈ middle
    · rw [had.kept n early ha]
      by_cases he : n = b
      · rw [he, haw.own, update_of_ne hn.symm, hl.starts b hu, nil_append]
      · exact haw.full n early (by simp [hf, he])
    · exact had.full n hm early
  · have hmr : insert b seen.toFinset = (seen ++ [b]).toFinset := by
      ext n
      simp
    have hr : M.buildChild (M.buildDecrementGraphImpl (fuel + 1)) (index seen head)
        (picture M x seen done, seen.toFinset) b =
        (picture M x middle within, middle.toFinset) := by
      rw [← hrw, ← hmr]
      simp [buildChild, hst, hu, buildDecrementGraphImpl, children_eq]
    have hnm : index middle head = index seen head :=
      index_extends ((prefix_append seen [b]).trans hd) hi
    rw [foldl_cons, hr, ← run, hnm]

theorem picture_congr {af : Addr → List Addr} (he : ∀ n ∈ seen, af n = done n) :
    picture M x seen af = picture M x seen done := by
  have hl : ∀ a, (seen.map fun n => (af n).count a) = seen.map fun n => (done n).count a :=
    fun a => map_congr_left fun n hm => by rw [he n hm]
  rw [picture, picture, RefTree.mk.injEq]
  refine map_congr_left fun a hm => ?_
  rw [nodeOf, nodeOf, hl a, he a hm]

/-- No object leads to more objects than there are indices. -/
def Indexable (M : Memory) (x : Addr) : Prop :=
  ∀ l : List Addr, l.Nodup → (∀ n ∈ l, Leads M.graph.next x n) → l.length ≤ 256

/-- The tree of a dropped reference to `x` is the picture of all that `x` leads to. -/
theorem buildDecrementGraph_picture (hh : x ∈ M.live) (hsm : Indexable M x) :
    ∃ found : List Addr, found.Nodup ∧ (∀ n, n ∈ found ↔ Leads M.graph.next x n) ∧
      index found x = 0 ∧ M.buildDecrementGraph x = picture M x found M.graph.next := by
  have hi : ∀ n ∈ M.live, ∀ b ∈ M.graph.next n, b ∈ M.live :=
    fun _ _ _ hed => (RefGraph.mem_next.mp hed).2
  have hl : (M.live.filter fun n => n ∉ [x]).card ≤ M.storages.length :=
    (Finset.card_filter_le _ _).trans card_live_le
  have done := search_searched hi (hi x hh) hl
  have hb := search_induct (P := Builds M x) hi builds_nil
    (fun _ _ _ _ _ _ => builds_skip) (fun _ _ _ _ _ _ _ => builds_descend) (hi x hh) hl
  have hd := done.nodup (nodup_singleton x)
  have hs : Linked x [x] fun _ => [] :=
    ⟨nodup_singleton x, by simp, fun _ _ => rfl, by simp⟩
  obtain ⟨a, -, ha, hr⟩ := hb x (fun _ => []) hs (by simp) (hsm _ hd fun n => done.mem_iff.mp)
  have hhi : index [x] x = 0 := by simp [index]
  refine ⟨_, hd, fun n => done.mem_iff, ?_, ?_⟩
  · rw [index_extends done.grows (by simp), hhi]
  · have h1 : picture M x [x] (fun _ => []) = ⟨[⟨⟨x, M.mainRefs x, 0 + 1⟩, 0, []⟩]⟩ := by
      simp [picture, nodeOf, hhi]
    rw [h1, hhi] at hr
    have he : ∀ n ∈ search M.graph.next (M.storages.length + 1) (M.graph.next x) [x],
        a n = M.graph.next n := by
      intro n hm
      by_cases ho : n = x
      · rw [ho, ha.own, nil_append]
      · exact ha.full n hm (by simp [ho])
    rw [← picture_congr he]
    refine congrArg Prod.fst (Eq.trans ?_ hr)
    rw [← children_eq]
    rfl

end

theorem inside_eq {found : List Addr} (hd : found.Nodup) {v : Addr} (hh : v ∈ M.live) :
    (found.map fun b => (M.graph.next b).count v).sum = M.graph.inside found.toFinset v := by
  rw [RefGraph.inside, sum_toFinset _ hd]
  congr 1
  refine map_congr_left fun b _ => ?_
  have hk : decide (v ∈ M.graph.live) = true := decide_eq_true hh
  rw [RefGraph.next, count_filter (p := fun a => decide (a ∈ M.graph.live)) hk]

theorem picture_draws {found : List Addr} (hs : found.length ≤ 256)
    (hc : ∀ n ∈ found, ∀ b ∈ M.graph.next n, b ∈ found) :
    Draws (picture M x found M.graph.next) found.toFinset M.graph.next (index found)
      (nodeOf M x found M.graph.next) where
  inside := by simpa using hc
  distinct := by
    intro a hh b ht he
    rw [mem_toFinset] at hh ht
    have hp := congrArg UInt8.toNat he
    rw [index_toNat hh hs, index_toNat ht hs] at hp
    exact (idxOf_inj hh).mp hp
  stands := by
    intro a hh
    rw [mem_toFinset] at hh
    rw [RefTree.get, index_toNat hh hs, picture, getElem?_map, getElem?_idxOf hh]
    rfl
  named := fun _ _ => rfl
  children := fun _ _ => rfl

/-- The stored count of `v` is what the tree counts: its references from `R`, and for the head
the reference that is dropped. -/
def Matched (M : Memory) (x : Addr) (R : Finset Addr) (v : Addr) : Prop :=
  M.mainRefs v = UInt8.ofNat ((if v = x then 1 else 0) + M.graph.inside R v)

def Isolated (M : Memory) (x : Addr) (R : Finset Addr) : Prop :=
  ∀ v ∈ R, Leads M.graph.next v x → Matched M x R v

theorem isolated_iff {R : Finset Addr} (hr : ∀ n, n ∈ R ↔ Leads M.graph.next x n) :
    Isolated M x R ↔ Matched M x R x ∧
      ∀ n ∈ R, ∀ c ∈ M.graph.next n, Leads M.graph.next c x → Matched M x R c := by
  constructor
  · intro hi
    refine ⟨hi x ((hr x).mpr (Leads.refl x)) (Leads.refl x), fun n hm c he => ?_⟩
    exact hi c ((hr c).mpr (((hr n).mp hm).tail he))
  · rintro ⟨ho, hrs⟩ v hm hb
    rcases Relation.ReflTransGen.cases_tail ((hr v).mp hm) with hs | ⟨n, hp, he⟩
    · exact hs ▸ ho
    · exact hrs n ((hr n).mpr hp) v he hb

theorem decrementGraphCount_cases (hh : x ∈ M.live) (hsm : Indexable M x) {R : Finset Addr}
    (hr : ∀ n, n ∈ R ↔ Leads M.graph.next x n) :
    (Isolated M x R ∧ M.decrementGraphCount x = M.mainRefs x) ∨
      (¬ Isolated M x R ∧ M.decrementGraphCount x = 1) := by
  obtain ⟨found, hds, hm, h1, hbl⟩ := buildDecrementGraph_picture hh hsm
  obtain rfl : R = found.toFinset := by
    ext n
    rw [hr, mem_toFinset, hm]
  have hbn : found.length ≤ 256 := hsm found hds fun n => (hm n).mp
  have hd := picture_draws (x := x) hbn fun n mem b he =>
    (hm b).mpr (((hm n).mp mem).tail he)
  have head : x ∈ found.toFinset := (hr x).mpr (Leads.refl x)
  have hs : found.toFinset.card ≤ (picture M x found M.graph.next).nodes.length := by
    rw [picture, length_map]
    exact toFinset_card_le found
  rw [← hbl] at hd hs
  have hah : (M.buildDecrementGraph x).get 0 = some (nodeOf M x found M.graph.next x) := by
    rw [← h1]
    exact hd.stands x head
  have hmi : ∀ v ∈ found.toFinset, (nodeOf M x found M.graph.next v).value.refCount =
      (nodeOf M x found M.graph.next v).value.reachableRefCount ↔ Matched M x found.toFinset v := by
    intro v mem
    have hlv : v ∈ M.live := RefGraph.leads_live ((hr v).mp mem) hh
    simp only [nodeOf, Matched, inside_eq hds hlv]
  have hhi : ∀ v ∈ found.toFinset,
      Memory.Holds (M.buildDecrementGraph x) (nodeOf M x found M.graph.next v) ↔
        ¬ Matched M x found.toFinset v ∧ Leads M.graph.next v x := by
    intro v mem
    rw [Memory.Holds, ne_eq, hmi v mem, ← h1, hd.isReachable_iff mem head hs]
  have hsi : (∀ n, Leads M.graph.next x n → ∀ c ∈ M.graph.next n,
      ¬ Memory.Holds (M.buildDecrementGraph x) (nodeOf M x found M.graph.next c)) ↔
      ∀ n ∈ found.toFinset, ∀ c ∈ M.graph.next n,
        Leads M.graph.next c x → Matched M x found.toFinset c := by
    refine forall_congr' fun n => ?_
    rw [← hr n]
    refine forall₃_congr fun mem c he => ?_
    rw [hhi c (hd.inside n mem c he)]
    tauto
  rw [← hd.forEach_iff head hs] at hsi
  rw [isolated_iff hr, ← hsi, ← hmi x head, decrementGraphCount]
  simp only [hah]
  split_ifs with hu hsf
  · exact .inr ⟨fun hb => hu hb.1, rfl⟩
  · exact .inl ⟨⟨not_not.mp hu, hsf⟩, rfl⟩
  · exact .inr ⟨fun hb => hsf hb.2, rfl⟩

end Ae.Ptr.DecrementGraph
