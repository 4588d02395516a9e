/- source: ptr/ptr.cpp
   digest: Dropping a counted reference ends what the remaining references do not reach. -/

import Ae.Ptr.DecrementGraph

set_option autoImplicit false

namespace Ae.Ptr.Release
open List Lib.CountedGraph Lib.DepthFirst PtrBase DecrementGraph ReferenceTree
open Memory hiding modify
open RefGraph hiding live mk

/-- Every stored count is the number of references from `A` and from the members of the
objects in being. -/
def Counted (M : Memory) (A : List Addr) : Prop :=
  ∀ a ∈ M.live, (M.mainRefs a).toNat = M.graph.references A a

/-- A notion of what references keep in being: what they reach, for a `Ptr`. -/
abbrev Keeps := RefGraph Addr → List Addr → Addr → Prop

def Rooted (K : Keeps) (M : Memory) (A : List Addr) : Prop := ∀ a ∈ M.live, K M.graph A a

/-- No reference dangles: it points to an object in being or to one whose destructor runs. -/
structure Anchored (M : Memory) (A dying : List Addr) : Prop where
  roots : ∀ r ∈ A, r ∈ M.live ∨ r ∈ dying
  members : ∀ b ∈ M.live, ∀ t ∈ M.targets b, t ∈ M.live ∨ t ∈ dying

variable {M N : Memory} {x : Addr} {A : List Addr} {P Q : Place → Prop} {O : Memory} {K : Keeps}

theorem graph_congr (hm : ∀ a, N.mainRefs a = 0 ↔ M.mainRefs a = 0)
    (ht : ∀ a ∈ M.live, N.targets a = M.targets a) : N.graph = M.graph := by
  have hsl : N.live = M.live := by
    ext a
    rw [mem_live, mem_live, ne_eq, hm a]
  rw [graph, graph, hsl, RefGraph.mk.injEq]
  refine ⟨rfl, funext fun a => ?_⟩
  simp only [hm a]
  split
  · rfl
  · exact ht a (mem_live.mpr ‹_›)

theorem graph_remove (hg : N.mainRefs x = 0)
    (hm : ∀ a, a ≠ x → (N.mainRefs a = 0 ↔ M.mainRefs a = 0))
    (ht : ∀ a ∈ M.live, N.targets a = M.targets a) : N.graph = M.graph.remove x := by
  have hsl : N.live = M.live.erase x := by
    ext a
    rw [Finset.mem_erase, mem_live, mem_live]
    by_cases same : a = x
    · simp [same, hg]
    · simp [same, hm a same]
  rw [graph, graph, hsl, RefGraph.remove, RefGraph.mk.injEq]
  refine ⟨rfl, funext fun a => ?_⟩
  by_cases same : a = x
  · simp [same, hg]
  · rw [Function.update_of_ne same]
    simp only [hm a same]
    split
    · rfl
    · exact ht a (mem_live.mpr ‹_›)

section

variable {R : Finset Addr}

theorem references_cons (v : Addr) :
    M.graph.references (x :: A) v = (if v = x then 1 else 0) + M.graph.references A v := by
  simp only [references, count_cons, beq_iff_eq]
  by_cases same : v = x
  · simp [same]
    omega
  · simp [same, Ne.symm same]

theorem matched_iff_beyond (hc : Counted M (x :: A)) (hp : R ⊆ M.live) {v : Addr}
    (hh : v ∈ M.live) : Matched M x R v ↔ M.graph.beyond R A v = 0 := by
  have ht := hc v hh
  rw [references_cons, references_split hp] at ht
  have hb := UInt8.toNat_lt (M.mainRefs v)
  rw [Matched, ← UInt8.toNat_inj, UInt8.toNat_ofNat', ht, Nat.mod_eq_of_lt (by omega)]
  omega

theorem beyond_of_single (hc : Counted M (x :: A)) (hh : x ∈ M.live)
    (hs : M.mainRefs x = 1) (hr : ∀ n, n ∈ R ↔ Leads M.graph.next x n) {v : Addr}
    (hi : v ∈ R) (hb : Leads M.graph.next v x) : M.graph.beyond R A v = 0 := by
  have hpr : R ⊆ M.live := fun n hm => leads_live ((hr n).mp hm) hh
  have ht := hc x hh
  rw [references_cons, hs, references_split hpr] at ht
  have hnl : M.graph.inside R x + M.graph.beyond R A x = 0 := by
    simpa using ht
  rcases Relation.ReflTransGen.cases_tail hb with he | ⟨n, hp, hed⟩
  · rw [← he]
    omega
  · have hm : n ∈ R := (hr n).mpr (((hr v).mp hi).trans hp)
    have hce := count_pos_iff.mpr (mem_next.mp hed).1
    have hbn := Finset.single_le_sum (f := fun b => (M.graph.succ b).count x)
      (fun _ _ => Nat.zero_le _) hm
    have hps : M.graph.inside R x ≠ 0 := by
      simp only [inside]
      omega
    omega

theorem mainRefs_eq_one (hh : x ∈ M.live) (hs : ¬ 1 < M.mainRefs x) : M.mainRefs x = 1 := by
  have hp := mem_live.mp hh
  rw [UInt8.lt_iff_toNat_lt] at hs
  have hn : (M.mainRefs x).toNat ≠ 0 := fun hz =>
    hp (UInt8.toNat_inj.mp (by simpa using hz))
  have ho : (1 : UInt8).toNat = 1 := rfl
  exact UInt8.toNat_inj.mp (by omega)

theorem decrement_cases (hc : Counted M (x :: A)) (hh : x ∈ M.live)
    (hsm : Indexable M x) (hr : ∀ n, n ∈ R ↔ Leads M.graph.next x n) :
    (M.decrement x = M.decrementRef x (M.mainRefs x) ∧
      ∀ v ∈ R, Leads M.graph.next v x → M.graph.beyond R A v = 0) ∨
    (M.decrement x = M.decrementRef x 1 ∧ 1 < M.mainRefs x ∧
      ∃ v ∈ R, Leads M.graph.next v x ∧ M.graph.beyond R A v ≠ 0) := by
  have hlo : ∀ v ∈ R, v ∈ M.live := fun v hm =>
    leads_live ((hr v).mp hm) hh
  have hmt : ∀ v ∈ R, (Matched M x R v ↔ M.graph.beyond R A v = 0) := fun v hm =>
    matched_iff_beyond hc hlo (hlo v hm)
  by_cases several : 1 < M.mainRefs x
  · rw [decrement, if_pos several]
    rcases decrementGraphCount_cases hh hsm hr with ⟨hi, hcn⟩ | ⟨hhl, hcn⟩
    · refine .inl ⟨by rw [hcn], fun v hm hb => ?_⟩
      exact (hmt v hm).mp (hi v hm hb)
    · refine .inr ⟨by rw [hcn], several, ?_⟩
      simp only [Isolated, not_forall] at hhl
      obtain ⟨v, hm, hb, hu⟩ := hhl
      exact ⟨v, hm, hb, fun hnb => hu ((hmt v hm).mpr hnb)⟩
  · have hs := mainRefs_eq_one hh several
    refine .inl ⟨?_, fun v hm => beyond_of_single hc hh hs hr hm⟩
    rw [decrement, if_neg several, hs]

end

structure Frame (P : Place → Prop) (M N : Memory) : Prop where
  size : N.storages.length = M.storages.length
  fewer : N.live ⊆ M.live
  outside : ∀ j, ¬ P (.outside j) → N.outside[j]? = M.outside[j]?
  members : ∀ a, (a ∈ M.live → a ∈ N.live) → ∀ j, ¬ P (.member a j) →
    (N.storage a).members[j]? = (M.storage a).members[j]?

def Detached (P : Place → Prop) (M : Memory) : Prop := ∀ a j, P (.member a j) → a ∉ M.live

namespace Frame

variable {a : Addr}

theorem refl : Frame P M M :=
  ⟨rfl, Finset.Subset.refl _, fun _ _ => rfl, fun _ _ _ _ => rfl⟩

theorem trans (first : Frame P M N) (second : Frame Q N O) : Frame (fun q => P q ∨ Q q) M O where
  size := second.size.trans first.size
  fewer := second.fewer.trans first.fewer
  outside := fun j ha =>
    (second.outside j fun hm => ha (.inr hm)).trans (first.outside j fun hm => ha (.inl hm))
  members := fun a hs j ha =>
    (second.members a (fun hh => hs (first.fewer hh)) j fun hm => ha (.inr hm)).trans
      (first.members a (fun hh => second.fewer (hs hh)) j fun hm => ha (.inl hm))

theorem succ (hf : Frame P M N) (hd : Detached P M) (hh : a ∈ N.live) :
    N.graph.succ a = M.graph.succ a := by
  have hb : a ∈ M.live := hf.fewer hh
  have hl : (N.storage a).members = (M.storage a).members :=
    ext_getElem? fun j =>
      hf.members a (fun _ => hh) j fun hm => hd a j hm hb
  rw [succ_of_live hh, succ_of_live hb, targets, targets, hl]

theorem detached (hf : Frame P M N) (ha : Detached Q M) : Detached Q N :=
  fun a j hm hh => ha a j hm (hf.fewer hh)

theorem keeps (hf : Frame P M N) (hk : Keeping K) (hd : Detached P M) (kept : K N.graph A a) :
    K M.graph A a :=
  hk.shrink kept hf.fewer fun _ hh => hf.succ hd hh

theorem indexable (hf : Frame P M N) (hdt : Detached P M)
    (hs : ∀ a ∈ M.live, Indexable M a) : ∀ a ∈ N.live, Indexable N a := by
  intro a hh l hd hl
  refine hs a (hf.fewer hh) l hd fun n hm => ?_
  have hp : N.graph.Reached [a] n := ⟨a, by simp, hh, hl n hm⟩
  obtain ⟨r, he, -, hp⟩ := hf.keeps keeping_reached hdt hp
  exact mem_singleton.mp he ▸ hp

end Frame

theorem frame_write (M : Memory) (p : Place) (v : Option Addr) : Frame (· = p) M (M.write p v) := by
  refine ⟨?_, by rw [live_write], fun j ha => ?_, fun a _ j ha => ?_⟩
  · cases p with
    | outside i => rfl
    | member b i => exact length_modify
  · cases p with
    | outside i =>
      have hn : i ≠ j := fun he => ha (by rw [he])
      simp [write, hn]
    | member b i => rfl
  · cases p with
    | outside i => rfl
    | member b i =>
      by_cases he : a = b
      · subst he
        have hn : i ≠ j := fun he => ha (by rw [he])
        by_cases inside : a < M.storages.length
        · simp [write, storage_modify_self inside, hn]
        · simp [write, storage, Memory.modify, inside]
      · rw [write, storage_modify_ne he]

/-- A step from the references `A` to the references `B`: counts stay exact, what `B` keeps
stays in being, each ended object is destroyed once, and the step leaves neither an object that is
not kept nor a dangling reference where there was none. -/
structure Released (K : Keeps) (P : Place → Prop) (A B : List Addr) (M N : Memory) : Prop where
  frame : Frame P M N
  counted : Counted N B
  survives : ∀ a, K M.graph B a → a ∈ N.live
  ended : ∃ new, N.destroyed = M.destroyed ++ new ∧ new.Nodup ∧
    ∀ a, a ∈ new ↔ a ∈ M.live ∧ a ∉ N.live
  rooted : Rooted K M A → Rooted K N B
  anchored : ∀ dying, Rooted K M A → Anchored M A dying → Anchored N B dying

namespace Released

variable {B C : List Addr}

theorem widen (hs : Released K P A B M N) (hw : ∀ q, P q → Q q) : Released K Q A B M N :=
  { hs with
    frame :=
      { hs.frame with
        outside := fun j ha => hs.frame.outside j fun hm => ha (hw _ hm)
        members := fun a hst j ha =>
          hs.frame.members a hst j fun hm => ha (hw _ hm) } }

variable (hk : Keeping K)
include hk

theorem keeps (hst : Released K P A B M N) (hd : Detached P M)
    (hn : ∀ r ∈ C, r ∈ B) {a : Addr} (kept : K M.graph C a) : K N.graph C a := by
  have hs : ∀ b, K M.graph C b → b ∈ N.live := fun b hrb =>
    hst.survives b (hk.mono hrb fun r hm _ => hn r hm)
  exact hk.transport kept hs fun b hrb => hst.frame.succ hd (hs b hrb)

theorem trans (first : Released K P A B M N) (second : Released K Q B C N O)
    (detached : Detached P M) (narrower : ∀ r ∈ C, r ∈ B) :
    Released K (fun q => P q ∨ Q q) A C M O where
  frame := first.frame.trans second.frame
  counted := second.counted
  survives := fun a hr => second.survives a (first.keeps hk detached narrower hr)
  ended := by
    obtain ⟨e, hel, hed, hei⟩ := first.ended
    obtain ⟨l, hll, hld, hli⟩ := second.ended
    refine ⟨e ++ l, by rw [hll, hel, append_assoc], ?_, fun a => ?_⟩
    · rw [nodup_append]
      refine ⟨hed, hld, ?_⟩
      rintro a hm b hl rfl
      exact ((hei a).mp hm).2 ((hli a).mp hl).1
    · have hi : a ∈ O.live → a ∈ N.live := fun hh => second.frame.fewer hh
      have hb : a ∈ N.live → a ∈ M.live := fun hh => first.frame.fewer hh
      rw [mem_append, hei, hli]
      tauto
  rooted := fun ha => second.rooted (first.rooted ha)
  anchored := fun d ha hf =>
    second.anchored d (first.rooted ha) (first.anchored d ha hf)

theorem followed (h1 : Released K (fun _ => False) A B M N) (h2 : Released K Q B B N O) :
    Released K Q A B M O :=
  (h1.trans hk h2 (fun _ _ => False.elim) fun _ => id).widen fun _ he =>
    he.resolve_left id

theorem congr_left (hs : Released K P A C M N) (he : ∀ r, r ∈ A ↔ r ∈ B) :
    Released K P B C M N where
  frame := hs.frame
  counted := hs.counted
  survives := hs.survives
  ended := hs.ended
  rooted := fun ha => hs.rooted fun a hh =>
    hk.mono (ha a hh) fun r hm _ => (he r).mpr hm
  anchored := fun d ha hf => hs.anchored d
    (fun a hh => hk.mono (ha a hh) fun r hm _ => (he r).mpr hm)
    ⟨fun r hm => hf.roots r ((he r).mp hm), hf.members⟩

theorem of_graph (hfr : Frame P M N) (he : N.graph = M.graph)
    (hl : N.destroyed = M.destroyed) (hc : Counted N B) (hfw : ∀ r ∈ B, r ∈ A)
    (hhl : Rooted K M A → Rooted K M B) : Released K P A B M N := by
  have hsl : N.live = M.live := congrArg RefGraph.live he
  refine ⟨hfr, hc, fun a hr => ?_, ⟨[], by simp [hl], nodup_nil, ?_⟩,
    fun ha a hh => ?_, fun d _ hf => ⟨fun r hm => ?_, fun b hh t hm => ?_⟩⟩
  · rw [hsl]
    exact hk.live hr
  · simp [hsl]
  · rw [he]
    exact hhl ha a (hsl ▸ hh)
  · rw [hsl]
    exact hf.roots r (hfw r hm)
  · have hb : b ∈ M.live := hsl ▸ hh
    rw [← succ_of_live hh, he, succ_of_live hb] at hm
    rw [hsl]
    exact hf.members b hb t hm

theorem dead (hg : x ∉ M.live) (hc : Counted M (x :: A)) : Released K P (x :: A) A M M := by
  refine of_graph hk Frame.refl rfl rfl (fun a hh => ?_) (fun r => mem_cons_of_mem x)
    fun ha a hh => hk.mono (ha a hh) fun r hm hlr => ?_
  · have hn : a ≠ x := fun he => hg (he ▸ hh)
    rw [hc a hh, references_cons, if_neg hn, zero_add]
  · rcases mem_cons.mp hm with rfl | later
    · exact absurd hlr hg
    · exact later

theorem alike (hc : Counted M A) (hs : N.storages.length = M.storages.length)
    (hmn : ∀ a, N.mainRefs a = M.mainRefs a)
    (hm : ∀ a, (N.storage a).members = (M.storage a).members)
    (ho : N.outside = M.outside) (hl : N.destroyed = M.destroyed) :
    Released K (fun _ => False) A A M N := by
  have he : N.graph = M.graph := graph_congr (fun a => by rw [hmn a]) fun a _ => by
    rw [targets, hm a, targets]
  have hsl : N.live = M.live := congrArg RefGraph.live he
  refine of_graph hk ⟨hs, ?_, fun j _ => ?_, fun a _ j _ => ?_⟩ he hl (fun a hh => ?_)
    (fun _ => id) id
  · rw [hsl]
  · rw [ho]
  · rw [hm a]
  · rw [hmn a, he, hc a (hsl ▸ hh)]

theorem write (hc : Counted M A) {p : Place} (hd : Detached (· = p) M)
    (v : Option Addr) : Released K (· = p) A A M (M.write p v) := by
  have he : (M.write p v).graph = M.graph := by
    refine graph_congr (fun a => by rw [mainRefs_write]) fun a hh => ?_
    cases p with
    | outside i => rfl
    | member b i =>
      exact targets_write_ne fun he => hd b i rfl (he ▸ hh)
  refine of_graph hk (frame_write M p v) he ?_ (fun a hh => ?_) (fun _ => id) id
  · cases p with
    | outside i | member b i => rfl
  · rw [mainRefs_write, he, hc a (live_write p v ▸ hh)]

end Released

open Released

/-- `N` is `M` but for the counters of `x`. -/
structure Recounted (M N : Memory) (x : Addr) : Prop where
  size : N.storages.length = M.storages.length
  others : ∀ a, a ≠ x → N.mainRefs a = M.mainRefs a
  members : ∀ a, (N.storage a).members = (M.storage a).members
  outside : N.outside = M.outside
  destroyed : N.destroyed = M.destroyed

/-- An ended object that nothing refers to any more need not be excused. -/
theorem Anchored.settle {M : Memory} {A dying : List Addr} {x : Addr}
    (hf : Anchored M A (x :: dying)) (hr : x ∉ A) (hm : ∀ b ∈ M.live, x ∉ M.targets b) :
    Anchored M A dying := by
  refine ⟨fun r hi => ?_, fun b hlb t hi => ?_⟩
  · exact (hf.roots r hi).imp_right (mem_of_ne_of_mem (ne_of_mem_of_not_mem hi hr))
  · exact (hf.members b hlb t hi).imp_right (mem_of_ne_of_mem (ne_of_mem_of_not_mem hi (hm b hlb)))

section

variable (hk : Keeping K)

theorem mainRefs_decrementRef (hi : x < M.storages.length) (count : UInt8) :
    (M.decrementRef x count).mainRefs x = M.mainRefs x - count := by
  rw [mainRefs, decrementRef, storage_modify_self hi, mainRefs]

theorem decrementRef_one (hh : x ∈ M.live) (hs : 1 < M.mainRefs x) :
    (M.decrementRef x 1).mainRefs x ≠ 0 ∧
      ((M.decrementRef x 1).mainRefs x).toNat + 1 = (M.mainRefs x).toNat := by
  have hm : 1 < (M.mainRefs x).toNat := UInt8.lt_iff_toNat_lt.mp hs
  have hl : ((M.decrementRef x 1).mainRefs x).toNat = (M.mainRefs x).toNat - 1 := by
    rw [mainRefs_decrementRef (lt_of_live hh)]
    exact UInt8.toNat_sub_of_le _ _ (UInt8.le_of_lt hs)
  refine ⟨fun hz => ?_, by omega⟩
  rw [hz, UInt8.toNat_zero] at hl
  omega

theorem recounted_modify {f : PtrStorage → PtrStorage} (hm : ∀ s, (f s).members = s.members) :
    Recounted M (M.modify x f) x where
  size := length_modify
  others a hn := by rw [mainRefs, storage_modify_ne hn, mainRefs]
  members _ := members_modify hm
  outside := rfl
  destroyed := rfl

theorem Recounted.graph_eq (hr : Recounted M N x) (hh : x ∈ M.live) (hs : N.mainRefs x ≠ 0) :
    N.graph = M.graph := by
  refine graph_congr (fun a => ?_) fun a _ => ?_
  · by_cases equal : a = x
    · exact equal ▸ iff_of_false hs (mem_live.mp hh)
    · rw [hr.others a equal]
  · rw [targets, hr.members, targets]

include hk in
theorem Released.one (hr : Recounted M N x) (hc : Counted M (x :: A)) (hh : x ∈ M.live)
    (hs : N.mainRefs x ≠ 0) (hl : (N.mainRefs x).toNat + 1 = (M.mainRefs x).toNat)
    (hhl : Rooted K M (x :: A) → K M.graph A x) :
    Released K (fun _ => False) (x :: A) A M N := by
  have he := hr.graph_eq hh hs
  have hsl : N.live = M.live := congrArg RefGraph.live he
  refine of_graph hk ⟨hr.size, by rw [hsl], fun _ _ => by rw [hr.outside],
    fun a _ j _ => by rw [hr.members]⟩ he hr.destroyed (fun a hla => ?_)
    (fun r => mem_cons_of_mem x) fun ha a hla => hk.absorb (ha a hla) (hhl ha)
  have ht := hc a (hsl ▸ hla)
  rw [references_cons] at ht
  rw [he]
  by_cases equal : a = x
  · subst equal
    rw [if_pos rfl] at ht
    omega
  · rw [hr.others a equal, ht, if_neg equal, zero_add]

section

variable {Z : Memory} (hz : Recounted M Z x) (hg : Z.mainRefs x = 0) (hh : x ∈ M.live)
include hz

theorem doomed_members (a : Addr) :
    ((Z.beginDestroy x).storage a).members = (M.storage a).members :=
  (members_modify (M := Z) (f := fun s => { s with weakRefs := s.weakRefs + 1 })
    fun _ => rfl).trans (hz.members a)

omit hz in
theorem doomed_mainRefs (a : Addr) : (Z.beginDestroy x).mainRefs a = Z.mainRefs a :=
  mainRefs_modify (M := Z) (f := fun s => { s with weakRefs := s.weakRefs + 1 }) fun _ => rfl

include hg hh

omit hh in
theorem doomed_graph : (Z.beginDestroy x).graph = M.graph.remove x := by
  refine graph_remove ?_ (fun a hn => ?_) fun a _ => ?_
  · rw [doomed_mainRefs, hg]
  · rw [doomed_mainRefs, hz.others a hn]
  · rw [targets, doomed_members hz, targets]

omit hh in
theorem mem_doomed_live {a : Addr} : a ∈ (Z.beginDestroy x).live ↔ a ≠ x ∧ a ∈ M.live := by
  have he : (Z.beginDestroy x).live = (M.graph.remove x).live :=
    congrArg RefGraph.live (doomed_graph hz hg)
  rw [he, mem_remove]
  rfl

omit hh in
theorem doomed_gone : x ∉ (Z.beginDestroy x).live :=
  fun hlx => ((mem_doomed_live hz hg).mp hlx).1 rfl

omit hh in
theorem doomed_detached : Detached (fun q => ∃ j, q = .member x j) (Z.beginDestroy x) := by
  rintro a j ⟨i, he⟩
  cases he
  exact doomed_gone hz hg

omit hh in
theorem doomed_frame : Frame (fun _ => False) M (Z.beginDestroy x) := by
  refine ⟨?_, fun a hla => ((mem_doomed_live hz hg).mp hla).2, fun _ _ => ?_,
    fun a _ j _ => by rw [doomed_members hz]⟩
  · rw [← hz.size]
    exact length_modify
  · rw [← hz.outside]
    rfl

theorem doomed_counted (hc : ∀ a ∈ M.live, a ≠ x → (M.mainRefs a).toNat = M.graph.references A a) :
    Counted (Z.beginDestroy x) (M.targets x ++ A) := by
  intro a hla
  obtain ⟨hn, hb⟩ := (mem_doomed_live hz hg).mp hla
  rw [doomed_mainRefs, hz.others a hn, doomed_graph hz hg,
    ← succ_of_live hh, references_remove hh, hc a hb hn]

include hk

theorem doomed_rooted (all : Rooted K M (x :: A)) :
    Rooted K (Z.beginDestroy x) (M.targets x ++ A) := by
  intro a hla
  obtain ⟨hn, hb⟩ := (mem_doomed_live hz hg).mp hla
  rw [doomed_graph hz hg, ← succ_of_live hh]
  refine hk.mono (hk.remove (all a hb) hn) fun r hm hlr => ?_
  have ha : r ≠ x := (mem_remove.mp hlr).1
  simpa [ha] using hm

omit hk in
theorem doomed_anchored {dying : List Addr} (hf : Anchored M (x :: A) dying) :
    Anchored (Z.beginDestroy x) (M.targets x ++ A) (x :: dying) := by
  have hs : ∀ t, t ∈ M.live ∨ t ∈ dying → t ∈ (Z.beginDestroy x).live ∨ t ∈ x :: dying := by
    intro t hp
    rw [mem_doomed_live hz hg, mem_cons]
    tauto
  refine ⟨fun r hm => hs r ?_, fun b hlb t hm => hs t ?_⟩
  · rcases mem_append.mp hm with ho | outer
    · exact hf.members x hh r ho
    · exact hf.roots r (mem_cons_of_mem x outer)
  · rw [targets, doomed_members hz] at hm
    exact hf.members b ((mem_doomed_live hz hg).mp hlb).2 t hm

variable (hr : Released K (fun q => ∃ j, q = .member x j) (M.targets x ++ A) A (Z.beginDestroy x) N)
include hr

omit hk in
theorem ended_frame : x ∉ N.live ∧ Frame (fun _ => False) M N := by
  have hga : x ∉ N.live := fun hlx => doomed_gone hz hg (hr.frame.fewer hlx)
  have hw := (doomed_frame hz hg).trans hr.frame
  refine ⟨hga, hw.size, hw.fewer, fun j _ => hw.outside j (by simp), ?_⟩
  intro a hs j _
  refine hw.members a hs j ?_
  rintro (hi | ⟨i, he⟩)
  · exact hi
  · cases he
    exact hga (hs hh)

omit hk in
theorem ended_destroyed : ∃ new, N.destroyed = M.destroyed ++ new ∧ new.Nodup ∧
    ∀ a, a ∈ new ↔ a ∈ M.live ∧ a ∉ N.live := by
  have hga := (ended_frame hz hg hh hr).1
  obtain ⟨new, hl, hd, hni⟩ := hr.ended
  refine ⟨x :: new, ?_, ?_, fun a => ?_⟩
  · rw [hl, ← hz.destroyed]
    simp [beginDestroy]
  · exact nodup_cons.mpr
      ⟨fun hm => doomed_gone hz hg ((hni x).mp hm).1, hd⟩
  · rw [mem_cons, hni, mem_doomed_live hz hg]
    by_cases he : a = x
    · subst he
      simp [hh, hga]
    · simp [he]

/-- What is left once `x` has ended is what the other references keep without it. -/
theorem ended_live (ha : Rooted K M (x :: A)) {a : Addr} :
    a ∈ N.live ↔ K (M.graph.remove x) A a := by
  rw [← doomed_graph hz hg]
  refine ⟨fun hla => ?_, hr.survives a⟩
  exact hr.frame.keeps hk (doomed_detached hz hg)
    (hr.rooted (doomed_rooted hk hz hg hh ha) a hla)

/-- The end of an object that the remaining references do not keep: its own references
are dropped one after the other once it is out of the graph. -/
theorem Released.killed (hu : ¬ K M.graph A x) :
    Released K (fun _ => False) (x :: A) A M N := by
  have hf := (ended_frame hz hg hh hr).2
  have hsv : ∀ a, K (M.graph.remove x) A a → a ∈ N.live := by
    rw [← doomed_graph hz hg]
    exact hr.survives
  have hrt (ha : Rooted K M (x :: A)) : Rooted K N A :=
    hr.rooted (doomed_rooted hk hz hg hh ha)
  refine ⟨hf, hr.counted, fun a hrc => hsv a (hk.remove_of_not hrc hu),
    ended_destroyed hz hg hh hr, hrt, fun d ha hfr => ?_⟩
  have hfa := hr.anchored (x :: d) (doomed_rooted hk hz hg hh ha) (doomed_anchored hz hg hh hfr)
  refine hfa.settle (fun hm => hu (hk.of_mem hm hh)) fun b hlb hm => ?_
  -- an object in being that still points to the ended one would keep it
  have hb := hf.keeps hk (fun _ _ => False.elim) (hrt ha b hlb)
  rw [← succ_of_live hlb, hf.succ (fun _ _ => False.elim) hlb] at hm
  exact hu (hk.tail hb (mem_next.mpr ⟨hm, hh⟩))

end

def pending (M : Memory) (x : Addr) (k : Nat) : List Addr :=
  ((M.storage x).members.take k).filterMap id

theorem pending_succ (k : Nat) :
    pending M x (k + 1) = pending M x k ++ (M.read (.member x k)).toList := by
  rw [pending, take_add_one, filterMap_append, ← pending, Memory.read]
  rcases (M.storage x).members[k]? with _ | _ | y <;> rfl

theorem pending_congr {k : Nat}
    (he : ∀ j < k, (N.storage x).members[j]? = (M.storage x).members[j]?) :
    pending N x k = pending M x k := by
  rw [pending, pending]
  congr 1
  refine ext_getElem? fun j => ?_
  rw [getElem?_take, getElem?_take]
  split
  · exact he j ‹_›
  · rfl

/-- What is shown of `Reset` on a pointer that no object in being has, with fewer than `n` of
them left, while the references `R` stay; `Fit` is a further condition on the memory and on the
references to it. -/
structure Resets (K : Keeps) (Fit : Memory → List Addr → Prop) (R : List Addr)
    (reset : Place → Memory → Memory) (n : Nat) : Prop where
  null : ∀ {M : Memory} {p : Place}, M.read p = none → reset p M = M
  fits : ∀ {P : Place → Prop} {A B : List Addr} {M N : Memory}, Released K P A B M N →
    Detached P M → R ⊆ B → B ⊆ A → Fit M A → Fit N B
  drops : ∀ (M : Memory) (p : Place) (y : Addr) (A : List Addr), M.read p = some y →
    Detached (· = p) M → R ⊆ A → Counted M (y :: A) → Fit M (y :: A) → M.live.card < n →
      Released K (· = p) (y :: A) A M (reset p M)

variable {Fit : Memory → List Addr → Prop} {R : List Addr} {reset : Place → Memory → Memory}
  {n : Nat} (hrs : Resets K Fit R reset n) (hb : R ⊆ A)
include hrs hb

include hk in
theorem resetMembers_released (k : Nat) (hg : x ∉ M.live)
    (hc : Counted M (pending M x k ++ A)) (hft : Fit M (pending M x k ++ A))
    (he : M.live.card < n) :
    Released K (fun q => ∃ j, q = .member x j) (pending M x k ++ A) A M
      (resetMembers reset x k M) := by
  induction k generalizing M with
  | zero => exact of_graph hk Frame.refl rfl rfl hc (fun _ => id) id
  | succ k ih =>
    rw [resetMembers]
    rw [pending_succ] at hc hft ⊢
    cases hh : M.read (.member x k) with
    | none =>
      rw [hrs.null hh]
      simp only [hh, Option.toList_none, append_nil] at hc hft ⊢
      exact ih hg hc hft he
    | some y =>
      have hd : Detached (· = .member x k) M := by
        rintro a j hs
        cases hs
        exact hg
      have ht := subset_append_of_subset_right (pending M x k) hb
      have ho : (pending M x k ++ (some y).toList ++ A).Perm (y :: (pending M x k ++ A)) := by
        rw [Option.toList_some, append_assoc]
        exact perm_middle
      rw [hh] at hc hft
      have hcy : Counted M (y :: (pending M x k ++ A)) := by
        intro a hhr
        rw [hc a hhr, references, references, ho.count_eq]
      have hfy : Fit M (y :: (pending M x k ++ A)) :=
        hrs.fits (of_graph hk (P := fun _ => False) Frame.refl rfl rfl hcy
          (fun r hm => ho.symm.subset hm) fun ha a hla => hk.mono (ha a hla)
            fun r hm _ => ho.subset hm) (fun _ _ => False.elim)
          (subset_cons_of_subset y ht) ho.symm.subset hft
      have h1 := hrs.drops M (.member x k) y (pending M x k ++ A) hh hd ht hcy hfy he
      have hfn := hrs.fits h1 hd ht (subset_cons_self y _) hfy
      have hga := fun hlx => hg (h1.frame.fewer hlx)
      have hs : pending (reset (.member x k) M) x k = pending M x k := by
        refine pending_congr fun j hl => h1.frame.members x (fun hhr => absurd hhr hg) j ?_
        intro heq
        cases heq
        exact lt_irrefl k hl
      have hr := ih (M := reset (.member x k) M) hga (by rw [hs]; exact h1.counted)
        (by rw [hs]; exact hfn) (lt_of_le_of_lt (Finset.card_le_card h1.frame.fewer) he)
      rw [hs] at hr
      have hb := (h1.trans hk hr hd fun r => mem_append_right _).widen
        (Q := fun q => ∃ j, q = .member x j) fun q ham => by
          rcases ham with hls | early
          · exact ⟨k, hls⟩
          · exact early
      exact hb.congr_left hk fun r => ho.symm.mem_iff

omit hrs hb in
theorem pending_length : pending M x (M.storage x).members.length = M.targets x := by
  rw [pending, take_length, targets]

include hk in
theorem reclaim_loop {Z : Memory} (hz : Recounted M Z x) (hg : Z.mainRefs x = 0) (hh : x ∈ M.live)
    (hc : ∀ a ∈ M.live, a ≠ x → (M.mainRefs a).toNat = M.graph.references A a)
    (hs : Fit (Z.beginDestroy x) (M.targets x ++ A)) (hen : M.live.card ≤ n) :
    Released K (fun q => ∃ j, q = .member x j) (M.targets x ++ A) A (Z.beginDestroy x)
      (Z.reclaim reset x) := by
  have hf := doomed_frame hz hg
  have hgd := doomed_gone hz hg
  have hfw : (Z.beginDestroy x).live.card < n := by
    refine lt_of_lt_of_le (Finset.card_lt_card ?_) hen
    exact (Finset.ssubset_iff_of_subset hf.fewer).mpr ⟨x, hh, hgd⟩
  have he : pending (Z.beginDestroy x) x (Z.storage x).members.length = M.targets x := by
    rw [hz.members, ← doomed_members hz x, pending_length, targets, doomed_members hz, targets]
  have hl := resetMembers_released hk hrs hb (Z.storage x).members.length hgd
    (by rw [he]; exact doomed_counted hz hg hh hc) (by rw [he]; exact hs) hfw
  rw [he] at hl
  rw [reclaim, if_pos hg]
  have hw {O : Memory} (ha : Released K (fun _ => False) A A
      (resetMembers reset x (Z.storage x).members.length (Z.beginDestroy x)) O) :
      Released K (fun q => ∃ j, q = .member x j) (M.targets x ++ A) A (Z.beginDestroy x) O :=
    (hl.trans hk ha (doomed_detached hz hg) fun _ => id).widen fun _ hp => hp.resolve_right id
  dsimp only
  split <;> exact hw (alike hk hl.counted length_modify
    (fun _ => mainRefs_modify fun _ => rfl) (fun _ => members_modify fun _ => rfl) rfl rfl)

omit hrs hb

variable {fuel : Nat}

theorem resetWith_null {p : Place} (hn : M.read p = none) : resetWith fuel p M = M := by
  cases fuel with
  | zero => rfl
  | succ fuel => rw [resetWith, hn]

def AllIndexable (M : Memory) (_ : List Addr) : Prop := ∀ a ∈ M.live, Indexable M a

theorem reclaim_released (hrs : Resets Reached AllIndexable [] (resetWith fuel) fuel)
    (hh : x ∈ M.live) (hc : Counted M (x :: A)) (hs : ∀ a ∈ M.live, Indexable M a)
    (he : M.live.card ≤ fuel) :
    Released Reached (fun _ => False) (x :: A) A M
      ((M.decrement x).reclaim (resetWith fuel) x) := by
  classical
  have hr : ∀ n, n ∈ M.live.filter (Leads M.graph.next x) ↔ Leads M.graph.next x n :=
    fun n => by
      rw [Finset.mem_filter, and_iff_right_iff_imp]
      exact fun hp => leads_live hp hh
  have hin := lt_of_live hh
  rcases decrement_cases hc hh (hs x hh) hr with
    ⟨ha, hi⟩ | ⟨one, several, hhl⟩
  · have hu : ¬ M.graph.Reached A x := by
      intro hrc
      obtain ⟨v, hm, hbc, hb⟩ := hrc.enters ((hr x).mpr (Leads.refl x))
      exact hb (hi v hm hbc)
    have hco : ∀ a ∈ M.live, a ≠ x → (M.mainRefs a).toNat = M.graph.references A a := by
      intro a hla hn
      rw [hc a hla, references_cons, if_neg hn, zero_add]
    have hz : Recounted M (M.decrementRef x (M.mainRefs x)) x := recounted_modify fun _ => rfl
    have hg : (M.decrementRef x (M.mainRefs x)).mainRefs x = 0 := by
      rw [mainRefs_decrementRef hin, UInt8.sub_self]
    rw [ha]
    exact Released.killed keeping_reached hz hg hh
      (reclaim_loop keeping_reached hrs (nil_subset A) hz hg hh hco
        ((doomed_frame hz hg).indexable (fun _ _ => False.elim) hs) he) hu
  · obtain ⟨hsm, hl⟩ := decrementRef_one hh several
    rw [one, reclaim, if_neg hsm]
    exact Released.one keeping_reached (recounted_modify fun _ => rfl) hc hh hsm hl fun ha =>
      (reached_iff_beyond hh hr ha).mpr hhl

theorem resets (fuel : Nat) : Resets Reached AllIndexable [] (resetWith fuel) fuel := by
  refine ⟨resetWith_null, fun hr hd _ _ => hr.frame.indexable hd, ?_⟩
  induction fuel with
  | zero => exact fun _ _ _ _ _ _ _ _ _ he => absurd he (Nat.not_lt_zero _)
  | succ fuel ih =>
    intro M p y A hhl hdt _ hc hs he
    rw [resetWith, hhl]
    by_cases gone : M.mainRefs y = 0
    · simp only [gone, if_true]
      exact dead keeping_reached (fun hh => mem_live.mp hh gone) hc
    · simp only [gone, if_false]
      have hh : y ∈ M.live := mem_live.mpr gone
      have hd := reclaim_released
        ⟨resetWith_null, fun hr hd _ _ => hr.frame.indexable hd, ih⟩ hh hc hs
        (Nat.le_of_lt_succ he)
      exact hd.followed keeping_reached
        (write keeping_reached hd.counted (hd.frame.detached hdt) none)

end

end Ae.Ptr.Release
