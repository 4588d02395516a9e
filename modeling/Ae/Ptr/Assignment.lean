/- source: ptr/{ptr.{h,cpp},rc_ptr.h}
   digest: A pointer assigned from one that goes with the object it lets go of. -/

import Ae.Ptr.MemberReset
import Ae.Ptr.RcPtr

set_option autoImplicit false

namespace Ae.Ptr.Assignment
open List Lib.CountedGraph Lib.DepthFirst Lib.EventRun PtrBase Lifetimes ReferenceTree
open Release MemberReset RefGraph

inductive Kind where
  | ptr
  | rcPtr

def Kind.reset (M : Memory) (p : Place) : Kind → Memory
  | .ptr => M.reset p
  | .rcPtr => RcPtr.reset M p

def Kind.assign (M : Memory) (p q : Place) : Kind → Memory
  | .ptr => M.assign p q
  | .rcPtr => RcPtr.assign M p q

def Kind.moveAssign (M : Memory) (p q : Place) : Kind → Memory
  | .ptr => M.moveAssign p q
  | .rcPtr => RcPtr.moveAssign M p q

/-- The pointers still exist, `p` refers to what `q` referred to, and that is not destroyed. -/
structure Safe (M after : Memory) (p q : Place) : Prop where
  target : Held after p
  source : Held after q
  refers : after.read p = M.read q
  alive : ∀ y, M.read q = some y → y ∉ after.destroyed

/-- What the outside pointers keep in being: for `Ptr`s what they reach, while among `RcPtr`s
objects that refer to one another in a cycle keep themselves too. -/
def Kind.Keeps : Kind → Keeps
  | .ptr => Reached
  | .rcPtr => Supported

/-- The drop of one pointer ends `x`: it is the only one, or, for a `Ptr`, one is held beyond
what `x` leads to, and it points to `x` itself. -/
def Kind.Ends (M : Memory) (x : Addr) : Kind → Prop
  | .ptr => pointers M x = 1 ∨ heldBeyond M x x = 1 ∧
      ∀ v, Leads M.targets x v → Leads M.targets v x → v ≠ x → heldBeyond M x v = 0
  | .rcPtr => pointers M x = 1

abbrev Kind.Without (kind : Kind) (M : Memory) (x : Addr) : Addr → Prop :=
  kind.Keeps (M.graph.remove x) M.roots

def Stands (K : Addr → Prop) : Place → Prop
  | .outside _ => True
  | .member o _ => K o

/-- Both pointers stand outside or in objects that are kept, and so is the object of `q`. -/
structure Kept (K : Addr → Prop) (M : Memory) (p q : Place) : Prop where
  target : Stands K p
  source : Stands K q
  object : ∀ y, M.read q = some y → K y

/-- The object of `p`, if it ends with this pointer, is not needed for `p`, `q` and what `q`
refers to. -/
def Spared (kind : Kind) (M : Memory) (p q : Place) : Prop :=
  ∀ x, M.read p = some x → kind.Ends M x → Kept (kind.Without M x) M p q

/-- Every object is reachable, as `Ptr`s leave it; `RcPtr`s may leave cycles that are not, and
`p` stands in none of these. -/
def Kind.Known (M : Memory) (p : Place) : Kind → Prop
  | .ptr => ∀ a ∈ objects M, Reachable M a
  | .rcPtr => Stands (Reachable M) p

structure Unharmed (kind : Kind) (M : Memory) (p q : Place) : Prop where
  target : Held (kind.reset M p) p
  source : Held (kind.reset M p) q
  refers : (kind.reset M p).read q = M.read q
  alive : ∀ y, M.read q = some y → y ∉ (kind.reset M p).destroyed

section

variable {M : Memory} {p q : Place} {a : Addr} {v : Option Addr} {f : PtrStorage → PtrStorage}

theorem held_modify (hk : ∀ s, (f s).members = s.members) :
    Held (M.modify a f) q ↔ Held M q := by
  cases q with
  | outside i => exact .rfl
  | member b i =>
    rw [Held, Held, Memory.length_modify, Memory.members_modify hk]
    rfl

theorem read_modify (hk : ∀ s, (f s).members = s.members) :
    (M.modify a f).read q = M.read q := by
  cases q with
  | outside i => rfl
  | member b i => rw [Memory.read, Memory.read, Memory.members_modify hk]

theorem length_members_write (p : Place) (b : Addr) :
    ((M.write p v).storage b).members.length = (M.storage b).members.length := by
  cases p with
  | outside i => rfl
  | member c i =>
    by_cases he : b = c
    · subst he
      by_cases inside : b < M.storages.length
      · rw [Memory.write, Memory.storage_modify_self inside, length_set]
      · simp [Memory.write, Memory.storage, Memory.modify, inside]
    · rw [Memory.write, Memory.storage_modify_ne he]

theorem held_write : Held (M.write p v) q ↔ Held M q := by
  cases q with
  | outside i => cases p <;> simp [Held, Memory.write, Memory.modify]
  | member b i =>
    rw [Held, Held, destroyed_write, (frame_write M p v).size, length_members_write]

theorem read_write (hh : Held M p) : (M.write p v).read p = v := by
  cases p with
  | outside i =>
    rw [Held] at hh
    simp [Memory.read, Memory.write, hh]
  | member b i =>
    simp [Memory.read, Memory.write, Memory.storage_modify_self hh.1, hh.2.2]

theorem read_write_ne (hn : q ≠ p) : (M.write p v).read q = M.read q := by
  have hf := frame_write M p v
  cases q with
  | outside i => rw [Memory.read, Memory.read, hf.outside i hn]
  | member b i =>
    rw [Memory.read, Memory.read, hf.members b (by rw [Memory.live_write]; exact id) i hn]

end

section

variable {kind : Kind} {M : Memory} {p q : Place}

theorem safe_iff_unharmed {N : Memory} (hg : N.destroyed = (kind.reset M p).destroyed)
    (hh : ∀ r, Held N r ↔ Held (kind.reset M p) r)
    (hr : Held (kind.reset M p) p → N.read p = (kind.reset M p).read q) :
    Safe M N p q ↔ Unharmed kind M p q := by
  constructor
  · intro hsf
    have ht := (hh p).mp hsf.target
    exact ⟨ht, (hh q).mp hsf.source, (hr ht).symm.trans hsf.refers, hg ▸ hsf.alive⟩
  · intro hs
    exact ⟨(hh p).mpr hs.target, (hh q).mpr hs.source,
      (hr hs.target).trans hs.refers, hg ▸ hs.alive⟩

def Alike (M N : Memory) : Prop :=
  N.destroyed = M.destroyed ∧ ∀ r, (Held N r ↔ Held M r) ∧ N.read r = M.read r

theorem alike_modify {a : Addr} {f : PtrStorage → PtrStorage}
    (hk : ∀ s, (f s).members = s.members) : Alike M (M.modify a f) :=
  ⟨rfl, fun _ => ⟨held_modify hk, read_modify hk⟩⟩

theorem alike_of_count (c : Option Addr → Memory) {v : Option Addr}
    (hc : ∀ a, Alike M (c (some a))) (hr : c none = M) : Alike M (c v) := by
  cases v with
  | none => exact ⟨congrArg _ hr, fun r => by rw [hr]; exact ⟨.rfl, rfl⟩⟩
  | some a => exact hc a

theorem safe_assign_iff (hn : p ≠ q) :
    Safe M (kind.assign M p q) p q ↔ Unharmed kind M p q := by
  have hc : Alike ((kind.reset M p).write p ((kind.reset M p).read q)) (kind.assign M p q) := by
    cases kind with
    | ptr =>
      rw [Kind.assign, Memory.assign, if_neg hn]
      exact alike_of_count (Memory.increment _) (fun a => alike_modify fun _ => rfl) rfl
    | rcPtr =>
      rw [Kind.assign, RcPtr.assign, if_neg hn]
      exact alike_of_count (RcPtr.increment _) (fun a => alike_modify fun _ => rfl) rfl
  refine safe_iff_unharmed (hc.1.trans destroyed_write) (fun r => ?_) fun hh => ?_
  · exact (hc.2 r).1.trans held_write
  · exact (hc.2 p).2.trans (read_write hh)

theorem safe_moveAssign_iff (hn : p ≠ q) :
    Safe M (kind.moveAssign M p q) p q ↔ Unharmed kind M p q := by
  have eq : kind.moveAssign M p q = ((kind.reset M p).write p ((kind.reset M p).read q)).write q
      ((kind.reset M p).read p) := by
    cases kind with
    | ptr => exact if_neg hn
    | rcPtr => exact if_neg hn
  rw [eq]
  refine safe_iff_unharmed ?_ (fun r => ?_) fun hh => ?_
  · rw [destroyed_write, destroyed_write]
  · rw [held_write, held_write]
  · rw [read_write_ne hn, read_write hh]

/-- What is left of `M` once `x` has ended. -/
structure Left (kind : Kind) (M : Memory) (x : Addr) (N : Memory) : Prop where
  frame : Frame (fun _ => False) M N
  destroyed : ∀ a, a ∈ N.destroyed ↔ a ∈ M.destroyed ∨ a ∈ M.live ∧ a ∉ N.live
  live : ∀ a, a ∈ N.live ↔ kind.Without M x a

variable {N Z : Memory} {x : Addr}

theorem Kind.keeping (kind : Kind) : Keeping kind.Keeps := by
  cases kind with
  | ptr => exact keeping_reached
  | rcPtr => exact keeping_supported

theorem Left.spares (hf : Left kind M x N) {a : Addr} (hl : a ∈ M.live) (hi : a ∉ M.destroyed) :
    a ∉ N.destroyed ↔ kind.Without M x a := by
  rw [hf.destroyed, ← hf.live]
  tauto

theorem Left.held (hf : Left kind M x N) (hl : objects M = M.live) {r : Place} (hh : Held M r) :
    Held N r ↔ Stands (kind.Without M x) r := by
  cases r with
  | outside i =>
    have hs := hf.frame.outside i id
    rw [getElem?_eq_getElem hh] at hs
    exact iff_of_true (List.getElem?_eq_some_iff.mp hs).1 trivial
  | member o i =>
    rw [Held, hf.spares (owner_live hl hh) hh.2.1, hf.frame.size, Stands]
    refine ⟨fun h => h.2.1, fun hk => ⟨hh.1, hk, ?_⟩⟩
    have hs := hf.frame.members o (fun _ => (hf.live o).mpr hk) i id
    rw [getElem?_eq_getElem hh.2.2] at hs
    exact (List.getElem?_eq_some_iff.mp hs).1

theorem Left.read (hf : Left kind M x N) {r : Place}
    (hs : Stands (kind.Without M x) r) : N.read r = M.read r := by
  cases r with
  | outside i => rw [Memory.read, hf.frame.outside i id, Memory.read]
  | member o i =>
    rw [Memory.read, hf.frame.members o (fun _ => (hf.live o).mpr hs) i id, Memory.read]

theorem left_of_loop {A : List Addr} (more : M.roots ⊆ x :: A) (fewer : A ⊆ M.roots)
    (rooted : Rooted kind.Keeps M M.roots) (hz : Recounted M Z x) (hg : Z.mainRefs x = 0)
    (hx : x ∈ M.live) (hr : Released kind.Keeps (fun q => ∃ j, q = .member x j)
      (M.targets x ++ A) A (Z.beginDestroy x) N) : Left kind M x N := by
  obtain ⟨new, log, -, hni⟩ := ended_destroyed hz hg hx hr
  refine ⟨(ended_frame hz hg hx hr).2, fun a => ?_, fun a => ?_⟩
  · rw [log, mem_append, hni]
  · rw [ended_live kind.keeping hz hg hx hr fun a hla =>
      kind.keeping.mono (rooted a hla) fun r hm _ => more hm]
    refine ⟨fun hk => kind.keeping.mono hk fun r hm _ => fewer hm, fun hk => ?_⟩
    exact kind.keeping.mono hk fun r hm hlr =>
      (mem_cons.mp (more hm)).resolve_left (mem_remove.mp hlr).1

theorem kept_without (graph : ObjectGraph M) (known : Stands (Reachable M) p) (hh : Held M p)
    (hp : M.read p = some x) (one : pointers M x = 1) (b : Addr) (hb : b ∈ M.live)
    (ht : x ∈ M.targets b) : (M.graph.remove x).Supported M.roots b := by
  rw [pointers_eq graph.objects_eq] at one
  rw [← Memory.succ_of_live hb] at ht
  obtain ⟨hn, only⟩ := only_reference one hb ht
  cases p with
  | outside i =>
    rw [Memory.read, Option.join_eq_some_iff] at hp
    exact absurd (mem_roots.mpr (mem_of_getElem? hp)) hn
  | member o i =>
    have ho := owner_live graph.objects_eq hh
    have eq : o = b := by
      refine only o ho ?_
      rw [Memory.read, Option.join_eq_some_iff] at hp
      rw [Memory.succ_of_live ho, mem_targets]
      exact mem_of_getElem? hp
    subst eq
    exact keeping_supported.without ((reachable_iff graph.anchored).mp known) one ht

theorem reset_cases (graph : ObjectGraph M) (known : kind.Known M p) (hh : Held M p)
    (hp : M.read p = some x) : ∃ N : Memory, kind.reset M p = N.write p none ∧
      (kind.Ends M x ∧ Left kind M x N ∨ ¬ kind.Ends M x ∧ Alike M N) := by
  have hx := Anchored.read_live graph.anchored graph.objects_eq hh hp
  have hc : pointers M x = (M.mainRefs x).toNat := by
    rw [pointers_eq graph.objects_eq, graph.counts x hx]
  cases kind with
  | ptr =>
    have rooted : Rooted Reached M M.roots := fun a hla =>
      (reachable_iff graph.anchored).mp (known a (graph.objects_eq ▸ hla))
    have hone : M.mainRefs x = 1 ↔ pointers M x = 1 := by
      rw [hc, ← UInt8.toNat_inj, UInt8.toNat_one]
    refine ⟨_, Memory.reset_eq hp hx, ?_⟩
    rw [Kind.Ends, ← graph.heldOnce_iff hx, ← hone]
    rcases graph.decrement_cases hx with ⟨ha, hw⟩ | ⟨one, hsv, hn⟩
    · obtain ⟨Z, hz, hg, hr⟩ := graph.loop hx ha
      exact .inl ⟨hw, left_of_loop (fun r => mem_cons_of_mem x) (Subset.refl _) rooted hz hg hx hr⟩
    · refine .inr ⟨?_, ?_⟩
      · rintro (hs | hs)
        · rw [hs] at hsv
          exact absurd hsv (by decide)
        · exact hn hs
      · rw [one, Memory.reclaim, if_neg (decrementRef_one hx hsv).1]
        exact alike_modify fun _ => rfl
  | rcPtr =>
    have hone : (RcPtr.decrement M x).mainRefs x = 0 ↔ pointers M x = 1 := by
      rw [hc, ← RcPtr.toNat_decrement hx, ← UInt8.toNat_inj, UInt8.toNat_zero]
      omega
    have run : RcPtr.reset M p = ((RcPtr.decrement M x).reclaim
        (RcPtr.resetWith M.storages.length) x).write p none := by
      rw [RcPtr.reset, RcPtr.resetWith, hp]
    refine ⟨_, run, ?_⟩
    rw [Kind.Ends, ← hone]
    by_cases hg : (RcPtr.decrement M x).mainRefs x = 0
    · refine .inl ⟨hg, left_of_loop (fun r hm => ?_) (filter_subset_self _)
        (RcPtr.rooted_of_counted graph.counts) RcPtr.recounted hg hx (RcPtr.ended graph.counts
          graph.anchored hx hg (kept_without graph known hh hp (hone.mp hg)))⟩
      by_cases same : r = x <;> simp [same, hm]
    · rw [Memory.reclaim, if_neg hg]
      exact .inr ⟨hg, alike_modify fun _ => rfl⟩

theorem unharmed_iff (graph : ObjectGraph M) (known : kind.Known M p) (hh : Held M p)
    (hq : Held M q) (hn : p ≠ q) : Unharmed kind M p q ↔ Spared kind M p q := by
  have hlq : ∀ y, M.read q = some y → y ∈ M.live := fun y =>
    Anchored.read_live graph.anchored graph.objects_eq hq
  have of_alike {N : Memory} (eq : kind.reset M p = N.write p none) (ha : Alike M N) :
      Unharmed kind M p q := by
    refine ⟨?_, ?_, ?_, fun y hy => ?_⟩ <;> rw [eq]
    · exact held_write.mpr ((ha.2 p).1.mpr hh)
    · exact held_write.mpr ((ha.2 q).1.mpr hq)
    · rw [read_write_ne hn.symm, (ha.2 q).2]
    · rw [destroyed_write, ha.1]
      exact graph.intact y (hlq y hy)
  cases hp : M.read p with
  | none =>
    refine iff_of_true (of_alike (N := M) ?_ ⟨rfl, fun _ => ⟨.rfl, rfl⟩⟩) fun x hx => ?_
    · rw [write_null hh hp]
      cases kind with
      | ptr => exact Release.resetWith_null hp
      | rcPtr => exact RcPtr.resetWith_null hp
    · rw [hp] at hx
      cases hx
  | some x =>
    have hsp : Spared kind M p q ↔ (kind.Ends M x → Kept (kind.Without M x) M p q) := by
      rw [Spared, hp]
      simp
    rw [hsp]
    obtain ⟨N, eq, ⟨ends, hf⟩ | ⟨not, ha⟩⟩ := reset_cases graph known hh hp
    · have hk : ∀ r, Held M r → (Held (kind.reset M p) r ↔ Stands (kind.Without M x) r) :=
        fun r hr => by rw [eq, held_write, hf.held graph.objects_eq hr]
      have hd : ∀ y, M.read q = some y →
          (y ∉ (kind.reset M p).destroyed ↔ kind.Without M x y) := fun y hy => by
        rw [eq, destroyed_write, hf.spares (hlq y hy) (graph.intact y (hlq y hy))]
      refine ⟨fun hu _ => ?_, fun hs => ?_⟩
      · exact ⟨(hk p hh).mp hu.target, (hk q hq).mp hu.source,
          fun y hy => (hd y hy).mp (hu.alive y hy)⟩
      · have hs := hs ends
        refine ⟨(hk p hh).mpr hs.target, (hk q hq).mpr hs.source, ?_,
          fun y hy => (hd y hy).mpr (hs.object y hy)⟩
        rw [eq, read_write_ne hn.symm, hf.read hs.source]
    · exact iff_of_true (of_alike eq ha) fun ends => absurd ends not

/-- An assignment to another pointer is safe exactly where the object it lets go of, if it ends,
is not needed to keep either pointer or the object of the source; one to itself does nothing. -/
theorem assignment_safe_iff (graph : ObjectGraph M) (known : kind.Known M p) (hp : Held M p)
    (hq : Held M q) :
    (p ≠ q → (Safe M (kind.assign M p q) p q ↔ Spared kind M p q) ∧
      (Safe M (kind.moveAssign M p q) p q ↔ Spared kind M p q)) ∧
    (p = q → kind.assign M p q = M ∧ kind.moveAssign M p q = M) := by
  refine ⟨fun hn => ?_, fun he => ?_⟩
  · rw [← unharmed_iff graph known hp hq hn]
    exact ⟨safe_assign_iff hn, safe_moveAssign_iff hn⟩
  · cases kind with
    | ptr | rcPtr => exact ⟨if_pos he, if_pos he⟩

/-- Two objects that point to each other, each held by an outside `Ptr`. -/
def ring : Memory := run step Memory.empty (cycle.take 4)

theorem ring_exact : Exact ring := by
  have exact : Always step Exact Memory.empty (cycle.take 4) :=
    always_exact (fun _ exact => exact) (admitted_of_bounded (by decide))
  exact exact.2.2.2.2

/-- In a ring nothing ends with one pointer: `p = p->next`, where `p` stands outside, and where
it is a member. -/
theorem assignment_safe_iff_ring :
    Safe ring (Kind.ptr.assign ring (.outside 0) (.member 0 0)) (.outside 0) (.member 0 0) ∧
      Safe ring (Kind.ptr.moveAssign ring (.member 1 0) (.member 0 0))
        (.member 1 0) (.member 0 0) ∧
      Safe ring (Kind.rcPtr.moveAssign ring (.outside 0) (.member 0 0))
        (.outside 0) (.member 0 0) := by
  have graph := objectGraph_of_exact ring_exact (by decide)
  have known (p : Place) : Kind.ptr.Known ring p := fun a hm =>
    (reachable_iff graph.anchored).mpr (ring_exact.rooted a (graph.objects_eq ▸ hm))
  have outer : Kind.rcPtr.Known ring (.outside 0) := trivial
  have lasts : ¬ Kind.ptr.Ends ring 0 := by
    rintro (single | ⟨-, others⟩)
    · exact absurd single (by decide)
    · have held := others 1 ((Leads.refl 0).tail (by decide)) ((Leads.refl 1).tail (by decide))
        (by decide)
      exact absurd (Nat.eq_zero_of_add_eq_zero_right held) (by decide)
  refine ⟨?_, ?_, ?_⟩
  · refine ((assignment_safe_iff graph (known _) (by decide) (by decide)).1 (by decide)).1.mpr ?_
    rintro _ ⟨⟩ ends
    exact absurd ends lasts
  · refine ((assignment_safe_iff graph (known _) (by decide) (by decide)).1 (by decide)).2.mpr ?_
    rintro _ ⟨⟩ ends
    exact absurd ends lasts
  · refine ((assignment_safe_iff graph outer (by decide) (by decide)).1 (by decide)).2.mpr ?_
    rintro _ ⟨⟩ (single : pointers ring 0 = 1)
    exact absurd single (by decide)

def twoNodes (weak : UInt8) : Memory := ⟨[⟨1, weak, [some 1]⟩, ⟨1, weak, [none]⟩], [some 0], [], []⟩

/-- `p = p->next`, where `p` alone holds the list. -/
theorem next_destroyed :
    ¬ Safe (twoNodes 1) (Kind.assign (twoNodes 1) (.outside 0) (.member 0 0) .ptr)
      (.outside 0) (.member 0 0) ∧
    ¬ Safe (twoNodes 1) (Kind.moveAssign (twoNodes 1) (.outside 0) (.member 0 0) .ptr)
      (.outside 0) (.member 0 0) ∧
    ¬ Safe (twoNodes 0) (Kind.assign (twoNodes 0) (.outside 0) (.member 0 0) .rcPtr)
      (.outside 0) (.member 0 0) ∧
    ¬ Safe (twoNodes 0) (Kind.moveAssign (twoNodes 0) (.outside 0) (.member 0 0) .rcPtr)
      (.outside 0) (.member 0 0) := by
  refine ⟨fun hs => hs.alive 1 rfl ?_, fun hs => hs.alive 1 rfl ?_,
    fun hs => hs.alive 1 rfl ?_, fun hs => hs.alive 1 rfl ?_⟩ <;> decide

end

end Ae.Ptr.Assignment
