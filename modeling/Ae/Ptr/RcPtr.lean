/- source: ptr/rc_ptr.h
   digest: An RcPtr that is reset ends what the remaining references do not support. -/

import Ae.Ptr.Release

set_option autoImplicit false

namespace Ae.Ptr.RcPtr
open List Lib.CountedGraph PtrBase ReferenceTree Release RefGraph Memory

variable (M : Memory)

/-- `Decrement`: without the trial deletion of a `Ptr`. -/
def decrement (a : Addr) : Memory :=
  M.modify a fun s => { s with mainRefs := s.mainRefs - 1 }

def increment : Option Addr → Memory
  | none => M
  | some a => M.modify a fun s => { s with mainRefs := s.mainRefs + 1 }

/-- `Reset`: there is no check for an object whose destructor already runs. -/
def resetWith : Nat → Place → Memory → Memory
  | 0, _, M => M
  | fuel + 1, p, M =>
    match M.read p with
    | none => M
    | some a => ((decrement M a).reclaim (resetWith fuel) a).write p none

def reset (p : Place) : Memory := resetWith (M.storages.length + 1) p M

def assign (p q : Place) : Memory :=
  if p = q then M
  else
    let dropped := reset M p
    increment (dropped.write p (dropped.read q)) (dropped.read q)

def moveAssign (p q : Place) : Memory :=
  if p = q then M
  else
    let dropped := reset M p
    (dropped.write p (dropped.read q)).write q (dropped.read p)

section

variable {A : List Addr} {M : Memory} {x : Addr}

theorem mainRefs_decrement (hh : x ∈ M.live) : (decrement M x).mainRefs x = M.mainRefs x - 1 := by
  rw [mainRefs, decrement, storage_modify_self (lt_of_live hh), mainRefs]

theorem toNat_decrement (hh : x ∈ M.live) :
    ((decrement M x).mainRefs x).toNat + 1 = (M.mainRefs x).toNat := by
  have hp : M.mainRefs x ≠ 0 := mem_live.mp hh
  have hn : (M.mainRefs x).toNat ≠ 0 := fun hz => hp (UInt8.toNat_inj.mp hz)
  have hl : (1 : UInt8) ≤ M.mainRefs x := by
    rw [UInt8.le_iff_toNat_le, UInt8.toNat_one]
    omega
  rw [mainRefs_decrement hh, UInt8.toNat_sub_of_le _ _ hl, UInt8.toNat_one]
  omega

theorem recounted : Recounted M (decrement M x) x := recounted_modify fun _ => rfl

theorem rooted_of_counted (hc : Counted M A) : Rooted Supported M A := fun _ =>
  supported_of_references fun b hb hz => by
    rw [← hc b hb] at hz
    exact mem_live.mp hb (UInt8.toNat_inj.mp hz)

theorem resetWith_null {fuel : Nat} {p : Place} (hn : M.read p = none) :
    resetWith fuel p M = M := by
  cases fuel with
  | zero => rfl
  | succ fuel => rw [resetWith, hn]

/-- Counts are exact, and no reference leads to an ended object but for those to `d` in objects
that `R` supports. -/
structure Firm (d : Addr) (R : List Addr) (M : Memory) (A : List Addr) : Prop where
  counted : Counted M A
  anchored : Anchored M A [d]
  apart : d ∉ A
  stays : ∀ b ∈ M.live, d ∈ M.targets b → M.graph.Supported R b

variable {d : Addr} {R : List Addr}

section

variable {fuel : Nat} (hrs : Resets Supported (Firm d R) R (resetWith fuel) fuel) (hb : R ⊆ A)
  (hh : x ∈ M.live) (firm : Firm d R M (x :: A)) (he : M.live.card ≤ fuel)
include hrs hb hh firm he

theorem loop (hg : (decrement M x).mainRefs x = 0) : M.graph.references A x = 0 ∧
    Released Supported (fun q => ∃ j, q = .member x j) (M.targets x ++ A) A
      ((decrement M x).beginDestroy x) ((decrement M x).reclaim (resetWith fuel) x) := by
  have hz := recounted (M := M) (x := x)
  have hnr : M.graph.references A x = 0 := by
    have hl := toNat_decrement hh
    rw [hg, UInt8.toNat_zero, firm.counted x hh, references_cons, if_pos rfl] at hl
    omega
  have hco : ∀ a ∈ M.live, a ≠ x → (M.mainRefs a).toNat = M.graph.references A a := by
    intro a hla hn
    rw [firm.counted a hla, references_cons, if_neg hn, zero_add]
  have hm : ∀ b ∈ M.live, x ∉ M.targets b := fun b hb ht => by
    rw [← succ_of_live hb] at ht
    exact references_of_mem (.inr ⟨b, hb, ht⟩) hnr
  have hu : ¬ M.graph.Supported R x := fun hs =>
    (keeping_supported.mono hs fun r hr _ => hb hr).references hnr
  refine ⟨hnr, reclaim_loop keeping_supported hrs hb hz hg hh hco
    ⟨doomed_counted hz hg hh hco, ?_, fun ht => ?_, fun b hlb ht => ?_⟩ he⟩
  · refine (doomed_anchored hz hg hh firm.anchored).settle (fun ht => ?_) fun b hlb ht => ?_
    · exact (mem_append.mp ht).elim (hm x hh) fun hr => references_of_mem (.inl hr) hnr
    · rw [targets, doomed_members hz] at ht
      exact hm b ((mem_doomed_live hz hg).mp hlb).2 ht
  · exact (mem_append.mp ht).elim (fun hr => hu (firm.stays x hh hr))
      fun hr => firm.apart (mem_cons_of_mem x hr)
  · rw [targets, doomed_members hz] at ht
    rw [doomed_graph hz hg]
    exact keeping_supported.remove_of_not
      (firm.stays b ((mem_doomed_live hz hg).mp hlb).2 ht) hu

theorem reclaim_released : Released Supported (fun _ => False) (x :: A) A M
      ((decrement M x).reclaim (resetWith fuel) x) := by
  have hz := recounted (M := M) (x := x)
  by_cases hg : (decrement M x).mainRefs x = 0
  · obtain ⟨hnr, hr⟩ := loop hrs hb hh firm he hg
    exact Released.killed keeping_supported hz hg hh hr fun hs => hs.references hnr
  · rw [reclaim, if_neg hg]
    refine Released.one keeping_supported hz firm.counted hh hg (toNat_decrement hh) fun _ => ?_
    refine supported_of_references (fun b hb hnr => ?_) hh
    have hcb := firm.counted b hb
    rw [references_cons, hnr] at hcb
    by_cases same : b = x
    · subst same
      have hl := toNat_decrement hh
      rw [if_pos rfl] at hcb
      exact hg (UInt8.toNat_inj.mp (show _ = 0 by omega))
    · rw [if_neg same] at hcb
      exact mem_live.mp hb (UInt8.toNat_inj.mp hcb)

end

theorem Firm.released {P : Place → Prop} {B : List Addr} {N : Memory}
    (hr : Released Supported P A B M N) (hd : Detached P M) (hb : R ⊆ B) (hs : B ⊆ A)
    (hf : Firm d R M A) : Firm d R N B where
  counted := hr.counted
  anchored := hr.anchored [d] (rooted_of_counted hf.counted) hf.anchored
  apart hm := hf.apart (hs hm)
  stays b hlb ht := by
    have hl := hr.frame.fewer hlb
    rw [← succ_of_live hlb, hr.frame.succ hd hlb, succ_of_live hl] at ht
    exact hr.keeps keeping_supported hd hb (hf.stays b hl ht)

theorem resets (fuel : Nat) : Resets Supported (Firm d R) R (resetWith fuel) fuel := by
  refine ⟨resetWith_null, Firm.released, ?_⟩
  induction fuel with
  | zero => exact fun _ _ _ _ _ _ _ _ _ he => absurd he (Nat.not_lt_zero _)
  | succ fuel ih =>
    intro M p y A hhl hdt hb hc hf he
    rw [resetWith, hhl]
    have hy : y ≠ d := fun eq => hf.apart (eq ▸ mem_cons_self)
    have hd := reclaim_released ⟨resetWith_null, Firm.released, ih⟩ hb
      ((hf.anchored.roots y mem_cons_self).resolve_right (by simpa using hy)) hf
      (Nat.le_of_lt_succ he)
    exact hd.followed keeping_supported
      (Released.write keeping_supported hd.counted (hd.frame.detached hdt) none)

/-- The end of an object whose only pointer, if a member, stands in an object that is kept
without it. -/
theorem ended (hc : Counted M M.roots) (ha : Anchored M M.roots []) (hh : x ∈ M.live)
    (hg : (decrement M x).mainRefs x = 0)
    (kept : ∀ b ∈ M.live, x ∈ M.targets b → (M.graph.remove x).Supported M.roots b) :
    Released Supported (fun q => ∃ j, q = .member x j) (M.targets x ++ M.roots.filter (· ≠ x))
      (M.roots.filter (· ≠ x)) ((decrement M x).beginDestroy x)
      ((decrement M x).reclaim (resetWith M.storages.length) x) := by
  have hz := recounted (M := M) (x := x)
  have hco : ∀ a ∈ M.live, a ≠ x →
      (M.mainRefs a).toNat = M.graph.references (M.roots.filter (· ≠ x)) a := fun a hla hn => by
    rw [hc a hla, references, references, count_filter (by simpa using hn)]
  refine reclaim_loop keeping_supported (resets (d := x) _) (Subset.refl _) hz hg hh hco
    ⟨doomed_counted hz hg hh hco, ?_, fun ht => ?_, fun b hlb ht => ?_⟩ card_live_le
  · refine doomed_anchored hz hg hh ⟨fun r hr => ?_, ha.members⟩
    rcases mem_cons.mp hr with rfl | hr
    · exact .inl hh
    · exact ha.roots r (mem_of_mem_filter hr)
  · rcases mem_append.mp ht with hr | hr
    · exact (mem_remove.mp (keeping_supported.live (kept x hh hr))).1 rfl
    · simp at hr
  · rw [targets, doomed_members hz] at ht
    rw [doomed_graph hz hg]
    refine keeping_supported.mono (kept b ((mem_doomed_live hz hg).mp hlb).2 ht) fun r hr hl => ?_
    simpa [hr] using (mem_remove.mp hl).1

end

end Ae.Ptr.RcPtr
