/- source: ptr/{ptr.{h,cpp},ptr_view.h}
   digest: A Ptr held for the time of a call leaves no trace on what is otherwise held. -/

import Ae.Ptr.Lifetimes

set_option autoImplicit false

namespace Ae.Ptr.Temporaries
open List
open Lib.CountedGraph Lib.DepthFirst DecrementGraph Lifetimes PtrBase ReferenceTree
open Release
open Memory hiding modify

def hold (M : Memory) (v : Option Addr) : Memory :=
  { M with outside := M.outside ++ [v] }.increment v

def leaveScope (M : Memory) : Memory :=
  { M.reset (.outside (M.outside.length - 1)) with
    outside := (M.reset (.outside (M.outside.length - 1))).outside.dropLast }

section

variable {M : Memory} {b : Addr}

theorem copy_eq_hold (q : Place) : M.copy q = hold M (M.read q) := rfl

theorem outside_hold (v : Option Addr) : (hold M v).outside = M.outside ++ [v] := by
  cases v <;> rfl

theorem roots_hold : (hold M (some b)).roots = M.roots ++ [b] := by
  rw [roots, outside_hold]
  simp [roots]

theorem members_hold (v : Option Addr) (a : Addr) :
    ((hold M v).storage a).members = (M.storage a).members := by
  cases v with
  | none => rfl
  | some b => exact members_increment (M := { M with outside := M.outside ++ [some b] }) a

theorem mainRefs_hold_ne {a : Addr} (hn : a ≠ b) : (hold M (some b)).mainRefs a = M.mainRefs a :=
  mainRefs_increment_ne (M := { M with outside := M.outside ++ [some b] }) hn

section

variable (hc : Counted M M.roots) (hh : b ∈ M.live) (hr : (M.mainRefs b).toNat + 1 < 256)
include hh hr

theorem toNat_hold :
    ((hold M (some b)).mainRefs b).toNat = (M.mainRefs b).toNat + 1 :=
  toNat_increment (M := { M with outside := M.outside ++ [some b] }) (lt_of_live hh) hr

theorem graph_hold : (hold M (some b)).graph = M.graph := by
  have hs := live_increment (M := { M with outside := M.outside ++ [some b] }) hh hr
  refine graph_congr (fun a => ?_) fun a _ => ?_
  · have he := Finset.ext_iff.mp hs a
    rw [mem_live, mem_live] at he
    exact not_iff_not.mp he
  · rw [targets, members_hold, targets]

include hc

theorem counted_hold : Counted (hold M (some b)) (hold M (some b)).roots := by
  have he := graph_hold hh hr
  intro a hla
  have hb : a ∈ M.live := by
    have hle : (hold M (some b)).live = M.live := congrArg RefGraph.live he
    rwa [hle] at hla
  have ht := hc a hb
  rw [he, roots_hold, RefGraph.references, count_append, count_singleton]
  rw [RefGraph.references] at ht
  by_cases equal : a = b
  · subst equal
    rw [toNat_hold hh hr, ht]
    simp
    omega
  · rw [mainRefs_hold_ne equal, ht]
    simp [Ne.symm equal]

theorem decrement_hold (hs : Indexable M b) (hhl : M.graph.Reached M.roots b) :
    (hold M (some b)).decrement b = { M with outside := M.outside ++ [some b] } := by
  classical
  have he := graph_hold hh hr
  have hi := lt_of_live hh
  have hlh : b ∈ (hold M (some b)).live := by
    rw [show (hold M (some b)).live = M.live from congrArg RefGraph.live he]
    exact hh
  have hca : Counted (hold M (some b)) (b :: M.roots) := by
    refine Counted.perm (counted_hold hc hh hr) ?_
    rw [roots_hold]
    exact perm_append_singleton b M.roots
  have hrg : ∀ n, n ∈ M.live.filter (Leads M.graph.next b) ↔
      Leads (hold M (some b)).graph.next b n := by
    intro n
    rw [he, Finset.mem_filter]
    exact ⟨And.right, fun hp => ⟨RefGraph.leads_live hp hh, hp⟩⟩
  have hsh : Indexable (hold M (some b)) b := by
    rw [Indexable, he]
    exact hs
  rcases decrement_cases hca hlh hsh hrg with ⟨-, ha⟩ | ⟨ho, -⟩
  · obtain ⟨v, hm, hbc, hb⟩ := hhl.enters (R := M.live.filter (Leads M.graph.next b))
      (Finset.mem_filter.mpr ⟨hh, Leads.refl b⟩)
    rw [he] at ha
    exact absurd (ha v hm hbc) hb
  · rw [ho]
    have hu : (M.storages.modify b fun s =>
          { s with mainRefs := s.mainRefs + 1, weakRefs := s.weakRefs + 1 }).modify b
        (fun s => { s with mainRefs := s.mainRefs - 1, weakRefs := s.weakRefs - 1 }) =
        M.storages := by
      rw [modify_modify_eq]
      refine Eq.trans (congrArg _ (funext fun s => ?_)) (modify_id b M.storages)
      simp
    rw [decrementRef, hold, increment, Memory.modify, Memory.modify]
    simp only [hu]

theorem leaveScope_hold (hs : Indexable M b) (hhl : M.graph.Reached M.roots b) :
    leaveScope (hold M (some b)) = M := by
  have ho := decrement_hold hc hh hr hs hhl
  have hl : (hold M (some b)).outside.length - 1 = M.outside.length := by
    rw [outside_hold, length_append]
    rfl
  have hp : (hold M (some b)).read (.outside M.outside.length) = some b := by
    rw [Memory.read, outside_hold]
    simp
  have hcb : (hold M (some b)).mainRefs b ≠ 0 := by
    have hm := toNat_hold hh hr
    intro hz
    rw [hz] at hm
    simp at hm
  have hsc : mainRefs { M with outside := M.outside ++ [some b] } b ≠ 0 :=
    mem_live.mp hh
  have hd : (hold M (some b)).reset (.outside M.outside.length) =
      { M with outside := M.outside ++ [none] } := by
    rw [reset, resetWith, hp]
    simp only [hcb, if_false, ho]
    rw [reclaim, if_neg hsc]
    simp [write]
  rw [leaveScope, hl, hd]
  simp

end

theorem leaveScope_null {o : List (Option Addr)} :
    leaveScope { M with outside := o ++ [none] } = { M with outside := o } := by
  have hn : Memory.read { M with outside := o ++ [none] } (.outside o.length) = none := by
    simp [Memory.read]
  rw [leaveScope, length_append, length_singleton, Nat.add_sub_cancel, Memory.reset,
    resetWith_null hn]
  simp

theorem leaveScope_moveAssign {a : Addr} {i : Nat} {o : List (Option Addr)} {v : Option Addr}
    (hl : M.outside = o ++ [v]) (hn : M.read (.member a i) = none) :
    leaveScope (M.moveAssign (.member a i) (.outside o.length)) =
      { M.write (.member a i) v with outside := o } := by
  have he : M.reset (.member a i) = M := resetWith_null hn
  have hs : M.read (.outside o.length) = v := by
    rw [Memory.read, hl]
    simp
  have hm : M.moveAssign (.member a i) (.outside o.length) =
      { M.write (.member a i) v with outside := o ++ [none] } := by
    rw [moveAssign, if_neg (by simp)]
    simp only [he, hs, hn]
    simp [write, Memory.modify, hl]
  rw [hm, leaveScope_null]

end

end Ae.Ptr.Temporaries
