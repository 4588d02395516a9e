/- source: ptr/ref_tree.{h,cpp}
   digest: The tree of counted references, its traversals, and what they visit. -/

import Mathlib.Data.UInt
import Ae.Lib.DepthFirst

set_option autoImplicit false

namespace Ae.Ptr.ReferenceTree
open List Lib.DepthFirst

/-- The address of a `PtrStorage`; storages are numbered in the order of their creation. -/
abbrev Addr := Nat

abbrev Index := UInt8

structure Value where
  pointer : Addr
  refCount : UInt8
  reachableRefCount : UInt8
deriving DecidableEq, Repr

structure Node where
  value : Value
  index : Index
  childrenIndices : List Index
deriving DecidableEq, Repr

structure RefTree where
  nodes : List Node
deriving DecidableEq, Repr

namespace RefTree

variable (t : RefTree)

/-- The node for a pointer, made where there is none, with its position in `nodes_`. The
index a node carries is its position cut to the type of indices. -/
def emplace (pointer : Addr) (refCount : UInt8) : RefTree × Nat :=
  match t.nodes.findIdx? fun n => n.value.pointer == pointer with
  | some position => (t, position)
  | none =>
    (⟨t.nodes ++ [⟨⟨pointer, refCount, 0⟩, UInt8.ofNat t.nodes.length, []⟩]⟩, t.nodes.length)

def modify (position : Nat) (f : Node → Node) : RefTree :=
  ⟨t.nodes.modify position f⟩

def get (index : Index) : Option Node := t.nodes[index.toNat]?

/-- One child of the loop of `IsReachable`: `res` short-circuits the call. -/
def reachChild (isReachable : Node → Finset Index → Bool × Finset Index) (r : Bool × Finset Index)
    (child : Index) : Bool × Finset Index :=
  if child ∈ r.2 ∨ r.1 = true then r
  else
    match t.get child with
    | none => r
    | some node => isReachable node r.2

/-- `Node::IsReachable` with the visited set it leaves; `fuel` bounds the depth. -/
def isReachable (t : RefTree) (i : Index) : Nat → Node → Finset Index → Bool × Finset Index
  | 0, _, visited => (false, visited)
  | fuel + 1, node, visited =>
    if node.index = i then (true, insert node.index visited)
    else
      node.childrenIndices.foldl (t.reachChild (isReachable t i fuel))
        (false, insert node.index visited)

variable {σ : Type}

def callEach (t : RefTree) (func : Node → σ → Bool × σ) : List Index → σ → σ
  | [], s => s
  | child :: rest, s =>
    match t.get child with
    | none => s
    | some node =>
      if (func node s).1 then callEach t func rest (func node s).2 else (func node s).2

/-- One child of the second loop of `Node::ForEach`; a false first component is its `return`. -/
def forEachChild (forEach : Node → Finset Index × σ → Bool × Finset Index × σ)
    (r : Bool × Finset Index × σ) (child : Index) : Bool × Finset Index × σ :=
  if r.1 = false ∨ child ∈ r.2.1 then r
  else
    match t.get child with
    | none => r
    | some node => forEach node r.2

/-- `Node::ForEach` with the visited set and the state of the function it leaves. -/
def forEach (t : RefTree) (func : Node → σ → Bool × σ) :
    Nat → Node → Finset Index × σ → Bool × Finset Index × σ
  | 0, _, r => (true, r)
  | fuel + 1, node, (visited, s) =>
    node.childrenIndices.foldl (t.forEachChild (forEach t func fuel))
      (true, insert node.index visited, callEach t func node.childrenIndices s)

end RefTree

open RefTree

def refuse (bad : Node → Prop) [DecidablePred bad] (node : Node) (safe : Bool) : Bool × Bool :=
  if bad node then (false, false) else (true, safe)

/-- The tree draws a graph: each of its nodes stands under its own index and carries the
indices of its successors. -/
structure Draws (t : RefTree) (domain : Finset Addr) (next : Addr → List Addr)
    (index : Addr → Index) (node : Addr → Node) : Prop where
  inside : ∀ a ∈ domain, ∀ b ∈ next a, b ∈ domain
  distinct : ∀ a ∈ domain, ∀ b ∈ domain, index a = index b → a = b
  stands : ∀ a ∈ domain, t.get (index a) = some (node a)
  named : ∀ a ∈ domain, (node a).index = index a
  children : ∀ a ∈ domain, (node a).childrenIndices = (next a).map index

namespace Draws

variable {t : RefTree} {domain : Finset Addr} {next : Addr → List Addr} {index : Addr → Index}
  {node : Addr → Node}

def marks (index : Addr → Index) (seen : List Addr) : Finset Index := (seen.map index).toFinset

theorem marks_append (s : List Addr) (a : Addr) :
    marks index (s ++ [a]) = insert (index a) (marks index s) := by
  ext i
  simp [marks, eq_comm]

theorem mem_marks (hd : Draws t domain next index node) {seen : List Addr} {a : Addr}
    (hk : ∀ n ∈ seen, n ∈ domain) (hh : a ∈ domain) : index a ∈ marks index seen ↔ a ∈ seen := by
  simp only [marks, mem_toFinset, mem_map]
  constructor
  · rintro ⟨b, hm, he⟩
    exact hd.distinct b (hk b hm) a hh he ▸ hm
  · exact fun hm => ⟨a, hm, rfl⟩

theorem reachChild_true {vi : Node → Finset Index → Bool × Finset Index}
    (c : List Index) (v : Finset Index) :
    c.foldl (t.reachChild vi) (true, v) = (true, v) := by
  induction c with
  | nil => rfl
  | cons ch rest ih => simpa [reachChild] using ih

def Finds (t : RefTree) (domain : Finset Addr) (index : Addr → Index) (x : Addr) (fuel : Nat)
    (starts seen found : List Addr) : Prop :=
  (∀ n ∈ found, n ∈ domain) → x ∉ seen →
    let r := (starts.map index).foldl (t.reachChild (t.isReachable (index x) fuel))
      (false, marks index seen)
    (x ∈ found → r.1 = true) ∧ (x ∉ found → r = (false, marks index found))

section

variable (hd : Draws t domain next index node)
include hd

variable {x b : Addr} {fuel : Nat}

theorem finds_skip {ss seen found : List Addr} (hh : b ∈ domain) (hk : b ∈ seen)
    (hg : seen <+: found) (hr : Finds t domain index x fuel ss seen found) :
    Finds t domain index x fuel (b :: ss) seen found := by
  intro hi hf
  have hm : index b ∈ marks index seen :=
    (hd.mem_marks (fun n mem => hi n (hg.subset mem)) hh).mpr hk
  simpa [reachChild, hm] using hr hi hf

theorem isReachable_node (fuel : Nat) (s : List Addr) (ht : x ∈ domain) (hh : b ∈ domain) :
    t.isReachable (index x) (fuel + 1) (node b) (marks index s) =
      if b = x then (true, marks index (s ++ [b]))
      else ((next b).map index).foldl (t.reachChild (t.isReachable (index x) fuel))
        (false, marks index (s ++ [b])) := by
  have hsi : index b = index x ↔ b = x :=
    ⟨hd.distinct b hh x ht, fun he => congrArg index he⟩
  rw [isReachable, hd.named b hh, hd.children b hh, marks_append]
  simp only [hsi]

theorem finds_descend {ss seen m found : List Addr} (ht : x ∈ domain) (hh : b ∈ domain)
    (hun : b ∉ seen) (hdp : seen ++ [b] <+: m) (hg : m <+: found)
    (hb : Finds t domain index x fuel (next b) (seen ++ [b]) m)
    (hr : Finds t domain index x (fuel + 1) ss m found) :
    Finds t domain index x (fuel + 1) (b :: ss) seen found := by
  intro hi hf
  have him : ∀ n ∈ m, n ∈ domain := fun n mem => hi n (hg.subset mem)
  have hu : index b ∉ marks index seen := by
    rw [hd.mem_marks (fun n mem => him n (hdp.subset (by simp [mem]))) hh]
    exact hun
  have h1 : t.reachChild (t.isReachable (index x) (fuel + 1)) (false, marks index seen)
      (index b) = t.isReachable (index x) (fuel + 1) (node b) (marks index seen) := by
    simp [reachChild, hu, hd.stands b hh]
  simp only [map_cons, foldl_cons, h1, hd.isReachable_node fuel seen ht hh]
  by_cases he : b = x
  · have hm : x ∈ found := hg.subset (hdp.subset (by simp [he]))
    simp [he, hm, reachChild_true]
  · obtain ⟨hst, hgs⟩ := hb him (by simp [hf, Ne.symm he])
    simp only [he, if_false]
    by_cases met : x ∈ m
    · have hm : x ∈ found := hg.subset met
      have hs := hst met
      generalize ((next b).map index).foldl _ _ = r at hs
      obtain ⟨res, v⟩ := r
      simp only at hs
      subst hs
      simp [hm, reachChild_true]
    · rw [hgs met]
      exact hr hi met

theorem isReachable_iff {a : Addr} (hh : a ∈ domain) (ht : x ∈ domain) (hen : domain.card ≤ fuel) :
    (t.isReachable (index x) (fuel + 1) (node a) ∅).1 = true ↔ Leads next a x := by
  have hs := hd.isReachable_node fuel [] ht hh
  rw [show marks index [] = ∅ from rfl] at hs
  rw [hs]
  by_cases he : a = x
  · simp [he, Leads.refl]
  · have hl : (domain.filter fun n => n ∉ [a]).card ≤ fuel :=
      le_trans (Finset.card_filter_le _ _) hen
    have hdn := search_searched hd.inside (hd.inside a hh) hl
    have hfn := search_induct (P := Finds t domain index x) hd.inside
      (fun _ _ _ hf => by simp [hf])
      (fun _ _ _ _ _ => hd.finds_skip) (fun _ _ _ _ _ _ => hd.finds_descend ht)
      (hd.inside a hh) hl
    have hi : ∀ n ∈ search next (fuel + 1) (next a) [a], n ∈ domain := fun n hm =>
      (hdn.mem_iff.mp hm).stays hd.inside hh
    obtain ⟨hst, hg⟩ := hfn hi (by simp [Ne.symm he])
    simp only [he, if_false, nil_append]
    rw [← hdn.mem_iff]
    constructor
    · intro ha
      by_contra missed
      rw [hg missed] at ha
      exact Bool.false_ne_true ha
    · exact hst

end

section

variable (bad : Node → Prop) [DecidablePred bad]

theorem callEach_refuse (hd : Draws t domain next index node) {ch : List Addr}
    (hi : ∀ c ∈ ch, c ∈ domain) (s : Bool) :
    t.callEach (refuse bad) (ch.map index) s = true ↔ s = true ∧ ∀ c ∈ ch, ¬ bad (node c) := by
  induction ch with
  | nil => simp [callEach]
  | cons c rest ih =>
    have hl := ih fun b hm => hi b (mem_cons_of_mem c hm)
    rw [map_cons, callEach, hd.stands c (hi c mem_cons_self)]
    by_cases broken : bad (node c)
    · simp [refuse, broken]
    · simp [refuse, broken, hl]

/-- What the second loop of `ForEach` does: it never returns early, it marks all that is
found, and its flag stays up as long as no refused node is met. -/
def Checks (t : RefTree) (domain : Finset Addr) (next : Addr → List Addr) (index : Addr → Index)
    (node : Addr → Node) (fuel : Nat) (starts seen found : List Addr) : Prop :=
  (∀ n ∈ found, n ∈ domain) → ∀ s, ∃ safe,
    (starts.map index).foldl (t.forEachChild (t.forEach (refuse bad) fuel))
      (true, marks index seen, s) = (true, marks index found, safe) ∧
    (safe = true ↔ s = true ∧ ∀ n ∈ found, n ∉ seen → ∀ c ∈ next n, ¬ bad (node c))

variable {bad}

theorem checks_nil (fuel : Nat) (seen : List Addr) :
    Checks bad t domain next index node fuel [] seen seen := by
  intro _ s
  refine ⟨s, rfl, ?_⟩
  constructor
  · exact fun up => ⟨up, fun n hm hf => absurd hm hf⟩
  · exact fun up => up.1

variable (hd : Draws t domain next index node)
include hd

variable {fuel : Nat}

theorem checks_skip {b : Addr} {ss seen found : List Addr} (hh : b ∈ domain) (hk : b ∈ seen)
    (hg : seen <+: found) (hr : Checks bad t domain next index node fuel ss seen found) :
    Checks bad t domain next index node fuel (b :: ss) seen found := by
  intro hi s
  have hm : index b ∈ marks index seen :=
    (hd.mem_marks (fun n mem => hi n (hg.subset mem)) hh).mpr hk
  simpa [forEachChild, hm] using hr hi s

theorem checks_descend {b : Addr} {ss seen m found : List Addr} (hh : b ∈ domain) (hu : b ∉ seen)
    (hdp : seen ++ [b] <+: m) (hg : m <+: found)
    (hb : Checks bad t domain next index node fuel (next b) (seen ++ [b]) m)
    (hr : Checks bad t domain next index node (fuel + 1) ss m found) :
    Checks bad t domain next index node (fuel + 1) (b :: ss) seen found := by
  intro hi s
  have him : ∀ n ∈ m, n ∈ domain := fun n hm => hi n (hg.subset hm)
  have hun : index b ∉ marks index seen := by
    rw [hd.mem_marks (fun n hm => him n (hdp.subset (by simp [hm]))) hh]
    exact hu
  have h1 : t.forEachChild (t.forEach (refuse bad) (fuel + 1)) (true, marks index seen, s)
      (index b) = t.forEach (refuse bad) (fuel + 1) (node b) (marks index seen, s) := by
    simp [forEachChild, hun, hd.stands b hh]
  have hc := hd.callEach_refuse bad (hd.inside b hh) s
  obtain ⟨mi, hmr, hmi⟩ :=
    hb him (t.callEach (refuse bad) ((next b).map index) s)
  obtain ⟨sa, run, hsi⟩ := hr hi mi
  refine ⟨sa, ?_, ?_⟩
  · rw [map_cons, foldl_cons, h1, forEach, hd.named b hh,
      hd.children b hh, ← marks_append, hmr, run]
  · rw [hsi, hmi, hc]
    constructor
    · rintro ⟨⟨⟨up, own⟩, her⟩, hl⟩
      refine ⟨up, fun n hm hf => ?_⟩
      by_cases met : n ∈ m
      · by_cases he : n = b
        · exact he ▸ own
        · exact her n met (by simp [hf, he])
      · exact hl n hm met
    · rintro ⟨up, ha⟩
      refine ⟨⟨⟨up, ha b (hg.subset (hdp.subset (by simp))) hu⟩, ?_⟩, ?_⟩
      · intro n met hf
        exact ha n (hg.subset met) fun ho => hf (mem_append_left _ ho)
      · intro n hm hl
        exact ha n hm fun ho => hl (hdp.subset (mem_append_left _ ho))

theorem forEach_iff {a : Addr} (hh : a ∈ domain) (hen : domain.card ≤ fuel) :
    (t.forEach (refuse bad) (fuel + 1) (node a) (∅, true)).2.2 = true ↔
      ∀ n, Leads next a n → ∀ c ∈ next n, ¬ bad (node c) := by
  have hl : (domain.filter fun n => n ∉ [a]).card ≤ fuel :=
    le_trans (Finset.card_filter_le _ _) hen
  have hdn := search_searched hd.inside (hd.inside a hh) hl
  have hc := search_induct (P := Checks bad t domain next index node) hd.inside
    checks_nil (fun _ _ _ _ _ => hd.checks_skip) (fun _ _ _ _ _ _ => hd.checks_descend)
    (hd.inside a hh) hl
  have hi : ∀ n ∈ search next (fuel + 1) (next a) [a], n ∈ domain := fun n hm =>
    (hdn.mem_iff.mp hm).stays hd.inside hh
  obtain ⟨s, hr, hsi⟩ := hc hi (t.callEach (refuse bad) ((next a).map index) true)
  have h1 : insert (index a) ∅ = marks index [a] := rfl
  rw [forEach, hd.named a hh, hd.children a hh, h1, hr, hsi,
    hd.callEach_refuse bad (hd.inside a hh)]
  constructor
  · rintro ⟨⟨-, ho⟩, ha⟩ n hp
    by_cases he : n = a
    · exact he ▸ ho
    · exact ha n (hdn.mem_iff.mpr hp) (by simp [he])
  · intro ha
    refine ⟨⟨rfl, ha a (Leads.refl a)⟩, fun n hm _ => ha n (hdn.mem_iff.mp hm)⟩

end

end Draws

end Ae.Ptr.ReferenceTree
