/- source: obj/{registry.{h,cpp},domain.cpp}
   digest: The class created for an object, from any registry whose relations form a forest. -/

import Ae.Obj.Registrar
import Mathlib.Order.WellFounded

set_option autoImplicit false

namespace Ae.Obj.ClassSelection
open List DomainStorage.Storage Registrar
open Registrar.Registry (distanceAmong distanceAmong_cases getLast_insertionSort)

variable {F : Type}

/-- `Registry`, with factories of any kind and bases that need not be registered. A class that is
listed under a base is registered, and no list is empty. -/
structure Classes (F : Type) where
  factories : StdMap ClassId F
  relations : Relations
  registered : ∀ b, ∀ c ∈ (relations.lookup b).getD [], c ∈ factories
  inhabited : ∀ b, relations.lookup b ≠ some []

namespace Classes

def empty : Classes F := ⟨∅, ∅, by simp, by simp⟩

def registerClass (objClass : ClassId) (r : Classes F) (c base : ClassId) (f : F) : Classes F where
  factories := if c ∈ r.factories then r.factories else r.factories.insert c f
  relations := relate objClass r.relations base c
  registered b d mem := by
    rcases mem_relate.mp mem with old | ⟨rfl, -⟩
    · have there := r.registered b d old
      split
      · exact there
      · exact (AList.mem_insert _).mpr (.inr there)
    · split
      · assumption
      · exact (AList.mem_insert _).mpr (.inl rfl)
  inhabited b := by
    rw [relate]
    split
    · exact r.inhabited b
    · by_cases same : b = base
      · rw [same, AList.lookup_insert]
        simp
      · rw [AList.lookup_insert_ne same]
        exact r.inhabited b

variable (r : Classes F)

def below (b : ClassId) : List ClassId := (r.relations.lookup b).getD []

def isExisting (c : ClassId) : Bool := c ∈ r.factories

def isLast (c : ClassId) : Bool := (r.relations.lookup c).isNone

def generationDistanceInternal : Nat → ClassId → ClassId → Int
  | 0, _, _ => -1
  | fuel + 1, baseId, derivedId =>
    match r.relations.lookup baseId with
    | none => -1
    | some classes =>
      distanceAmong (fun c => generationDistanceInternal fuel c derivedId) derivedId classes

def generationDistance (fuel : Nat) (baseId derivedId : ClassId) : Int :=
  if ¬ r.isExisting baseId ∨ ¬ r.isExisting derivedId then -1
  else if baseId = derivedId then 0
  else r.generationDistanceInternal fuel baseId derivedId

def Before (fuel : Nat) (left right : ClassId) : Prop :=
  ¬ 0 < r.generationDistance fuel right left ∧ 0 ≤ r.generationDistance fuel left right

instance (fuel : Nat) : DecidableRel (r.Before fuel) := fun _ _ => instDecidableAnd

def getMostRelatedFactory (fuel : Nat) (classes : List ClassId) : Option F :=
  match ((classes.filter r.isExisting).insertionSort (r.Before fuel)).getLast? with
  | none => none
  | some back =>
    (r.factories.entries.find? fun f =>
      r.isLast f.1 && decide (0 ≤ r.generationDistance fuel back f.1)).map Sigma.snd

def Path : Nat → ClassId → ClassId → Prop
  | 0, a, b => a = b
  | n + 1, a, b => ∃ c ∈ r.below a, Path n c b

/-- No class is listed under two bases, and every class has a height above those listed under
it. -/
structure Forest (height : ClassId → Nat) : Prop where
  base_unique : ∀ b b' c, c ∈ r.below b → c ∈ r.below b' → b = b'
  decreasing : ∀ b, ∀ c ∈ r.below b, height c < height b

/-- Both classes are registered, and a path of this length leads from the first to the second. -/
def Derives (n : Nat) (a b : ClassId) : Prop := r.isExisting a ∧ r.isExisting b ∧ r.Path n a b

/-- The distance is the length of the path between the classes, or `-1` where there is none. -/
def Measures (a b : ClassId) (d : Int) : Prop :=
  (∃ n : Nat, d = n ∧ r.Derives n a b) ∨ d = -1 ∧ ∀ n, ¬ r.Derives n a b

section

variable {r : Classes F} {height : ClassId → Nat} {a b top : ClassId} {n fuel : Nat}

theorem Path.existing (hp : r.Path n a b) (hk : r.isExisting a) : r.isExisting b := by
  induction n generalizing a with
  | zero => exact hp ▸ hk
  | succ n ih =>
    obtain ⟨c, hm, hr⟩ := hp
    exact ih hr (decide_eq_true (r.registered a c hm))

theorem Path.height_le (hf : r.Forest height) (hp : r.Path n a b) :
    height b + n ≤ height a := by
  induction n generalizing a with
  | zero => exact hp ▸ le_rfl
  | succ n ih =>
    obtain ⟨c, hm, hr⟩ := hp
    have := hf.decreasing a c hm
    have := ih hr
    omega

theorem internal_succ : r.generationDistanceInternal (fuel + 1) a b =
    distanceAmong (fun c => r.generationDistanceInternal fuel c b) b (r.below a) := by
  rw [generationDistanceInternal, below]
  cases r.relations.lookup a <;> rfl

theorem internal_cases (fuel : Nat) (a b : ClassId) :
    (∃ n : Nat, r.generationDistanceInternal fuel a b = n + 1 ∧ r.Path (n + 1) a b) ∨
      r.generationDistanceInternal fuel a b = -1 ∧ ∀ n < fuel, ¬ r.Path (n + 1) a b := by
  induction fuel generalizing a with
  | zero => exact .inr ⟨rfl, nofun⟩
  | succ fuel ih =>
    rw [internal_succ]
    rcases distanceAmong_cases _ b (r.below a) with ⟨hn, ha⟩ | ⟨c, hm, ⟨rfl, one⟩ | ⟨hnr, eq⟩⟩
    · refine .inr ⟨hn, ?_⟩
      rintro n hl ⟨c, hm, hr⟩
      obtain ⟨ho, hf⟩ := ha c hm
      cases n with
      | zero => exact ho hr.symm
      | succ n =>
        rcases ih c with ⟨m, hv, -⟩ | ⟨-, hn⟩
        · omega
        · exact hn n (by omega) hr
    · exact .inl ⟨0, one, b, hm, rfl⟩
    · rcases ih c with ⟨n, hv, hp⟩ | ⟨hn, -⟩
      · exact .inl ⟨n + 1, by rw [eq, hv]; rfl, c, hm, hp⟩
      · omega

theorem generationDistance_measures (hf : r.Forest height)
    (he : ∀ c, r.isExisting c → height c ≤ fuel) (a b : ClassId) :
    r.Measures a b (r.generationDistance fuel a b) := by
  rw [generationDistance]
  split
  · next hu => exact .inr ⟨rfl, fun n hd => hu.elim (· hd.1) (· hd.2.1)⟩
  next hk =>
  obtain ⟨hka, hkb⟩ := not_or.mp hk
  rw [not_not] at hka hkb
  split
  · next hs => exact .inl ⟨0, rfl, hka, hkb, hs⟩
  next other =>
  rcases internal_cases fuel a b with ⟨n, hv, hp⟩ | ⟨hn, hnp⟩
  · exact .inl ⟨n + 1, hv, hka, hkb, hp⟩
  · refine .inr ⟨hn, ?_⟩
    rintro (_ | n) ⟨-, -, hp⟩
    · exact other hp
    · have := hp.height_le hf
      have := he a hka
      exact hnp n (by omega) hp

theorem exists_last (hfr : r.Forest height) (a : ClassId) :
    ∃ last n, r.Path n a last ∧ r.isLast last := by
  induction ht : height a using Nat.strong_induction_on generalizing a with
  | _ _ ih =>
    rcases hf : r.relations.lookup a with _ | _ | ⟨c, os⟩
    · exact ⟨a, 0, rfl, by rw [isLast, hf]; rfl⟩
    · exact absurd hf (r.inhabited a)
    · have hm : c ∈ r.below a := by rw [below, hf]; exact mem_cons_self
      obtain ⟨last, n, hp, hfn⟩ := ih _ (ht ▸ hfr.decreasing a c hm) c rfl
      exact ⟨last, n + 1, ⟨c, hm, hp⟩, hfn⟩

theorem exists_top (hf : r.Forest height) {l : List ClassId}
    (hc : ∀ x ∈ l, ∀ y ∈ l, ∃ n, r.Path n x y ∨ r.Path n y x) (hsc : l ≠ []) :
    ∃ top ∈ l, ∀ x ∈ l, ∃ n, r.Path n x top := by
  obtain ⟨f, hm⟩ := exists_mem_of_ne_nil l hsc
  obtain ⟨top, hi, hl⟩ := (measure height).wf.has_min {x | x ∈ l} ⟨f, hm⟩
  refine ⟨top, hi, fun x ha => ?_⟩
  obtain ⟨n, up | down⟩ := hc x ha top hi
  · exact ⟨n, up⟩
  · have := down.height_le hf
    have : ¬ height x < height top := hl x ha
    obtain rfl : n = 0 := by omega
    exact ⟨0, Eq.symm down⟩

theorem before_top (hf : r.Forest height) (he : ∀ c, r.isExisting c → height c ≤ fuel)
    (hd : r.Derives n a top) (hn : a ≠ top) :
    r.Before fuel a top ∧ ¬ r.Before fuel top a := by
  have up : 0 < r.generationDistance fuel a top := by
    rcases generationDistance_measures hf he a top with ⟨_ | m, eq, d⟩ | ⟨-, hnn⟩
    · exact absurd d.2.2 hn
    · omega
    · exact absurd hd (hnn n)
  have hdw : r.generationDistance fuel top a = -1 := by
    rcases generationDistance_measures hf he top a with ⟨m, -, d⟩ | ⟨eq, -⟩
    · have := d.2.2.height_le hf
      have := hd.2.2.height_le hf
      obtain rfl : n = 0 := by omega
      exact absurd hd.2.2 hn
    · exact eq
  exact ⟨⟨by omega, up.le⟩, fun hb => hb.1 up⟩

end

/-- In a registry whose relations form a forest, the factory chosen for classes on one chain is
that of a final class derived from the most derived of them, and distances are path lengths. -/
theorem getMostRelatedFactory_final (r : Classes F) (height : ClassId → Nat)
    (forest : r.Forest height) (fuel : Nat) (enough : ∀ c, r.isExisting c → height c ≤ fuel)
    (classes : List ClassId) (known : ∃ c ∈ classes, r.isExisting c)
    (chain : ∀ x ∈ classes, ∀ y ∈ classes, r.isExisting x → r.isExisting y →
      ∃ n, r.Path n x y ∨ r.Path n y x) :
    (∀ a b, r.Measures a b (r.generationDistance fuel a b)) ∧
      ∃ top ∈ classes, (∀ x ∈ classes, r.isExisting x → ∃ n, r.Derives n x top) ∧
        ∃ last f n, r.Derives n top last ∧ r.isLast last ∧ r.factories.lookup last = some f ∧
          r.getMostRelatedFactory fuel classes = some f := by
  have hm := generationDistance_measures forest enough
  refine ⟨hm, ?_⟩
  obtain ⟨c, hls, ht⟩ := known
  obtain ⟨top, hi, hld⟩ := exists_top (l := classes.filter r.isExisting) forest
    (by grind) (ne_nil_of_mem (mem_filter.mpr ⟨hls, ht⟩))
  obtain ⟨mem, htk⟩ := mem_filter.mp hi
  have hd : ∀ x ∈ classes, r.isExisting x → ∃ n, r.Derives n x top := fun x ha known =>
    (hld x (mem_filter.mpr ⟨ha, known⟩)).imp fun _ hp => ⟨known, htk, hp⟩
  have back :
      ((classes.filter r.isExisting).insertionSort (r.Before fuel)).getLast? = some top := by
    refine getLast_insertionSort hi fun x ha hn => ?_
    obtain ⟨ha, known⟩ := mem_filter.mp ha
    obtain ⟨n, d⟩ := hd x ha known
    exact before_top forest enough d hn
  refine ⟨top, mem, hd, ?_⟩
  rw [getMostRelatedFactory, back]
  dsimp only
  rcases hf : r.factories.entries.find? fun f =>
      r.isLast f.1 && decide (0 ≤ r.generationDistance fuel top f.1) with _ | ⟨last, f⟩
  · obtain ⟨last, n, hp, hfn⟩ := exists_last forest top
    have hlk := hp.existing htk
    obtain ⟨f, hl⟩ := Option.isSome_iff_exists.mp
      (AList.lookup_isSome.mpr (of_decide_eq_true hlk))
    have hms := find?_eq_none.mp hf ⟨last, f⟩ (AList.mem_lookup_iff.mp hl)
    rcases hm top last with ⟨m, eq, -⟩ | ⟨-, hnn⟩
    · simp [hfn, eq] at hms
    · exact absurd ⟨htk, hlk, hp⟩ (hnn n)
  · have hc := find?_some hf
    rw [Bool.and_eq_true, decide_eq_true_eq] at hc
    rcases hm top last with ⟨n, -, d⟩ | ⟨eq, -⟩
    · exact ⟨last, f, n, d, hc.1, AList.mem_lookup_iff.mpr (mem_of_find?_eq_some hf), by
        rw [hf]; rfl⟩
    · exact absurd (eq ▸ hc.2) (by decide)

def two : Classes String := registerClass 0 (registerClass 0 .empty 1 0 "one") 2 1 "two"

theorem two_forest : two.Forest fun c => if c = 1 then 1 else 0 := by
  have he {b c : ClassId} (hm : c ∈ two.below b) : c = 2 ∧ b = 1 := by
    rcases mem_relate.mp hm with ho | ⟨rfl, rfl, -⟩
    · rcases mem_relate.mp ho with hnn | ⟨-, -, hn⟩
      · simp [empty] at hnn
      · exact absurd rfl hn
    · exact ⟨rfl, rfl⟩
  refine ⟨fun b b' c h1 h2 => (he h1).2.trans (he h2).2.symm, fun b c hm => ?_⟩
  obtain ⟨rfl, rfl⟩ := he hm
  decide

theorem getMostRelatedFactory_final_two :
    ∃ last f n, two.Derives n 1 last ∧ two.isLast last ∧ two.factories.lookup last = some f ∧
      two.getMostRelatedFactory 1 [1, 7] = some f := by
  have only : ∀ c ∈ [1, 7], two.isExisting c → c = 1 := forall_mem_cons.mpr
    ⟨fun _ => rfl, forall_mem_singleton.mpr fun hk => absurd hk (by decide)⟩
  obtain ⟨-, top, hm, -, last, f, n, hd, hr⟩ := getMostRelatedFactory_final two _ two_forest
    1 (fun c _ => by split <;> decide) [1, 7] ⟨1, by decide, rfl⟩ fun x mx y my kx ky =>
      ⟨0, .inl ((only x mx kx).trans (only y my ky).symm)⟩
  obtain rfl := only top hm hd.1
  exact ⟨last, f, n, hd, hr⟩

end Classes

end Ae.Obj.ClassSelection
