/- digest: Walks over sorted closed intervals: the contiguous run from zero and the first break. -/

import Mathlib.Order.MinMax
import Mathlib.Tactic.Common

set_option autoImplicit false

namespace Ae.Lib.IntervalChain
open List
/-- Walk a list of closed intervals: stop at the first one that begins after the
expected position, otherwise take its right end if it lies further. -/
def chain : List (Nat × Nat) → Nat → Nat → Nat
  | [], right, _ => right
  | (l, r) :: rs, right, expected =>
    if l > expected then right else chain rs (max right r) (max right r + 1)

variable {rs : List (Nat × Nat)}

theorem chain_le {bound r : Nat} (e : Nat) (hr : r ≤ bound)
    (hrs : ∀ p ∈ rs, p.2 ≤ bound) : chain rs r e ≤ bound := by
  induction rs generalizing r e with
  | nil => exact hr
  | cons p rs ih =>
    simp only [chain]
    split_ifs with h
    · exact hr
    · exact ih _ (max_le hr (hrs p mem_cons_self)) (fun q hq => hrs q (mem_cons_of_mem p hq))

/-- Whatever holds on every interval holds on the whole chain, once it is longer than
the single position zero, which the walk reports even when nothing covers it. -/
theorem chain_covered {Covered : Nat → Prop} (rs : List (Nat × Nat)) (ri e : Nat)
    (hln : e = ri + 1 ∨ (e = 0 ∧ ri = 0)) (hs : ∀ k < e, Covered k)
    (hi : ∀ p ∈ rs, ∀ k, p.1 ≤ k → k ≤ p.2 → Covered k)
    (hl : 0 < chain rs ri e) : ∀ k ≤ chain rs ri e, Covered k := by
  induction rs generalizing ri e with
  | nil =>
    intro k hk
    simp only [chain] at hk hl
    exact hs k (by omega)
  | cons p rs ih =>
    obtain ⟨l, r⟩ := p
    have hr : ∀ q ∈ rs, ∀ k, q.1 ≤ k → k ≤ q.2 → Covered k :=
      fun q hq => hi q (mem_cons_of_mem _ hq)
    have hh := hi (l, r) mem_cons_self
    simp only [chain] at hl ⊢
    by_cases h : l > e
    · rw [if_pos h] at hl ⊢
      intro k hk
      exact hs k (by omega)
    · rw [if_neg h] at hl ⊢
      refine ih _ _ (.inl rfl) ?_ hr hl
      intro k hk
      by_cases old : k < e
      · exact hs k old
      · exact hh k (by simp only; omega) (by simp only; omega)

def Covers (rs : List (Nat × Nat)) (k : Nat) : Prop := ∃ p ∈ rs, p.1 ≤ k ∧ k ≤ p.2

instance (rs : List (Nat × Nat)) (k : Nat) : Decidable (Covers rs k) :=
  inferInstanceAs (Decidable (∃ p ∈ rs, p.1 ≤ k ∧ k ≤ p.2))

structure Sorted (rs : List (Nat × Nat)) : Prop where
  lefts : rs.Pairwise (fun p q => p.1 ≤ q.1)
  proper : ∀ p ∈ rs, p.1 ≤ p.2

theorem Sorted.tail {p : Nat × Nat} (h : Sorted (p :: rs)) : Sorted rs :=
  ⟨h.lefts.of_cons, fun q hq => h.proper q (mem_cons_of_mem p hq)⟩

theorem Sorted.head_le {p : Nat × Nat} (h : Sorted (p :: rs)) : ∀ q ∈ p :: rs, p.1 ≤ q.1 := by
  intro q hq
  rcases mem_cons.mp hq with rfl | hrest
  · exact le_rfl
  · exact rel_of_pairwise_cons h.lefts hrest

theorem Sorted.suffix {xs rs : List (Nat × Nat)} (h : Sorted (xs ++ rs)) : Sorted rs :=
  ⟨(pairwise_append.mp h.lefts).2.1, fun q hq => h.proper q (mem_append_right xs hq)⟩

theorem le_chain (rs : List (Nat × Nat)) (r expected : Nat) :
    r ≤ chain rs r expected := by
  induction rs generalizing r expected with
  | nil => exact le_refl r
  | cons p rs ih =>
    simp only [chain]
    split_ifs with h
    · exact le_refl r
    · exact (le_max_left r p.2).trans (ih _ _)

theorem chain_closed (hs : Sorted rs) (r : Nat) :
    ∀ p ∈ rs, p.1 ≤ chain rs r (r + 1) + 1 → p.2 ≤ chain rs r (r + 1) := by
  induction rs generalizing r with
  | nil => simp
  | cons q rs ih =>
    intro p hp hn
    simp only [chain] at hn ⊢
    by_cases gap : q.1 > r + 1
    · rw [if_pos gap] at hn
      have hl := hs.head_le p hp
      omega
    · rw [if_neg gap] at hn ⊢
      rcases mem_cons.mp hp with rfl | hrest
      · exact (le_max_right r p.2).trans (le_chain rs _ _)
      · exact ih hs.tail _ p hrest hn

/-- `e` is the last position of the run of covered positions from zero, and zero when
position zero is not covered. -/
structure RunEnd (Covered : Nat → Prop) (e : Nat) : Prop where
  run : Covered 0 → ∀ k ≤ e, Covered k
  maximal : Covered 0 → ¬ Covered (e + 1)
  uncovered : ¬ Covered 0 → e = 0

variable {P : Nat → Prop}

theorem RunEnd.unique {d e : Nat} (hd : RunEnd P d) (he : RunEnd P e) : d = e := by
  by_cases hz : P 0
  · rcases lt_trichotomy d e with lt | eq | gt
    · exact absurd (he.run hz (d + 1) lt) (hd.maximal hz)
    · exact eq
    · exact absurd (hd.run hz (e + 1) gt) (he.maximal hz)
  · rw [hd.uncovered hz, he.uncovered hz]

theorem RunEnd.congr {P Q : Nat → Prop} {e : Nat} (he : ∀ k, P k ↔ Q k) (h : RunEnd P e) :
    RunEnd Q e := by
  obtain rfl : P = Q := funext fun k => propext (he k)
  exact h

theorem chain_run (hs : Sorted rs) : RunEnd (Covers rs) (chain rs 0 0) := by
  cases rs with
  | nil =>
    have hn : ¬ Covers [] 0 := by simp [Covers]
    exact ⟨fun h => absurd h hn, fun h => absurd h hn, fun _ => rfl⟩
  | cons p rs =>
    by_cases begins : p.1 = 0
    · have h1 : chain (p :: rs) 0 0 = chain rs p.2 (p.2 + 1) := by
        simp [chain, begins]
      have hz : Covers (p :: rs) 0 := ⟨p, mem_cons_self, by omega, by omega⟩
      refine ⟨?_, ?_, fun h => absurd hz h⟩
      · intro _ k hk
        rcases Nat.eq_zero_or_pos (chain (p :: rs) 0 0) with hsn | long
        · obtain rfl : k = 0 := by omega
          exact hz
        · exact chain_covered (p :: rs) 0 0 (Or.inr ⟨rfl, rfl⟩) (fun k hk => by omega)
            (fun q hq k hl hr => ⟨q, hq, hl, hr⟩) long k hk
      · rintro - ⟨q, hq, hl, hr⟩
        rw [h1] at hl hr
        have hi : q.2 ≤ chain rs p.2 (p.2 + 1) := by
          rcases mem_cons.mp hq with rfl | hrest
          · exact le_chain rs _ _
          · exact chain_closed hs.tail p.2 q hrest hl
        omega
    · have hn : ¬ Covers (p :: rs) 0 := by
        rintro ⟨q, hq, hl, -⟩
        have hlt := hs.head_le q hq
        omega
      exact ⟨fun h => absurd h hn, fun h => absurd h hn,
        fun _ => by simp [chain, Nat.pos_of_ne_zero begins]⟩

/-- Walk the intervals with the position after the previous one: the gap before the first
interval that begins beyond it. -/
def firstBreak : List (Nat × Nat) → Nat → Option (Nat × Nat)
  | [], _ => none
  | (l, r) :: rs, expected => if l > expected then some (expected, l - 1) else firstBreak rs (r + 1)

def Joined : List (Nat × Nat) → Nat → Prop
  | [], _ => True
  | p :: rs, expected => p.1 ≤ expected ∧ Joined rs (p.2 + 1)

/-- The first maximal gap `[g, h]` before a covered position. -/
structure FirstGap (Covered : Nat → Prop) (g h : Nat) : Prop where
  before : ∀ k < g, Covered k
  nonempty : g ≤ h
  inside : ∀ k, g ≤ k → k ≤ h → ¬ Covered k
  after : Covered (h + 1)

theorem Joined.covered {e : Nat} (hj : Joined rs e) (hst : ∀ k < e, P k)
    (hi : ∀ p ∈ rs, ∀ k, p.1 ≤ k → k ≤ p.2 → P k) : ∀ p ∈ rs, ∀ k ≤ p.2, P k := by
  induction rs generalizing e with
  | nil => simp
  | cons q rs ih =>
    obtain ⟨hb, hr⟩ := hj
    have hh : ∀ k ≤ q.2, P k := by
      intro k hk
      by_cases old : k < e
      · exact hst k old
      · exact hi q mem_cons_self k (by omega) hk
    intro p hp
    rcases mem_cons.mp hp with rfl | hrest
    · exact hh
    · exact ih hr (fun k hk => hh k (by omega)) (fun s hs => hi s (mem_cons_of_mem q hs)) p hrest

theorem firstBreak_append (xs : List (Nat × Nat)) (p : Nat × Nat) (ys : List (Nat × Nat))
    {e : Nat} (hj : Joined (xs ++ [p]) e) :
    firstBreak (xs ++ p :: ys) e = firstBreak ys (p.2 + 1) := by
  induction xs generalizing e with
  | nil => simp [firstBreak, Nat.not_lt.mpr hj.1]
  | cons q xs ih =>
    obtain ⟨hb, hr⟩ := hj
    rw [cons_append, firstBreak, if_neg (Nat.not_lt.mpr hb)]
    exact ih hr

theorem firstBreak_cases (rs : List (Nat × Nat)) (expected : Nat) :
    (firstBreak rs expected = none ∧ Joined rs expected) ∨
    (∃ r ys, rs = r :: ys ∧ expected < r.1 ∧ firstBreak rs expected = some (expected, r.1 - 1)) ∨
    (∃ xs p r ys, rs = xs ++ p :: r :: ys ∧ Joined (xs ++ [p]) expected ∧ p.2 + 1 < r.1 ∧
      firstBreak rs expected = some (p.2 + 1, r.1 - 1)) := by
  induction rs generalizing expected with
  | nil => exact .inl ⟨rfl, trivial⟩
  | cons q rs ih =>
    by_cases breaks : q.1 > expected
    · exact .inr (.inl ⟨q, rs, rfl, breaks, by rw [firstBreak, if_pos breaks]⟩)
    · have begins : q.1 ≤ expected := Nat.not_lt.mp breaks
      have walk : firstBreak (q :: rs) expected = firstBreak rs (q.2 + 1) := by
        rw [firstBreak, if_neg breaks]
      rcases ih (q.2 + 1) with ⟨none, joined⟩ | ⟨r, ys, rfl, later, found⟩ |
        ⟨xs, p, r, ys, rfl, joined, later, found⟩
      · exact .inl ⟨walk.trans none, begins, joined⟩
      · exact .inr (.inr ⟨[], q, r, ys, rfl, ⟨begins, trivial⟩, later, walk.trans found⟩)
      · exact .inr (.inr ⟨q :: xs, p, r, ys, rfl, ⟨begins, joined⟩, later, walk.trans found⟩)

def FurthestLast (rs : List (Nat × Nat)) : Prop :=
  ∀ xs p r ys, rs = xs ++ p :: r :: ys → Joined (xs ++ [p]) 0 → p.2 + 1 < r.1 → ∀ q ∈ xs, q.2 ≤ p.2

def Contiguous (Covered : Nat → Prop) : Prop := ∀ k, Covered k → ∀ j ≤ k, Covered j

theorem FirstGap.not_contiguous {g h : Nat} (hg : FirstGap P g h) : ¬ Contiguous P := by
  intro hr
  have hn := hg.nonempty
  exact hg.inside g (le_refl g) hn (hr (h + 1) hg.after g (by omega))

/-- `reported` is the first gap of the covered positions, and nothing when they are one run. -/
structure ReportsGap (Covered : Nat → Prop) (reported : Option (Nat × Nat)) : Prop where
  none_iff : reported = none ↔ Contiguous Covered
  first : ∀ gap, reported = some gap → FirstGap Covered gap.1 gap.2

theorem ReportsGap.of_firstGap {gap : Nat × Nat} (h : FirstGap P gap.1 gap.2) :
    ReportsGap P (some gap) :=
  ⟨⟨fun hn => (Option.some_ne_none _ hn).elim, fun hr => absurd hr h.not_contiguous⟩,
    fun _ hf => Option.some.inj hf ▸ h⟩

theorem reportsGap_iff (hs : Sorted rs) :
    ReportsGap (Covers rs) (firstBreak rs 0) ↔ FurthestLast rs := by
  have hw : ∀ p ∈ rs, ∀ k, p.1 ≤ k → k ≤ p.2 → Covers rs k :=
    fun p hp k hl hr => ⟨p, hp, hl, hr⟩
  constructor
  · -- a longer interval before the break would cover the position the walk reports
    intro hrp xs p r ys hrs hjn hb q hq
    have hf : firstBreak rs 0 = some (p.2 + 1, r.1 - 1) := by
      rw [hrs, firstBreak_append xs p (r :: ys) hjn, firstBreak, if_pos hb]
    have gap := hrp.first _ hf
    by_contra longer
    have hp : p.1 ≤ p.2 := hs.proper p (by simp [hrs])
    have hqp : q.1 ≤ p.1 := by
      have hlf := hs.lefts
      rw [hrs, pairwise_append] at hlf
      exact hlf.2.2 q hq p mem_cons_self
    exact gap.inside (p.2 + 1) le_rfl gap.nonempty
      ⟨q, by simp [hrs, hq], by omega, by omega⟩
  · intro hfr
    rcases firstBreak_cases rs 0 with ⟨hn, hjn⟩ | ⟨r, ys, hrs, hlt, hf⟩ |
      ⟨xs, p, r, ys, hrs, hjn, hb, hf⟩
    · rw [hn]
      refine ⟨⟨fun _ => ?_, fun _ => rfl⟩, by simp⟩
      rintro k ⟨p, hp, -, hk⟩ j hj
      exact hjn.covered (P := Covers rs) (fun k hk => by omega) hw p hp j (by omega)
    · rw [hf]
      have hr : r ∈ rs := by simp [hrs]
      have hh := hs.proper r hr
      refine .of_firstGap ⟨fun k hk => by omega, by simp only; omega, ?_, ?_⟩
      · rintro k - hk ⟨q, hq, hl, -⟩
        rw [hrs] at hq hs
        have hlt := hs.head_le q hq
        simp only at hk
        omega
      · exact ⟨r, hr, by simp only; omega, by simp only; omega⟩
    · rw [hf]
      have hr : r ∈ rs := by simp [hrs]
      have hh := hs.proper r hr
      have hst : ∀ q ∈ xs ++ [p], q ∈ rs := by
        intro q hq
        rw [hrs]
        simp only [mem_append, mem_cons, not_mem_nil, or_false] at hq ⊢
        tauto
      have hc := hjn.covered (P := Covers rs) (fun k hk => by omega)
        (fun q hq => hw q (hst q hq)) p (by simp)
      refine .of_firstGap
        ⟨fun k hk => hc k (by simp only at hk; omega), by simp only; omega, ?_, ?_⟩
      · rintro k hg hk ⟨q, hq, hl, hrg⟩
        simp only at hg hk
        rw [hrs] at hq hs
        rcases mem_append.mp hq with he | late
        · have := hfr xs p r ys hrs hjn hb q he
          omega
        · rcases mem_cons.mp late with rfl | rest
          · omega
          · have hlt := hs.suffix.tail.head_le q rest
            omega
      · exact ⟨r, hr, by simp only; omega, by simp only; omega⟩

end Ae.Lib.IntervalChain
