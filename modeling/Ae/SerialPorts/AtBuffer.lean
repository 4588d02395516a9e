/- source: serial_ports/at_support/at_buffer.cpp
   digest: The lines of one read, and which cuts of a stream into reads give the same lines. -/

import Mathlib.Data.List.Infix

set_option autoImplicit false

namespace Ae.SerialPorts.AtBuffer
open List
section

variable {α : Type} [DecidableEq α] {pattern s x y : List α}

/-- `find`: what stands before the first occurrence of a pattern, and what stands after it. -/
def cutAt (pattern : List α) : List α → Option (List α × List α)
  | [] => if pattern = [] then some ([], []) else none
  | b :: rest =>
    if pattern.isPrefixOf (b :: rest) then some ([], (b :: rest).drop pattern.length)
    else (cutAt pattern rest).map fun cut => (b :: cut.1, cut.2)

theorem eq_append_of_cutAt (h : cutAt pattern s = some (x, y)) : s = x ++ pattern ++ y := by
  induction s generalizing x with
  | nil => simp_all [cutAt]
  | cons b rest ih =>
    rw [cutAt] at h
    split_ifs at h with h1
    · cases h
      obtain ⟨t, ht⟩ := isPrefixOf_iff_prefix.mp h1
      simp [← ht]
    · obtain ⟨⟨bf, a⟩, hf, cut⟩ := Option.map_eq_some_iff.mp h
      cases cut
      simp [← ih hf]

theorem cutAt_isSome_iff : (cutAt pattern s).isSome ↔ pattern <:+: s := by
  induction s with
  | nil => by_cases empty : pattern = [] <;> simp [cutAt, empty]
  | cons b rest ih =>
    rw [cutAt, infix_cons_iff, ← isPrefixOf_iff_prefix]
    split_ifs with h1 <;> simp [h1, ih]

theorem cutAt_append : cutAt pattern (pattern ++ s) = some ([], s) := by
  cases whole : pattern ++ s with
  | nil => simp_all [cutAt]
  | cons b rest =>
    have h1 : pattern.isPrefixOf (b :: rest) := by
      rw [← whole]
      exact isPrefixOf_iff_prefix.mpr (prefix_append pattern s)
    rw [cutAt, if_pos h1, ← whole, drop_left]

end

abbrev Line := List UInt8

def crlf : Line := [13, 10]

theorem cutAt_crlf {a z : Line} (hc : ¬ crlf <:+: a) :
    cutAt crlf (a ++ crlf ++ z) = some (a, z) := by
  induction a with
  | nil => exact cutAt_append
  | cons b a ih =>
    have hl : ¬ crlf.isPrefixOf (b :: (a ++ crlf ++ z)) := by
      rw [ isPrefixOf_iff_prefix]
      rintro ⟨t, hs⟩
      -- the pair would stand inside `b :: a`, or its second byte be the first of the line end
      cases a with
      | nil => simp [crlf] at hs
      | cons c a =>
        simp only [crlf, cons_append, cons.injEq] at hs
        exact hc ⟨[], a, by simp [crlf, hs.1, hs.2.1]⟩
    have hf := ih fun hi => hc (hi.trans (suffix_cons b a).isInfix)
    simp only [cons_append] at hl ⊢
    rw [cutAt, if_neg hl, hf]
    rfl

def nonEmpty (line : Line) : List Line :=
  if line = [] then [] else [line]

/-- The loop of `DataRead`: the lines one read adds to the buffer. A rest without a line end is
added as a line too. -/
def lines (data : Line) : List Line :=
  match found : cutAt crlf data with
  | none => nonEmpty data
  | some (sub, rest) =>
    have shorter : rest.length < data.length := by
      rw [eq_append_of_cutAt found]
      simp [crlf]
      omega
    nonEmpty sub ++ lines rest
termination_by data.length

theorem lines_clean {a : Line} (hc : ¬ crlf <:+: a) : lines a = nonEmpty a := by
  have none : cutAt crlf a = none := by
    rw [← Option.not_isSome_iff_eq_none, cutAt_isSome_iff]
    exact hc
  rw [lines]
  split
  · rfl
  · simp_all

theorem clean_or_first (a : Line) : ¬ crlf <:+: a ∨ ∃ h b, a = h ++ crlf ++ b ∧ ¬ crlf <:+: h := by
  induction a with
  | nil => simp [crlf]
  | cons c a ih =>
    by_cases hs : crlf <+: c :: a
    · obtain ⟨b, hw⟩ := hs
      exact .inr ⟨[], b, by simp [hw], by simp [crlf]⟩
    · obtain hc | ⟨h, b, rfl, hc⟩ := ih
      · exact .inl fun hi => (infix_cons_iff.mp hi).elim hs hc
      · refine .inr ⟨c :: h, b, rfl, fun hi => ?_⟩
        have he := (infix_cons_iff.mp hi).resolve_right hc
        exact hs (he.trans ⟨crlf ++ b, by simp⟩)

theorem clean_or_last (a : Line) : ¬ crlf <:+: a ∨ ∃ b o, a = b ++ crlf ++ o ∧ ¬ crlf <:+: o := by
  induction a with
  | nil => simp [crlf]
  | cons c a ih =>
    obtain hc | ⟨b, o, rfl, hc⟩ := ih
    · by_cases hs : crlf <+: c :: a
      · obtain ⟨o, hw⟩ := hs
        have hr : a = 10 :: o := (cons.inj hw).2.symm
        refine .inr ⟨[], o, by simp [hw], fun hi => hc ?_⟩
        exact hi.trans ⟨[10], [], by simp [hr]⟩
      · exact .inl fun hi => (infix_cons_iff.mp hi).elim hs hc
    · exact .inr ⟨c :: b, o, rfl, hc⟩

theorem lines_first {h b : Line} (hc : ¬ crlf <:+: h) :
    lines (h ++ crlf ++ b) = nonEmpty h ++ lines b := by
  rw [lines]
  split
  · rename_i missing
    rw [cutAt_crlf hc] at missing
    cases missing
  · rename_i hf
    obtain ⟨rfl, rfl⟩ := Prod.mk.inj (Option.some.inj ((cutAt_crlf hc).symm.trans hf))
    rfl

theorem line_induct {motive : Line → Prop} (last : ∀ a, ¬ crlf <:+: a → motive a)
    (next : ∀ h b, ¬ crlf <:+: h → motive b → motive (h ++ crlf ++ b)) (a : Line) : motive a := by
  obtain hc | ⟨h, b, rfl, hc⟩ := clean_or_first a
  · exact last a hc
  · have hs : b.length < (h ++ crlf ++ b).length := by simp [crlf]; omega
    exact next h b hc (line_induct last next b)
termination_by a.length

theorem lines_append_crlf (a z : Line) : lines (a ++ crlf ++ z) = lines a ++ lines z := by
  induction a using line_induct with
  | last a hc => rw [lines_first hc, lines_clean hc]
  | next h b hc hr =>
    rw [lines_first hc, append_assoc (nonEmpty h), ← hr, ← lines_first hc]
    simp

theorem lines_nil : lines [] = [] := lines_clean (by simp [crlf])

theorem lines_ended (a : Line) : lines (a ++ crlf) = lines a := by
  simpa [lines_nil] using lines_append_crlf a []

theorem flatten_nonEmpty (line : Line) : (nonEmpty line).flatten = line := by
  unfold nonEmpty
  split_ifs <;> simp [*]

theorem flatten_lines_sublist (data : Line) : (lines data).flatten.Sublist data := by
  induction data using line_induct with
  | last a hc => rw [lines_clean hc, flatten_nonEmpty]
  | next h b hc hr =>
    rw [lines_first hc, flatten_append, flatten_nonEmpty, append_assoc]
    exact Sublist.append_left (hr.trans (sublist_append_right _ _)) h

def weight (ls : List Line) : Nat :=
  ls.flatten.length + ls.length

@[simp] theorem weight_append (a b : List Line) : weight (a ++ b) = weight a + weight b := by
  simp [weight]
  omega

theorem weight_nonEmpty {l : Line} (h : l ≠ []) :
    weight (nonEmpty l) = l.length + 1 := by
  simp [weight, nonEmpty, h]

theorem weight_lines_le (data : Line) : weight (lines data) ≤ data.length + 1 := by
  have ho (l : Line) : weight (nonEmpty l) ≤ l.length + 1 := by
    by_cases he : l = []
    · simp [weight, nonEmpty, he]
    · exact (weight_nonEmpty he).le
  induction data using line_induct with
  | last a hc => exact lines_clean hc ▸ ho a
  | next h b hc hr =>
    have := ho h
    rw [lines_first hc, weight_append]
    simp only [length_append, crlf, length_cons, length_nil]
    omega

/-- A cut of the stream that meets a line end or an end of the stream. -/
def Aligned (before after : Line) : Prop :=
  before = [] ∨ crlf <:+ before ∨ after = [] ∨ crlf <+: after

theorem lines_of_aligned {c r : Line} (h : Aligned c r) : lines (c ++ r) = lines c ++ lines r := by
  obtain rfl | ⟨a, rfl⟩ | rfl | ⟨z, rfl⟩ := h
  · simp [lines_nil]
  · rw [lines_ended, lines_append_crlf]
  · simp [lines_nil]
  · have ha := lines_append_crlf [] z
    rw [lines_nil, nil_append, nil_append] at ha
    rw [ha, ← append_assoc, lines_append_crlf]

theorem open_end {c : Line} (hs : c ≠ []) (hu : ¬ crlf <:+ c) : ∃ bf o,
    o ≠ [] ∧ ¬ crlf <:+: o ∧ ∀ z, lines (c ++ z) = bf ++ lines (o ++ z) := by
  obtain hc | ⟨b, o, rfl, hc⟩ := clean_or_last c
  · exact ⟨[], c, hs, hc, fun z => rfl⟩
  · refine ⟨lines b, o, ?_, hc, fun z => ?_⟩
    · rintro rfl
      exact hu ⟨b, by simp⟩
    · rw [append_assoc, lines_append_crlf]

theorem open_start {r : Line} (hs : r ≠ []) (hu : ¬ crlf <+: r) : ∃ h after,
    h ≠ [] ∧ ¬ crlf <:+: h ∧ ∀ w, lines (w ++ r) = lines (w ++ h) ++ after := by
  obtain hc | ⟨h, b, rfl, hc⟩ := clean_or_first r
  · exact ⟨r, [], hs, hc, fun w => by simp⟩
  · refine ⟨h, lines b, ?_, hc, fun w => ?_⟩
    · rintro rfl
      exact hu ⟨b, rfl⟩
    · rw [← append_assoc, ← append_assoc, lines_append_crlf]

theorem weight_of_not_aligned {c r : Line} (h : ¬ Aligned c r) :
    weight (lines (c ++ r)) < weight (lines c) + weight (lines r) := by
  simp only [Aligned, not_or] at h
  obtain ⟨b, o, ho, hc, he⟩ := open_end h.1 h.2.1
  obtain ⟨st, a, ho', hc', hs⟩ := open_start h.2.2.1 h.2.2.2
  have hl := he []
  have hr := hs []
  have hj := weight_lines_le (o ++ st)
  simp only [append_nil, nil_append, lines_clean hc, lines_clean hc'] at hl hr
  rw [he, hs, hl, hr]
  simp only [weight_append, weight_nonEmpty ho, weight_nonEmpty ho', length_append] at hj ⊢
  omega

/-- Every cut between two of the reads meets a line end. -/
def Whole : List Line → Prop
  | [] => True
  | read :: rest => Aligned read rest.flatten ∧ Whole rest

theorem weight_reads (rs : List Line) :
    weight (lines rs.flatten) ≤ weight (rs.flatMap lines) := by
  induction rs with
  | nil => simp [lines_nil]
  | cons r rest ih =>
    rw [flatten_cons, flatMap_cons, weight_append]
    by_cases aligned : Aligned r rest.flatten
    · rw [lines_of_aligned aligned, weight_append]
      omega
    · have := weight_of_not_aligned aligned
      omega

theorem lines_reads_iff (reads : List Line) :
    reads.flatMap lines = lines reads.flatten ↔ Whole reads := by
  induction reads with
  | nil => simp [lines_nil, Whole]
  | cons r rest ih =>
    rw [Whole, flatten_cons, flatMap_cons]
    by_cases aligned : Aligned r rest.flatten
    · rw [lines_of_aligned aligned, append_cancel_left_eq, ih, and_iff_right aligned]
    · refine iff_of_false (fun he => ?_) fun hw => aligned hw.1
      have := weight_of_not_aligned aligned
      have := weight_reads rest
      have := congrArg weight he
      rw [weight_append] at this
      omega

def getCrate (size offset : Nat) : List Line → Line
  | [] => []
  | line :: rest =>
    if size = 0 then []
    else if line.length ≤ offset then getCrate size (offset - line.length) rest
    else
      let bucket := (line.drop offset).take size
      bucket ++ getCrate (size - bucket.length) 0 rest

theorem getCrate_eq (size o : Nat) (ls : List Line) :
    getCrate size o ls = (ls.flatten.drop o).take size := by
  induction ls generalizing size o with
  | nil => simp [getCrate]
  | cons l rest ih =>
    rw [getCrate, flatten_cons, drop_append]
    split_ifs with hn hs
    · simp [hn]
    · rw [ih, drop_eq_nil_of_le hs, nil_append]
    · have hi : o - l.length = 0 := by omega
      have hl : size - ((l.drop o).take size).length =
          size - (l.drop o).length := by
        rw [length_take]
        omega
      dsimp only
      rw [ih, hi, take_append, hl]

end Ae.SerialPorts.AtBuffer
