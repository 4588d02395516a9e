/- digest: Lists that are related entry by entry, and a block written over a list at an offset. -/

import Mathlib.Data.List.Forall2

set_option autoImplicit false

namespace Ae.Lib.Lists
open List

section

variable {α β γ : Type*} {R : α → β → Prop} {l : List α} {l' : List β}

variable (he : List.Forall₂ R l l')
include he

theorem exists_left {b : β} (hm : b ∈ l') : ∃ a ∈ l, R a b := by
  induction he with
  | nil => cases hm
  | cons hh _ ih =>
    rcases mem_cons.mp hm with rfl | later
    · exact ⟨_, mem_cons_self, hh⟩
    · obtain ⟨a, ho, hr⟩ := ih later
      exact ⟨a, mem_cons_of_mem _ ho, hr⟩

theorem exists_right {a : α} (hm : a ∈ l) : ∃ b ∈ l', R a b :=
  exists_left he.flip hm

theorem map_eq_map {f : α → γ} {g : β → γ}
    (ha : ∀ a b, R a b → f a = g b) : l.map f = l'.map g := by
  induction he with
  | nil => rfl
  | cons hh _ ih => rw [map_cons, map_cons, ha _ _ hh, ih]

end

section

variable {α : Type*}

/-- The list `xs` with `ys` written over it from position `k` on. -/
def overlay (xs : List α) (k : Nat) (ys : List α) : List α :=
  xs.take k ++ ys ++ xs.drop (k + ys.length)

theorem overlay_length {xs : List α} {k : Nat} (ys : List α) (h : k ≤ xs.length) :
    (overlay xs k ys).length = max xs.length (k + ys.length) := by
  simp only [overlay, length_append, length_take, length_drop]
  omega

theorem overlay_at_end (xs ys : List α) : overlay xs xs.length ys = xs ++ ys := by
  simp [overlay]

theorem getElem?_overlay {xs : List α} {k : Nat} (ys : List α) (h : k ≤ xs.length) (j : Nat) :
    (overlay xs k ys)[j]? =
      if j < k then xs[j]? else if j < k + ys.length then ys[j - k]? else xs[j]? := by
  have ht : (xs.take k).length = k := by simp [h]
  unfold overlay
  split_ifs with h1 h2
  · rw [append_assoc, getElem?_append_left (by omega), getElem?_take_of_lt h1]
  · rw [append_assoc, getElem?_append_right (by omega), getElem?_append_left (by omega), ht]
  · rw [append_assoc, getElem?_append_right (by omega),
      getElem?_append_right (by omega), ht, getElem?_drop]
    congr 1
    omega

end

end Ae.Lib.Lists
