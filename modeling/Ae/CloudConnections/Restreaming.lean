/- source: cloud_connections/cloud_server_connections.cpp,
     server_connections/server_connection.cpp
   digest: A restreamed server that fails at once is erased from the vector being walked. -/

import Ae.CloudConnections.Selecting

/-!
`Restream` walks over `selected_servers_` with the end taken before the first turn. A server
that reports a link error while it is restreamed runs the handler of `SubscribeToServerState`,
which erases it from the same vector. The walk is therefore over the cells of the vector: the
erasure moves the later elements one cell to the front, and the cells behind the new end
keep their last values.
-/

set_option autoImplicit false

namespace Ae.CloudConnections.Restreaming
open List Selecting

variable {n : Nat}

/-- The connections, the cells of `selected_servers_`, the servers restreamed so far, and
whether a cell behind the end was read. -/
structure Walk (n : Nat) where
  connections : CloudServerConnections n
  cells : List (Fin n)
  restreamed : List (Fin n)
  outside : Bool

variable (turn : Turn n) (fails : Fin n → Bool)

def visit (w : Walk n) (position : Nat) : Walk n :=
  let outside := w.outside || decide (w.connections.selected.length ≤ position)
  match w.cells[position]? with
  | none => { w with outside }
  | some server =>
    let restreamed := w.restreamed ++ [server]
    if fails server then
      let connections := w.connections.badServer turn server
      let cells := connections.selected ++ w.cells.drop connections.selected.length
      ⟨connections, cells, restreamed, outside⟩
    else { w with restreamed, outside }

variable (s : CloudServerConnections n)

/-- The loop up to a position; the end of the loop is the size before the first turn. -/
def walk (positions : Nat) : Walk n :=
  (List.range positions).foldl (visit turn fails) ⟨s, s.selected, [], false⟩

def restream : Walk n :=
  walk turn fails s s.selected.length

/-- The servers restreamed are those selected at the call, each as often as it is listed
there, and every turn reads inside the current list. -/
def ReachesOnce : Prop :=
  (restream turn fails s).restreamed.Perm s.selected ∧ (restream turn fails s).outside = false

section

variable {turn : Turn n} {fails : Fin n → Bool} {s : CloudServerConnections n}

theorem walk_succ (k : Nat) :
    walk turn fails s (k + 1) = visit turn fails (walk turn fails s k) k := by
  rw [walk, walk, range_succ, foldl_append, foldl_cons, foldl_nil]

variable (turn fails) in
theorem visit_length_le (w : Walk n) (p : Nat) :
    (visit turn fails w p).connections.selected.length ≤ w.connections.selected.length := by
  unfold visit
  cases w.cells[p]? with
  | none => exact le_rfl
  | some se =>
    simp only
    split
    · exact length_filter_le ..
    · exact le_rfl

variable (turn fails) in
theorem visit_outside {w : Walk n} {p : Nat}
    (hb : w.connections.selected.length ≤ p) : (visit turn fails w p).outside = true := by
  unfold visit
  cases w.cells[p]? with
  | none => simp [hb]
  | some se =>
    simp only
    split
    · simp [hb]
    · simp [hb]

variable (turn fails s) in
theorem walk_length_le {j k : Nat} (le : j ≤ k) :
    (walk turn fails s k).connections.selected.length ≤
      (walk turn fails s j).connections.selected.length := by
  induction k, le using Nat.le_induction with
  | base => exact le_rfl
  | succ k _ ih =>
    rw [walk_succ]
    exact (visit_length_le turn fails _ k).trans ih

theorem walk_quiet {k : Nat} (hw : k ≤ s.selected.length)
    (hq : ∀ se ∈ s.selected.take k, fails se = false) :
    walk turn fails s k = ⟨s, s.selected, s.selected.take k, false⟩ := by
  induction k with
  | zero => rfl
  | succ k ih =>
    have hh : k < s.selected.length := hw
    have hl : s.selected.take (k + 1) = s.selected.take k ++ [s.selected[k]] :=
      take_succ_eq_append_getElem hh
    rw [hl] at hq
    have hc : fails s.selected[k] = false :=
      hq _ (mem_append_right _ (mem_singleton_self _))
    rw [walk_succ, ih hh.le fun se hm =>
      hq se (mem_append_left _ hm)]
    simp only [visit, getElem?_eq_getElem hh, hc, Nat.not_le.mpr hh, hl]
    simp

end

/-- A failure before the last turn shortens the list, so the last turn reads behind its end. -/
theorem restream_outside_of_early_failure (turn : Turn n) {fails : Fin n → Bool}
    {s : CloudServerConnections n} {k : Nat} (he : k + 1 < s.selected.length)
    (hq : ∀ se ∈ s.selected.take k, fails se = false)
    (hf : fails s.selected[k] = true) : (restream turn fails s).outside = true := by
  have hs : (walk turn fails s (k + 1)).connections.selected.length < s.selected.length := by
    rw [walk_succ, walk_quiet (by omega) hq]
    simp only [visit, getElem?_eq_getElem (show k < s.selected.length by omega), hf, if_true]
    exact length_filter_lt_length_iff_exists.mpr
      ⟨s.selected[k], getElem_mem _, fun hk => absurd rfl (of_decide_eq_true hk)⟩
  have hl : s.selected.length = s.selected.length - 1 + 1 := by omega
  rw [restream, hl, walk_succ]
  refine visit_outside turn fails ?_
  have hkp := walk_length_le turn fails s (show k + 1 ≤ s.selected.length - 1 by omega)
  omega

/-- Every selected server is restreamed once exactly when none but the last of the list
fails while it is restreamed. -/
theorem restream_reaches_once_iff (s : CloudServerConnections n) (turn : Turn n)
    (fails : Fin n → Bool) :
    ReachesOnce turn fails s ↔ ∀ server ∈ s.selected.dropLast, fails server = false := by
  rw [dropLast_eq_take]
  constructor
  · rintro ⟨-, hi⟩
    -- by induction, no turn up to the last but one has a failure
    have hc : ∀ k ≤ s.selected.length - 1,
        ∀ server ∈ s.selected.take k, fails server = false := by
      intro k
      induction k with
      | zero => simp
      | succ k ih =>
        intro le
        have hq := ih (by omega)
        have hh : k < s.selected.length := by omega
        rw [take_succ_eq_append_getElem hh]
        intro server hm
        rcases mem_append.mp hm with hb | this
        · exact hq server hb
        · rw [mem_singleton.mp this]
          by_contra hf
          have ho := restream_outside_of_early_failure turn (by omega) hq
            (eq_true_of_ne_false hf)
          rw [hi] at ho
          cases ho
    exact hc _ (Nat.le_refl _)
  · intro hq
    have hw : (restream turn fails s).restreamed = s.selected ∧
        (restream turn fails s).outside = false := by
      rcases Nat.eq_zero_or_pos s.selected.length with hn | some
      · rw [restream, hn, length_eq_zero_iff.mp hn]
        exact ⟨rfl, rfl⟩
      · have hh : s.selected.length - 1 < s.selected.length := by omega
        have hl : s.selected.length = s.selected.length - 1 + 1 := by omega
        have hwh : s.selected.take (s.selected.length - 1) ++
            [s.selected[s.selected.length - 1]] = s.selected := by
          rw [← take_succ_eq_append_getElem hh, ← hl, take_length]
        rw [restream, hl, walk_succ, walk_quiet (by omega) hq]
        simp only [visit, getElem?_eq_getElem hh, hwh, Nat.not_le.mpr hh]
        split
        · exact ⟨rfl, rfl⟩
        · exact ⟨rfl, rfl⟩
    exact ⟨hw.1 ▸ Perm.refl _, hw.2⟩

/-- The first of three selected servers fails: the second is skipped, the third is
restreamed twice and the last turn reads behind the end of the list. -/
theorem restream_skips_second :
    let s := CloudServerConnections.start (insertionSorting (Fin 3)) 3 .quiet
    s.selected = [0, 1, 2] ∧ (restream .quiet (fun se => se.val = 0) s).restreamed = [0, 2, 2] ∧
      (restream .quiet (fun se => se.val = 0) s).outside = true := by
  decide

end Ae.CloudConnections.Restreaming
