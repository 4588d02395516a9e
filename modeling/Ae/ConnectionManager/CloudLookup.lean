/- source: connection_manager/get_cloud_aether.cpp, actions/action_pool.h
   digest: A cloud lookup that succeeds is never finished and answers every later update again. -/

import Ae.Lib.EventRun

set_option autoImplicit false

namespace Ae.ConnectionManager.CloudLookup
open Lib.EventRun

variable {U C : Type} [DecidableEq U]

/-- `GetCloudFromAether` in its `ActionPool`. `destroying` is the task that gives the slot back;
the emitted results are a history. -/
structure GetCloudFromAether (U C : Type) where
  clientUid : U
  finished : Bool
  destroying : Bool
  released : Bool
  results : List (Except Int C)

inductive Event (U C : Type) where
  | cloudUpdate (uid : U) (res : Except Int C)
  | requestResult (success : Bool)
  | destroy

namespace GetCloudFromAether

def start (uid : U) : GetCloudFromAether U C := ⟨uid, false, false, false, []⟩

variable (s : GetCloudFromAether U C)

def emit (res : Except Int C) : GetCloudFromAether U C :=
  { s with results := s.results ++ [res] }

def finish : GetCloudFromAether U C :=
  { s with finished := true, destroying := true }

def onRequestResult (success : Bool) : GetCloudFromAether U C :=
  if success then s else (s.emit (.error (-1))).finish

/-- `CloudUpdate`; `Succeeded` of the request emits a success in turn. -/
def onCloudUpdate (uid : U) (res : Except Int C) : GetCloudFromAether U C :=
  if uid = s.clientUid then (s.emit res).onRequestResult true else s

def step : Event U C → GetCloudFromAether U C
  | .cloudUpdate uid res => if s.released then s else s.onCloudUpdate uid res
  | .requestResult success => if s.released then s else s.onRequestResult success
  | .destroy => if s.destroying then { s with destroying := false, released := true } else s

end GetCloudFromAether

open GetCloudFromAether

structure AnswersOnce (s : GetCloudFromAether U C) : Prop where
  once : s.results.length ≤ 1
  finished : s.finished = true ↔ s.results ≠ []

/-- No update for the action's uid, and no failure after another one, reaches the action. -/
def Spared (s : GetCloudFromAether U C) : Event U C → Prop
  | .cloudUpdate uid _ => s.released = true ∨ uid ≠ s.clientUid
  | .requestResult success => s.released = true ∨ success = true ∨ s.finished = false
  | .destroy => True

section

variable {s : GetCloudFromAether U C}

omit [DecidableEq U] in
theorem AnswersOnce.unfinished_iff (ha : AnswersOnce s) : s.finished = false ↔ s.results = [] := by
  rw [← Bool.not_eq_true, ha.finished, Ne, not_not]

omit [DecidableEq U] in
theorem answersOnce_emit_iff (res : Except Int C) (finished destroying : Bool) :
    AnswersOnce { s.emit res with finished := finished, destroying := destroying } ↔
      s.results = [] ∧ finished = true := by
  have hl : (s.results ++ [res]).length ≤ 1 ↔ s.results = [] := by
    rw [List.length_append, List.length_singleton, ← List.length_eq_zero_iff]
    omega
  have ha : s.results ++ [res] ≠ [] := by simp
  constructor
  · intro han
    exact ⟨hl.mp han.once, han.finished.mpr ha⟩
  · rintro ⟨h1, hd⟩
    exact ⟨hl.mpr h1, iff_of_true hd ha⟩

theorem AnswersOnce.step_iff (ha : AnswersOnce s) (e : Event U C) :
    AnswersOnce (s.step e) ↔ Spared s e := by
  cases e with
  | cloudUpdate uid res =>
    rw [step, Spared]
    split
    · next released => exact iff_of_true ha (.inl released)
    · next hl =>
      rw [or_iff_right hl, onCloudUpdate]
      split
      · next he =>
        refine iff_of_false (fun hag => ?_) fun hn => hn he
        obtain ⟨h1, hd⟩ := (answersOnce_emit_iff res s.finished s.destroying).mp hag
        exact ha.finished.mp hd h1
      · next hn => exact iff_of_true ha hn
  | requestResult su =>
    rw [step, Spared]
    split
    · next released => exact iff_of_true ha (.inl released)
    · next hl =>
      rw [or_iff_right hl, onRequestResult]
      split
      · next hs => exact iff_of_true ha (.inl hs)
      · next failed =>
        rw [or_iff_right failed, ha.unfinished_iff]
        exact (answersOnce_emit_iff _ true true).trans (and_iff_left rfl)
  | destroy =>
    rw [step]
    split
    · exact iff_of_true ⟨ha.once, ha.finished⟩ trivial
    · exact iff_of_true ha trivial

/-- A lookup answers once and finishes with its answer exactly when no update for its uid reaches
it and its request fails at most once before its slot is released. -/
theorem answers_once_iff_spared (uid : U) (events : List (Event U C)) :
    Always step AnswersOnce (.start uid) events ↔ Along step Spared (.start uid) events :=
  always_iff_along (A := fun _ _ => True) (fun _ e ha _ => ha.step_iff e)
    ⟨Nat.zero_le 1, by simp [start]⟩ along_true

def foundTwice : List (Event Nat Nat) := [.cloudUpdate 7 (.ok 1), .destroy, .cloudUpdate 7 (.ok 2)]

/-- The action stays in its slot and reports the second update as a new answer. -/
theorem found_lookup_answers_again :
    let s := run step (.start 7) foundTwice
    s.finished = false ∧ s.released = false ∧ s.results = [.ok 1, .ok 2] ∧
      ¬ Always step AnswersOnce (.start 7) foundTwice := by
  refine ⟨rfl, rfl, rfl, ?_⟩
  rintro ⟨-, ha, -⟩
  cases ha.finished.mpr (by decide)

end

end Ae.ConnectionManager.CloudLookup
