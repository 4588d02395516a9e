/- source: executors/with_timeout.h,
     tasks/details/{manual_task_scheduler,task_subsctiption}.h
   digest: A timeout and the results of the child exclude each other in one receiver. -/

import Ae.Tasks.Truthiness

set_option autoImplicit false

namespace Ae.Executors.WithTimeout
open Lib.EventRun
open Tasks.Truthiness (Place)

variable {R : Type}

inductive Completion (R : Type) where
  | child (result : R)
  | timeout

/-- `Operation`: the timeout task, whether it is active, `reset_flag`, and what the receiver was
given. -/
structure Operation (R : Type) where
  started : Bool
  task : Option Place
  active : Bool
  resetFlag : Bool
  received : List (Completion R)

/-- `room` tells whether the scheduler takes the timeout task. The task is stolen with its batch,
comes to its turn and is freed; the child completes in between, any number of times. -/
inductive Event (R : Type) where
  | start (room : Bool)
  | child (result : R)
  | steal
  | visit
  | free

namespace Operation

def connected : Operation R := ⟨false, none, false, false, []⟩

variable (s : Operation R)

def reset : Operation R :=
  { s with resetFlag := true, active := if s.task.isSome then false else s.active }

def start (room : Bool) : Operation R :=
  if s.started then s
  else { s with started := true, task := if room then some .queued else none, active := true }

def child (result : R) : Operation R :=
  if s.started && !s.resetFlag then { s.reset with received := s.received ++ [.child result] }
  else s

def visit : Operation R :=
  if s.task = some .stolen then
    let s' := if s.active then { s.reset with received := s.received ++ [.timeout] } else s
    { s' with task := some .passed }
  else s

def step : Event R → Operation R
  | .start room => s.start room
  | .child result => s.child result
  | .steal => if s.task = some .queued then { s with task := some .stolen } else s
  | .visit => s.visit
  | .free => if s.task = some .passed then { s with task := none } else s

end Operation

open Operation

/-- What the events after the start bring, in their order: the completions of the child, and the
turn of the timeout task, which the loop of `UpdateTasks` comes to once. -/
def completions : Option Place → List (Event R) → List (Completion R)
  | _, [] => []
  | task, .child result :: events => .child result :: completions task events
  | some .queued, .steal :: events => completions (some .stolen) events
  | some .stolen, .visit :: events => .timeout :: completions (some .passed) events
  | task, _ :: events => completions task events

def completionsOfRun : List (Event R) → List (Completion R)
  | [] => []
  | .start room :: events => completions (if room then some .queued else none) events
  | _ :: events => completionsOfRun events

structure Completed (s : Operation R) : Prop where
  started : s.started = true
  flag : s.resetFlag = true
  inactive : s.task.isSome = true → s.active = false

theorem Completed.step {s : Operation R} (done : Completed s) (e : Event R) :
    Completed (s.step e) ∧ (s.step e).received = s.received := by
  obtain ⟨started, flag, inactive⟩ := done
  cases e with
  | start room =>
    rw [Operation.step, start, if_pos started]
    exact ⟨⟨started, flag, inactive⟩, rfl⟩
  | child result =>
    rw [Operation.step, child, if_neg (by simp [flag])]
    exact ⟨⟨started, flag, inactive⟩, rfl⟩
  | steal | free =>
    rw [Operation.step]
    split <;> exact ⟨⟨started, flag, by grind⟩, rfl⟩
  | visit =>
    rw [Operation.step, visit]
    split
    · next stolen =>
      have idle : s.active = false := inactive (by rw [stolen]; rfl)
      simp only [idle]
      exact ⟨⟨started, flag, fun _ => idle⟩, rfl⟩
    · exact ⟨⟨started, flag, inactive⟩, rfl⟩

theorem Completed.received_run {s : Operation R} (done : Completed s) (events : List (Event R)) :
    (run Operation.step s events).received = s.received := by
  induction events generalizing s with
  | nil => rfl
  | cons e events ih => exact (ih (done.step e).1).trans (done.step e).2

/-- While nothing has completed, the timeout task waits for its turn. -/
structure Running (s : Operation R) : Prop where
  started : s.started = true
  flag : s.resetFlag = false
  active : s.active = true
  waits : s.task ≠ some .passed
  received : s.received = []

theorem Running.received_run {s : Operation R} (running : Running s) (events : List (Event R)) :
    (run step s events).received = (completions s.task events).head?.toList := by
  induction events generalizing s with
  | nil => simp [run, running.received, completions]
  | cons e events ih =>
    obtain ⟨started, flag, active, waits, received⟩ := running
    change (run step (s.step e) events).received = _
    cases e with
    | start room =>
      rw [Operation.step, start, if_pos started, completions]
      · exact ih ⟨started, flag, active, waits, received⟩
      all_goals simp
    | child result =>
      have done : Completed (s.child result) := by
        constructor <;> simp +contextual [child, reset, started, flag, Option.isSome_iff_ne_none]
      rw [Operation.step, done.received_run, child, completions]
      simp [started, flag, received]
    | steal =>
      rw [Operation.step]
      split
      · next queued =>
        rw [queued, completions]
        exact ih ⟨started, flag, active, by simp, received⟩
      · next other =>
        rw [completions]
        · exact ih ⟨started, flag, active, waits, received⟩
        all_goals grind
    | visit =>
      rw [Operation.step, visit]
      split
      · next stolen =>
        have done : Completed { s.reset with
            received := s.received ++ [.timeout], task := some .passed } := by
          constructor <;> simp [reset, started, stolen]
        rw [stolen, completions]
        exact (done.received_run events).trans (by simp [received])
      · next other =>
        rw [completions]
        · exact ih ⟨started, flag, active, waits, received⟩
        all_goals grind
    | free =>
      rw [Operation.step, if_neg waits, completions]
      · exact ih ⟨started, flag, active, waits, received⟩
      all_goals simp

/-- The receiver is completed at most once: with the first completion of the child if it comes
before the turn of the timeout task, and with the timeout otherwise. -/
theorem completes_with_first (events : List (Event R)) :
    (run step connected events).received = (completionsOfRun events).head?.toList := by
  induction events with
  | nil => rfl
  | cons e events ih =>
    cases e with
    | start room =>
      rw [completionsOfRun]
      refine Running.received_run (s := connected.start room) ⟨rfl, rfl, rfl, ?_, rfl⟩ events
      cases room with
      | true | false => simp [start, connected]
    | child result | steal | visit | free => exact ih

end Ae.Executors.WithTimeout
