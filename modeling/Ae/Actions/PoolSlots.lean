/- source: actions/action_pool.h, tasks/details/task_subsctiption.h
   digest: A finished action leaves its slot unless another one finishes before the update. -/

import Ae.Lib.EventRun

set_option autoImplicit false

namespace Ae.Actions.PoolSlots
open Lib.EventRun

/-- How far the scheduler is with the task that `ts_` is linked to. -/
inductive Progress where
  | queued
  | stolen
  | invoked

/-- The slots of the pool that hold an action, the actions that have not finished, and the task
linked to `ts_`, which destroys the action that finished last. A task that `ts_` has let go of is
cancelled. -/
structure ActionPool where
  used : Nat
  unfinished : Nat
  ts : Option Progress

/-- A new action may finish in its constructor, and the scheduler may have no room for a task. An
`Update` steals the tasks, invokes them and frees them, and actions finish between. -/
inductive Event where
  | create (finished : Bool)
  | finish (room : Bool)
  | steal
  | invoke
  | free

namespace ActionPool

def start : ActionPool := ⟨0, 0, none⟩

variable (s : ActionPool)

def create (capacity : Nat) (finished : Bool) : ActionPool :=
  if s.used < capacity then
    { s with
      used := s.used + 1
      unfinished := if finished then s.unfinished else s.unfinished + 1 }
  else s

/-- `Destroy`: the assignment resets `ts_`, and the scheduler has given a new task or none. -/
def finish (room : Bool) : ActionPool :=
  if s.unfinished = 0 then s
  else { s with unfinished := s.unfinished - 1, ts := if room then some .queued else none }

def steal : ActionPool :=
  match s.ts with
  | some .queued => { s with ts := some .stolen }
  | _ => s

def invoke : ActionPool :=
  match s.ts with
  | some .stolen => { s with used := s.used - 1, ts := some .invoked }
  | _ => s

def free : ActionPool :=
  match s.ts with
  | some .invoked => { s with ts := none }
  | _ => s

def step (capacity : Nat) (s : ActionPool) : Event → ActionPool
  | .create finished => s.create capacity finished
  | .finish room => s.finish room
  | .steal => s.steal
  | .invoke => s.invoke
  | .free => s.free

def update : ActionPool := s.steal.invoke.free

def pending : Nat :=
  match s.ts with
  | some .queued | some .stolen => 1
  | some .invoked | none => 0

end ActionPool

open ActionPool

variable {s : ActionPool} (capacity : Nat)

/-- An action finishes after its construction, with no other waiting to be destroyed, and the
scheduler takes the task. -/
def Alone (capacity : Nat) (s : ActionPool) : Event → Prop
  | .create finished => s.used < capacity → finished = false
  | .finish room => s.unfinished ≠ 0 → s.pending = 0 ∧ room = true
  | _ => True

def Leaks (s : ActionPool) (n : Nat) : Prop :=
  s.used = s.unfinished + s.pending + n

theorem leaks_scheduler {n : Nat} (leaks : Leaks s n) :
    Leaks s.steal n ∧ Leaks s.invoke n ∧ Leaks s.free n := by
  obtain ⟨ud, u, _ | _ | _ | _⟩ := s
  case some.stolen =>
    have released : ud = u + 1 + n := leaks
    refine ⟨leaks, ?_, leaks⟩
    change ud - 1 = u + 0 + n
    omega
  all_goals exact ⟨leaks, leaks, leaks⟩

theorem leaks_step {n : Nat} (hl : Leaks s n) (e : Event) :
    ∃ m, Leaks (s.step capacity e) (n + m) ∧ (m = 0 ↔ Alone capacity s e) := by
  obtain ⟨steal, invoke, free⟩ := leaks_scheduler hl
  cases e with
  | create f =>
    rw [ActionPool.step, create, Alone]
    split
    · next room =>
      rw [Leaks] at hl
      refine ⟨if f then 1 else 0, ?_, by cases f <;> simp [room]⟩
      cases f <;> simp only [Leaks, ActionPool.pending] at hl ⊢ <;> grind
    · next full => exact ⟨0, hl, iff_of_true rfl fun room => absurd room full⟩
  | finish room =>
    rw [ActionPool.step, finish, Alone]
    split
    · next hnl => exact ⟨0, hl, iff_of_true rfl fun hsl => absurd hnl hsl⟩
    · next hsl =>
      rw [Leaks] at hl
      refine ⟨s.pending + if room then 0 else 1, ?_, by cases room <;> simp [hsl]⟩
      cases room
      · change s.used = s.unfinished - 1 + 0 + (n + (s.pending + 1))
        omega
      · change s.used = s.unfinished - 1 + 1 + (n + (s.pending + 0))
        omega
  | steal => exact ⟨0, steal, iff_of_true rfl trivial⟩
  | invoke => exact ⟨0, invoke, iff_of_true rfl trivial⟩
  | free => exact ⟨0, free, iff_of_true rfl trivial⟩

theorem leaks_run {n : Nat} (hl : Leaks s n) (es : List Event) :
    ∃ m, Leaks (run (step capacity) s es) (n + m) ∧
      (m = 0 ↔ Along (step capacity) (Alone capacity) s es) := by
  induction es generalizing s n with
  | nil => exact ⟨0, hl, iff_of_true rfl trivial⟩
  | cons e es ih =>
    obtain ⟨f, hs, hal⟩ := leaks_step capacity hl e
    obtain ⟨l, hr, ha⟩ := ih hs
    refine ⟨f + l, Nat.add_assoc n f l ▸ hr, ?_⟩
    rw [Nat.add_eq_zero_iff, hal, ha]
    rfl

/-- After an `Update` as many slots are used as actions are unfinished, exactly where every action
has finished alone. -/
theorem slots_released_iff (events : List Event) :
    (run (step capacity) start events).update.used =
        (run (step capacity) start events).update.unfinished ↔
      Along (step capacity) (Alone capacity) start events := by
  obtain ⟨n, hl, ha⟩ := leaks_run capacity (s := start) (n := 0) rfl events
  have hu : Leaks (run (step capacity) start events).update (0 + n) :=
    (leaks_scheduler (leaks_scheduler (leaks_scheduler hl).1).2.1).2.2
  have hi : ∀ s : ActionPool, s.update.pending = 0 := by
    rintro ⟨ud, u, _ | _ | _ | _⟩ <;> rfl
  rw [Leaks, hi] at hu
  rw [← ha]
  omega

/-- Two actions finish before the update, and one slot stays used. -/
theorem second_finish_leaks :
    (run (step 2) start [.create false, .create false, .finish true, .finish true]).update =
      ⟨1, 0, none⟩ :=
  rfl

end Ae.Actions.PoolSlots
