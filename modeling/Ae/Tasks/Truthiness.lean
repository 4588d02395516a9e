/- source: tasks/details/{task,task_subsctiption,manual_task_scheduler}.h,
     cloud_connections/ping_cloud_servers.cpp
   digest: A subscription stays true from the invocation of its task to the end of the batch. -/

import Ae.Tasks.Scheduling

set_option autoImplicit false

namespace Ae.Tasks.Truthiness
open Function Lib.EventRun
open Scheduling (Active)

/-- How far the scheduler is with a task: `passed` means that the loop of `UpdateTasks` has looked
at it, and `freed` that the batch is over. -/
inductive Place where
  | queued
  | stolen
  | passed
  | freed
deriving DecidableEq

/-- Tasks are numbered as they are accepted, and a pointer to a task is its number. The task last
assigned to each subscription, and which tasks were invoked and cancelled, are histories. Unlike
in `ManualTaskScheduler` there are no slots, so no pointer to a freed task either. -/
structure Scheduler where
  count : Nat
  place : Nat → Place
  active : Nat → Active
  subs : Nat → Option Nat
  assigned : Nat → Option Nat
  invoked : List Nat
  cancelled : List Nat

/-- A pointer that `Task` or `DelayedTask` returned is assigned once, while its task exists. An
`Update` steals some of the tasks, visits each of them and frees them. -/
inductive Event where
  | task
  | assign (sub id : Nat)
  | move (sub other : Nat)
  | reset (sub : Nat)
  | steal (ids : List Nat)
  | visit (id : Nat)
  | free

namespace Scheduler

def start : Scheduler :=
  ⟨0, fun _ => .queued, fun _ => .magic, fun _ => none, fun _ => none, [], []⟩

variable (s : Scheduler)

def reset (sub : Nat) : Scheduler :=
  match s.subs sub with
  | none => s
  | some id =>
    { s with
      active := update s.active id .cancelled
      subs := update s.subs sub none
      cancelled := id :: s.cancelled }

def link (sub id : Nat) : Scheduler :=
  { s with
    active := update s.active id (.linked sub)
    subs := update s.subs sub (some id)
    assigned := update s.assigned sub (some id) }

def assign (sub id : Nat) : Scheduler :=
  if id < s.count ∧ s.place id ≠ .freed ∧ s.active id = .magic then (s.reset sub).link sub id else s

/-- `TaskSubscription::operator=(TaskSubscription&&)`; into a new subscription it is the move
constructor. -/
def move (sub other : Nat) : Scheduler :=
  if sub = other then s
  else
    let dropped := s.reset sub
    match dropped.subs other with
    | none =>
      { dropped with assigned := update (update s.assigned sub (s.assigned other)) other none }
    | some id =>
      let linked := dropped.link sub id
      { linked with
        subs := update linked.subs other none
        assigned := update linked.assigned other none }

def steal (ids : List Nat) : Scheduler :=
  { s with place := fun id =>
      if id ∈ ids ∧ id < s.count ∧ s.place id = .queued then .stolen else s.place id }

def visit (id : Nat) : Scheduler :=
  if s.place id = .stolen then
    { s with
      place := update s.place id .passed
      invoked := if s.active id = .cancelled then s.invoked else id :: s.invoked }
  else s

def free : Scheduler :=
  { s with
    place := fun id => if s.place id = .passed then .freed else s.place id
    subs := fun sub =>
      if (List.range s.count).any fun id => s.place id = .passed ∧ s.active id = .linked sub then
        none
      else s.subs sub }

def step : Event → Scheduler
  | .task => { s with count := s.count + 1 }
  | .assign sub id => s.assign sub id
  | .move sub other => s.move sub other
  | .reset sub => s.reset sub
  | .steal ids => s.steal ids
  | .visit id => s.visit id
  | .free => s.free

def truthy (sub : Nat) : Bool :=
  match s.subs sub with
  | none => false
  | some id => s.active id ≠ .cancelled

end Scheduler

open Scheduler

/-- The subscription is true just as long as its task is neither invoked nor cancelled. -/
def Tells (s : Scheduler) (sub : Nat) : Prop :=
  s.truthy sub ↔ ∃ id, s.assigned sub = some id ∧ id ∉ s.invoked ∧ id ∉ s.cancelled

/-- The task was invoked in the batch that is being updated, and not cancelled. -/
def Lingers (s : Scheduler) (sub : Nat) : Prop :=
  ∃ id, s.assigned sub = some id ∧ id ∈ s.invoked ∧ id ∉ s.cancelled ∧ s.place id = .passed

variable {s : Scheduler}

structure Tied (s : Scheduler) : Prop where
  held : ∀ sub id, s.subs sub = some id →
    s.active id = .linked sub ∧ s.assigned sub = some id ∧ s.place id ≠ .freed ∧ id < s.count
  back : ∀ sub id, s.active id = .linked sub → s.place id ≠ .freed → s.subs sub = some id
  gone : ∀ sub id, s.assigned sub = some id → s.subs sub = none →
    id ∈ s.cancelled ∨ id ∈ s.invoked ∧ s.place id = .freed
  cancelled : ∀ id, s.active id = .cancelled ↔ id ∈ s.cancelled
  invoked : ∀ id, id ∈ s.invoked → s.place id = .passed ∨ s.place id = .freed
  passed : ∀ id, s.place id = .passed → id ∈ s.cancelled ∨ id ∈ s.invoked
  fresh : ∀ id, s.count ≤ id → s.place id = .queued

theorem tied_start : Tied start := by
  constructor <;> simp [start]

theorem Tied.reset (ht : Tied s) (sub : Nat) : Tied (s.reset sub) := by
  rw [Scheduler.reset]
  split
  · exact ht
  · next id held =>
    obtain ⟨hb, hl, ha, hk⟩ := ht.held sub id held
    constructor <;> grind [Function.update, Tied]

theorem reset_unheld (s : Scheduler) (sub : Nat) : (s.reset sub).subs sub = none := by
  rw [reset]
  split
  · assumption
  · exact update_self ..

section

variable (ht : Tied s)
include ht

theorem Tied.assign (sub id : Nat) : Tied (s.assign sub id) := by
  rw [Scheduler.assign]
  split
  · next untaken =>
    have hd := ht.reset sub
    have hu := reset_unheld s sub
    -- no subscription holds the task, so the reset spares it
    have hs : (s.reset sub).count = s.count ∧ (s.reset sub).place = s.place ∧
        (s.reset sub).active id = .magic := by
      rw [Scheduler.reset]
      split
      · exact ⟨rfl, rfl, untaken.2.2⟩
      · next own hh =>
        refine ⟨rfl, rfl, (update_of_ne ?_ ..).trans untaken.2.2⟩
        rintro rfl
        cases untaken.2.2.symm.trans (ht.held sub id hh).1
    rw [link]
    constructor <;> grind [Function.update, Tied]
  · exact ht

theorem Tied.move (sub o : Nat) : Tied (s.move sub o) := by
  rw [Scheduler.move]
  split
  · exact ht
  · next hd =>
    have dropped := ht.reset sub
    have hu := reset_unheld s sub
    dsimp only
    split
    · next hnh =>
      constructor <;> grind [Function.update, Tied, Scheduler.reset]
    · next id held =>
      rw [link]
      constructor <;> grind [Function.update, Tied]

theorem Tied.steal (ids : List Nat) : Tied (s.steal ids) := by
  rw [Scheduler.steal]
  constructor <;> grind [Tied]

theorem Tied.visit (id : Nat) : Tied (s.visit id) := by
  rw [Scheduler.visit]
  split
  · constructor <;> grind [Function.update, Tied]
  · exact ht

theorem Tied.free : Tied s.free := by
  rw [Scheduler.free]
  constructor <;> grind [Tied]

theorem Tied.step (e : Event) : Tied (s.step e) := by
  cases e with
  | task =>
    rw [Scheduler.step]
    constructor <;> grind [Tied]
  | assign sub id => exact ht.assign sub id
  | move sub o => exact ht.move sub o
  | reset sub => exact ht.reset sub
  | steal ids => exact ht.steal ids
  | visit id => exact ht.visit id
  | free => exact ht.free

end

/-- At every moment a subscription tells whether its task has still to run, except between the
invocation of the task and the end of the batch. -/
theorem truthy_tells_iff (events : List Event) (sub : Nat) :
    Tells (run step start events) sub ↔ ¬ Lingers (run step start events) sub := by
  have ht : Tied (run step start events) :=
    run_of_invariant (fun _ e hk _ => hk.step e) tied_start along_true
  generalize run step start events = s at ht
  rw [Tells, truthy, Lingers]
  cases held : s.subs sub with
  | none => grind [Tied]
  | some id => grind [Tied]

/-- Two tasks of one batch: the second finds the subscription of the first still true. -/
theorem lingers_in_batch :
    ¬ Tells (run step start [.task, .assign 0 0, .task, .steal [0, 1], .visit 0]) 0 := by
  intro ht
  obtain ⟨id, hl, hp, -⟩ := ht.mp rfl
  obtain rfl : 0 = id := Option.some.inj hl
  exact hp (by decide)

end Ae.Tasks.Truthiness
