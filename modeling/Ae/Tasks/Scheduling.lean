/- source: tasks/details/{manual_task_scheduler,task_queues,task_manager,task_subsctiption}.h
   digest: The scheduler of tasks, one step for each locked section and each unlocked access. -/

import Ae.Lib.EventRun
import Mathlib.Data.List.DropRight
import Mathlib.Logic.Function.Basic
import Mathlib.Order.BoundedOrder.Basic
import Mathlib.Order.Lattice

set_option autoImplicit false

namespace Ae.Tasks.Scheduling

/-- `IActive::active`: `kMagic`, zero, or the address of a subscription. -/
inductive Active where
  | magic
  | cancelled
  | linked (sub : Nat)
deriving DecidableEq

/-- What does not change of an accepted task: its place in the pool and, of a delayed task, the
time it expires. -/
structure GenericTask (T : Type) where
  slot : Nat
  expireAt : Option T
deriving DecidableEq

inductive Phase where
  | regular
  | delayed
deriving DecidableEq

/-- An `Update` on its way: the stolen tasks, those that the loop has still to look at, and
whether it has found the first of them active. `before` counts the tasks accepted before it. -/
structure Running (T : Type) where
  now : T
  phase : Phase
  before : Nat
  batch : List Nat
  left : List Nat
  checked : Bool
deriving DecidableEq

inductive Act (T : Type) where
  | invoked (id : Nat) (now : T)
  | cancelled (id : Nat)
deriving DecidableEq

/-- Tasks are numbered as they are accepted; a pointer to a task is its slot. `pool` tells which
task lives in a slot, and `delayed` keeps the expiration beside each task. A subscription holds a
pointer, and beside it the number of the task it was made for; `returned` are the calls whose
pointer is not taken by a subscription yet. What happened to tasks, and the count of tasks and
the time of the last `Update` that returned, are histories. -/
structure ManualTaskScheduler (T : Type) where
  pool : Nat → Option Nat
  tasks : List (GenericTask T)
  active : Nat → Active
  regular : List Nat
  delayed : List (T × Nat)
  trigger : Bool
  running : Option (Running T)
  subs : Nat → Option (Nat × Nat)
  returned : List Nat
  acts : List (Act T)
  last : Option (Nat × T)

/-- `slot` is what the pool gives; where it is taken, the pool has nothing to give. -/
inductive Event (T : Type) where
  | task (slot : Nat)
  | delayedTask (slot : Nat) (tp : T)
  | attach (sub id : Nat)
  | reset (sub : Nat)
  | update (now : T)
  | check
  | invoke
  | next

namespace ManualTaskScheduler

variable {T : Type}

def start : ManualTaskScheduler T :=
  ⟨fun _ => none, [], fun _ => .magic, [], [], false, none, fun _ => none, [], [], none⟩

variable (s : ManualTaskScheduler T)

def emplace (t : GenericTask T) : ManualTaskScheduler T :=
  { s with
    pool := Function.update s.pool t.slot (some s.tasks.length)
    tasks := s.tasks ++ [t]
    active := Function.update s.active s.tasks.length .magic
    returned := s.returned ++ [s.tasks.length] }

def admits (capacity : Nat) (s : ManualTaskScheduler T) (slot size : Nat) : Prop :=
  slot < capacity ∧ s.pool slot = none ∧ size ≠ capacity

instance (capacity : Nat) (s : ManualTaskScheduler T) (slot size : Nat) :
    Decidable (s.admits capacity slot size) :=
  inferInstanceAs (Decidable (_ ∧ _ ∧ _))

def task (capacity : Nat) (s : ManualTaskScheduler T) (slot : Nat) : ManualTaskScheduler T :=
  if s.admits capacity slot s.regular.length then
    { s.emplace ⟨slot, none⟩ with regular := s.regular ++ [s.tasks.length], trigger := true }
  else { s with trigger := true }

def setActive (slot : Nat) (a : Active) : ManualTaskScheduler T :=
  match s.pool slot with
  | none => s
  | some id => { s with active := Function.update s.active id a }

def reset (sub : Nat) : ManualTaskScheduler T :=
  match s.subs sub with
  | none => s
  | some (slot, id) =>
    { s.setActive slot .cancelled with
      subs := Function.update s.subs sub none
      acts := s.acts ++ [.cancelled id] }

/-- The link of a subscription to the pointer that a call returned. -/
def link (sub id slot : Nat) : ManualTaskScheduler T :=
  { s.setActive slot (.linked sub) with
    subs := Function.update s.subs sub (some (slot, id))
    returned := s.returned.erase id }

/-- A subscription takes the pointer that a call returned, after it let go of its own. -/
def attach (sub id : Nat) : ManualTaskScheduler T :=
  match s.tasks[id]? with
  | none => s
  | some t => if id ∈ s.returned then (s.reset sub).link sub id t.slot else s

/-- The first locked section of `Update`. -/
def update (now : T) : ManualTaskScheduler T :=
  match s.running with
  | some _ => s
  | none =>
    { s with
      trigger := false
      regular := []
      running := some ⟨now, .regular, s.tasks.length, s.regular, s.regular, false⟩ }

def check : ManualTaskScheduler T :=
  match s.running with
  | none => s
  | some r =>
    match r.checked, r.left with
    | false, id :: left =>
      if s.active id = .cancelled then { s with running := some { r with left := left } }
      else { s with running := some { r with checked := true } }
    | _, _ => s

def invoke : ManualTaskScheduler T :=
  match s.running with
  | none => s
  | some r =>
    match r.checked, r.left with
    | true, id :: left =>
      { s with
        running := some { r with left := left, checked := false }
        acts := s.acts ++ [.invoked id r.now] }
    | _, _ => s

def free (ids : List Nat) : ManualTaskScheduler T :=
  { s with
    pool := fun slot => (s.pool slot).filter fun id => !ids.contains id
    subs := fun sub => if ids.any fun id => s.active id = .linked sub then none else s.subs sub }

section

variable [LinearOrder T]

/-- `DelayedTaskQueue::Add`: behind the last task that expires later. -/
def insertDelayed (tp : T) (id : Nat) (delayed : List (T × Nat)) : List (T × Nat) :=
  (delayed.rdropWhile fun p => !decide (tp < p.1)) ++
    (tp, id) :: delayed.rtakeWhile fun p => !decide (tp < p.1)

def delayedTask (capacity : Nat) (s : ManualTaskScheduler T) (slot : Nat) (tp : T) :
    ManualTaskScheduler T :=
  if s.admits capacity slot s.delayed.length then
    { s.emplace ⟨slot, some tp⟩ with
      delayed := insertDelayed tp s.tasks.length s.delayed
      trigger := true }
  else { s with trigger := true }

variable [OrderTop T]

/-- The second and the third locked section of `Update`: the tasks of the batch are freed, and
the expired delayed tasks are stolen, or the time to wake up is returned. -/
def next (s : ManualTaskScheduler T) : ManualTaskScheduler T :=
  match s.running with
  | none => s
  | some r =>
    match r.left, r.phase with
    | [], .regular =>
      let stolen := (s.delayed.rtakeWhile fun p => decide (p.1 ≤ r.now)).map Prod.snd
      { s.free r.batch with
        delayed := s.delayed.rdropWhile fun p => decide (p.1 ≤ r.now)
        running := some ⟨r.now, .delayed, r.before, stolen, stolen, false⟩ }
    | [], .delayed =>
      { s.free r.batch with
        running := none
        last := some (r.before, (s.delayed.getLast?.map Prod.fst).getD ⊤) }
    | _, _ => s

def step (capacity : Nat) (s : ManualTaskScheduler T) : Event T → ManualTaskScheduler T
  | .task slot => s.task capacity slot
  | .delayedTask slot tp => s.delayedTask capacity slot tp
  | .attach sub id => s.attach sub id
  | .reset sub => s.reset sub
  | .update now => s.update now
  | .check => s.check
  | .invoke => s.invoke
  | .next => s.next

end

end ManualTaskScheduler

section

open ManualTaskScheduler

variable {T : Type} (s : ManualTaskScheduler T)

def ManualTaskScheduler.left : List Nat :=
  s.running.elim [] Running.left

def ManualTaskScheduler.batch : List Nat :=
  s.running.elim [] Running.batch

def Waits (id : Nat) : Prop :=
  id ∈ s.regular ∨ id ∈ s.delayed.map Prod.snd ∨ id ∈ s.left

def Settled (id : Nat) : Prop :=
  (∃ now, .invoked id now ∈ s.acts) ∨ .cancelled id ∈ s.acts

/-- What the scheduler owes at every moment. -/
structure Exact [LE T] (s : ManualTaskScheduler T) : Prop where
  /-- No invocation follows another invocation or the cancellation of the same task. -/
  once : s.acts.Pairwise fun earlier later => ∀ id now, later = .invoked id now →
    earlier ≠ .cancelled id ∧ ∀ before, earlier ≠ .invoked id before
  /-- A delayed task is invoked by an `Update` at or after its time. -/
  due : ∀ id now slot e, .invoked id now ∈ s.acts → s.tasks[id]? = some ⟨slot, some e⟩ → e ≤ now
  /-- No accepted task is lost. -/
  kept : ∀ id < s.tasks.length, Waits s id ∨ Settled s id
  /-- An `Update` that has returned has dealt with all regular tasks accepted before it. -/
  finished : ∀ before w, s.last = some (before, w) → ∀ id < before, ∀ slot,
    s.tasks[id]? = some ⟨slot, none⟩ → Settled s id
  /-- Without a trigger nothing is to be done before the returned time. -/
  awake : s.running = none → s.trigger = false → ∀ before w, s.last = some (before, w) →
    s.regular = [] ∧ ∀ p ∈ s.delayed, w ≤ p.1

/-- The subscription is not that of the task that the loop has found active and is about to
invoke. -/
def InTime (sub : Nat) : Prop :=
  ∀ r id left slot owner, s.running = some r → r.checked = true → r.left = id :: left →
    s.subs sub = some (slot, owner) → owner ≠ id

/-- A pointer is taken while its task lives, and no subscription is reset between the check and
the invocation of its task. -/
def Orderly : Event T → Prop
  | .attach sub id =>
    InTime s sub ∧ (id ∈ s.returned → ∀ t, s.tasks[id]? = some t → s.pool t.slot = some id)
  | .reset sub => InTime s sub
  | _ => True

end

end Ae.Tasks.Scheduling
