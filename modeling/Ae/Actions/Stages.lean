/- source: actions/{actions_queue,action}.h
   digest: Stages run one after another, also where their factories push more of them. -/

import Ae.Lib.EventRun

set_option autoImplicit false

namespace Ae.Actions.Stages
open List Lib.EventRun

/-- Stages are numbered as they are pushed, and the action of a stage has the number of the stage.
`inFactory` tells that `running_stage_->RunStage` has called `factory_`, and `stageSub` names the
action whose `finished_event` the queue listens to. What was pushed, started and finished, and
which emissions have reached the queue, are histories. -/
structure ActionsQueue where
  queue : List Nat
  running : Option Nat
  inFactory : Bool
  stageSub : Option Nat
  pushed : Nat
  started : List Nat
  finished : List Nat
  notified : List Nat

/-- What the code around the queue does: all but `notify` may come from a factory, from the `Stop`
of an action or from another handler of a finished action. `returns` ends the factory, with or
without an action, and `notify` is the handler of the queue. -/
inductive Event where
  | push
  | stop
  | finish (k : Nat)
  | returns (action : Bool)
  | notify
deriving DecidableEq

namespace ActionsQueue

def start : ActionsQueue := ⟨[], none, false, none, 0, [], [], []⟩

variable (s : ActionsQueue)

def runStage : ActionsQueue :=
  match s.queue with
  | [] => s
  | k :: rest =>
    { s with queue := rest, running := some k, inFactory := true, started := s.started ++ [k] }

def push : ActionsQueue :=
  let emplaced := { s with queue := s.queue ++ [s.pushed], pushed := s.pushed + 1 }
  if s.running = none then emplaced.runStage else emplaced

/-- `Stop` drops the queue; the `Stop` of a running action is the action's own code. -/
def stop : ActionsQueue := { s with queue := [] }

def finish (k : Nat) : ActionsQueue :=
  if k ∈ s.started ∧ k ∉ s.finished then { s with finished := s.finished ++ [k] } else s

def returns (action : Bool) : ActionsQueue :=
  match s.running, s.inFactory with
  | some k, true =>
    if !action || k ∈ s.finished then
      { s with
        running := none
        inFactory := false
        stageSub := none
        finished := s.finished ++ [k] }.runStage
    else { s with inFactory := false, stageSub := some k }
  | _, _ => s

def notify : ActionsQueue :=
  match s.stageSub with
  | none => s
  | some k =>
    if k ∈ s.finished ∧ k ∉ s.notified then
      { s with notified := k :: s.notified, running := none }.runStage
    else s

def step : Event → ActionsQueue
  | .push => s.push
  | .stop => s.stop
  | .finish k => s.finish k
  | .returns action => s.returns action
  | .notify => s.notify

end ActionsQueue

open ActionsQueue

variable {s : ActionsQueue}

/-- The stages that wait once an event has pushed or dropped some, before one is started. -/
def queued (s : ActionsQueue) : Event → List Nat
  | .push => s.queue ++ [s.pushed]
  | .stop => []
  | _ => s.queue

theorem runStage_queue (s : ActionsQueue) : ∃ n, s.runStage.started = s.started ++ s.queue.take n ∧
    s.runStage.queue = s.queue.drop n ∧ s.runStage.pushed = s.pushed := by
  rw [runStage]
  cases hq : s.queue with
  | nil => exact ⟨0, (append_nil _).symm, hq, rfl⟩
  | cons k rest => exact ⟨1, rfl, rfl, rfl⟩

theorem step_queue (s : ActionsQueue) (e : Event) : ∃ n,
    (s.step e).started = s.started ++ (queued s e).take n ∧ (s.step e).queue = (queued s e).drop n ∧
      (s.step e).pushed = s.pushed + [e].count .push := by
  cases e <;> simp only [step, push, stop, finish, returns, notify] <;> (repeat' split) <;>
    first
      | exact runStage_queue _
      | exact ⟨0, (append_nil _).symm, rfl, rfl⟩

theorem step_stages (s : ActionsQueue) (e : Event) :
    (s.step e).started ++ (s.step e).queue = s.started ++ queued s e := by
  obtain ⟨n, started, queue, -⟩ := step_queue s e
  rw [started, queue, append_assoc, take_append_drop]

structure Ordered (s : ActionsQueue) : Prop where
  ordered : (s.started ++ s.queue).Pairwise (· < ·)
  known : ∀ k ∈ s.started ++ s.queue, k < s.pushed

theorem Ordered.step (ho : Ordered s) (e : Event) : Ordered (s.step e) := by
  obtain ⟨_, -, -, pushed⟩ := step_queue s e
  obtain ⟨ordered, known⟩ := ho
  rw [forall_mem_append] at known
  refine ⟨?_, ?_⟩ <;> rw [step_stages] <;> cases e <;> grind [queued]

structure Serial (s : ActionsQueue) : Prop where
  idle : s.running = none → s.queue = [] ∧ ∀ k ∈ s.started, k ∈ s.finished
  last : ∀ k, s.running = some k →
    ∃ earlier, s.started = earlier ++ [k] ∧ ∀ j ∈ earlier, j ∈ s.finished
  listens : ∀ k, s.stageSub = some k → k ∈ s.notified ∨ s.running = some k ∧ s.inFactory = false

theorem serial_runStage (hs : s.running = none) (he : ∀ k ∈ s.started, k ∈ s.finished)
    (hl : ∀ k, s.stageSub = some k → k ∈ s.notified) : Serial s.runStage := by
  rw [runStage]
  cases queue : s.queue with
  | nil => constructor <;> grind
  | cons k rest =>
    refine ⟨nofun, ?_, fun j sub => .inl (hl j sub)⟩
    rintro _ ⟨⟩
    exact ⟨s.started, rfl, he⟩

theorem Serial.push (hs : Serial s) : Serial s.push := by
  rw [ActionsQueue.push]
  split
  · exact serial_runStage (by grind) (by grind [Serial]) (by grind [Serial])
  · next busy => exact ⟨fun hst => absurd hst busy, hs.last, hs.listens⟩

theorem Serial.stop (hs : Serial s) : Serial s.stop :=
  ⟨fun hst => ⟨rfl, (hs.idle hst).2⟩, hs.last, hs.listens⟩

theorem Serial.finish (hs : Serial s) (k : Nat) : Serial (s.finish k) := by
  rw [ActionsQueue.finish]
  split
  · constructor <;> grind [Serial]
  · exact hs

theorem Serial.returns (hs : Serial s) (a : Bool) : Serial (s.returns a) := by
  rw [ActionsQueue.returns]
  split
  · next k running hi =>
    split
    · obtain ⟨e, eq, he⟩ := hs.last k running
      exact serial_runStage rfl (by grind) nofun
    · constructor <;> grind [Serial]
  · exact hs

theorem Serial.notify (hs : Serial s) : Serial s.notify := by
  rw [ActionsQueue.notify]
  split
  · exact hs
  · next k sub =>
    split
    · next he =>
      -- the action was listened to and not notified, so its stage is the running one
      have hr := ((hs.listens k sub).resolve_left he.2).1
      obtain ⟨e, eq, hen⟩ := hs.last k hr
      exact serial_runStage rfl (by grind) (by grind)
    · exact hs

theorem Serial.step (hs : Serial s) (e : Event) : Serial (s.step e) := by
  cases e with
  | push => exact hs.push
  | stop => exact hs.stop
  | finish k => exact hs.finish k
  | returns a => exact hs.returns a
  | notify => exact hs.notify

structure Beyond (n : Nat) (old : List Nat) (s : ActionsQueue) : Prop where
  pushed : n ≤ s.pushed
  queue : ∀ k ∈ s.queue, n ≤ k
  started : ∀ k ∈ s.started, k < n → k ∈ old

theorem Beyond.step {n : Nat} {old : List Nat} (hb : Beyond n old s) (e : Event) :
    Beyond n old (s.step e) := by
  obtain ⟨_, started, queue, pushed⟩ := step_queue s e
  have later : ∀ k ∈ queued s e, n ≤ k := by
    cases e <;> grind [Beyond, queued]
  constructor
  · exact pushed ▸ Nat.le_add_right_of_le hb.pushed
  · exact fun k hm => later k (mem_of_mem_drop (queue ▸ hm))
  · grind [Beyond, mem_of_mem_take]

theorem run_pushes {events : List Event} (hw : s.started ++ s.queue = range s.pushed)
    (hn : .stop ∉ events) : (run step s events).started ++ (run step s events).queue =
      range (s.pushed + events.count .push) := by
  induction events generalizing s with
  | nil => exact hw
  | cons e events ih =>
    obtain ⟨_, -, -, pushed⟩ := step_queue s e
    have next : (s.step e).started ++ (s.step e).queue = range (s.step e).pushed := by
      rw [step_stages, pushed]
      cases e with
      | push => rw [queued, ← append_assoc, hw, ← range_succ]; rfl
      | stop => exact absurd mem_cons_self hn
      | _ => exact hw
    have later := ih next (not_mem_of_not_mem_cons hn)
    rw [pushed, Nat.add_assoc, ← count_append] at later
    exact later

/-- Whatever happens, stages are started in the order of their pushes and each once, all but the
last have finished, stages wait only while one is running, and those that waited at a `Stop` are
never started. Without a `Stop` all that were pushed have started or wait. -/
theorem stages_serialised (events : List Event) :
    (run step start events).started.Pairwise (· < ·) ∧
    (∀ k ∈ (run step start events).started.dropLast, k ∈ (run step start events).finished) ∧
    ((run step start events).queue = [] ∨ (run step start events).running ≠ none) ∧
    (∀ before after, events = before ++ .stop :: after →
      ∀ k ∈ (run step start events).started, k < (run step start before).pushed →
        k ∈ (run step start before).started) ∧
    (.stop ∉ events → (run step start events).started ++ (run step start events).queue =
      range (events.count .push)) := by
  have hs : Serial (run step start events) :=
    run_of_invariant (fun _ e hk _ => hk.step e) (by constructor <;> simp [start]) along_true
  have ho : Ordered (run step start events) :=
    run_of_invariant (fun _ e hk _ => hk.step e) (by constructor <;> simp [start]) along_true
  refine ⟨(pairwise_append.mp ho.ordered).1, fun k hm => ?_, ?_, ?_, fun hn => ?_⟩
  · cases hr : (run step start events).running with
    | none => exact (hs.idle hr).2 k (dropLast_subset _ hm)
    | some j =>
      obtain ⟨ea, eq, he⟩ := hs.last j hr
      rw [eq, dropLast_concat] at hm
      exact he k hm
  · by_cases hst : (run step start events).running = none
    · exact .inl (hs.idle hst).1
    · exact .inr hst
  · rintro before after rfl
    rw [run, foldl_append, foldl_cons]
    refine (run_of_invariant (I := Beyond _ _) (fun _ e hk _ => hk.step e) ?_ along_true).started
    exact ⟨Nat.le_refl _, by simp [step, ActionsQueue.stop], fun _ hm _ => hm⟩
  · have hw : (run step start events).started ++ _ = range (0 + _) := run_pushes rfl hn
    rwa [Nat.zero_add] at hw

end Ae.Actions.Stages
