/- source: tasks/details/task_queues.h, tests/test-tasks/test-task-queues.cpp
   digest: The delayed queue gives out the earliest due tasks, each once. -/

import Ae.Tasks.Scheduling

set_option autoImplicit false

namespace Ae.Tasks.DelayedQueue
open List Lib.EventRun
open Scheduling.ManualTaskScheduler (insertDelayed)

variable {T : Type} [LinearOrder T] {tp : T} {id : Nat} {tasks : List (T × Nat)}

/-- `DelayedTaskQueue`, in the order of the reverse iterators: the back comes first. Tasks are
numbered as they are added; those given out are a history. -/
structure DelayedTaskQueue (T : Type) where
  tasks : List (T × Nat)
  added : Nat
  stolen : List (T × Nat)

inductive Event (T : Type) where
  | add (tp : T)
  | steal (now : T) (m : Nat)

/-- The place of a new task: before the first that expires later. -/
def place (tp : T) (id : Nat) : List (T × Nat) → List (T × Nat)
  | [] => [(tp, id)]
  | p :: rest => if tp < p.1 then (tp, id) :: p :: rest else p :: place tp id rest

/-- The loop of `StealTasks`: what it passes over, and the others. -/
def split (now : T) : Nat → List (T × Nat) → List (T × Nat) × List (T × Nat)
  | m + 1, p :: rest =>
    if p.1 ≤ now then (p :: (split now m rest).1, (split now m rest).2) else ([], p :: rest)
  | _, tasks => ([], tasks)

variable (capacity : Nat) (s : DelayedTaskQueue T)

def add (tp : T) : Bool × DelayedTaskQueue T :=
  if s.tasks.length = capacity then (false, s)
  else (true, { s with tasks := place tp s.added s.tasks, added := s.added + 1 })

def stealTasks (now : T) (m : Nat) : DelayedTaskQueue T :=
  { s with tasks := (split now m s.tasks).2, stolen := s.stolen ++ (split now m s.tasks).1 }

def step : Event T → DelayedTaskQueue T
  | .add tp => (add capacity s tp).2
  | .steal now m => stealTasks s now m

def Earlier (p q : T × Nat) : Prop := p.1 < q.1 ∨ p.1 = q.1 ∧ p.2 < q.2

/-- The tasks given out are as many of the due ones as asked for, and the earliest. -/
structure Earliest (now : T) (m : Nat) (tasks stolen rest : List (T × Nat)) : Prop where
  whole : tasks = stolen ++ rest
  length : stolen.length = min m (tasks.countP (·.1 ≤ now))
  due : ∀ p ∈ stolen, p.1 ≤ now
  first : ∀ p ∈ stolen, ∀ q ∈ rest, Earlier p q

def Steals (now : T) (m : Nat) (s t : DelayedTaskQueue T) : Prop :=
  t.added = s.added ∧ ∃ given, t.stolen = s.stolen ++ given ∧ Earliest now m s.tasks given t.tasks

/-- A full queue refuses the task and stays as it is, any other stores it under a new number. -/
def Adds (tp : T) (s : DelayedTaskQueue T) (r : Bool × DelayedTaskQueue T) : Prop :=
  if s.tasks.length = capacity then r = (false, s)
  else r.1 = true ∧ r.2.tasks.Perm ((tp, s.added) :: s.tasks) ∧ r.2.added = s.added + 1 ∧
    r.2.stolen = s.stolen

structure Kept (s : DelayedTaskQueue T) : Prop where
  ordered : s.tasks.Pairwise Earlier
  once : ((s.stolen ++ s.tasks).map Prod.snd).Perm (range s.added)

theorem place_perm (tp : T) (id : Nat) (tasks : List (T × Nat)) :
    (place tp id tasks).Perm ((tp, id) :: tasks) := by
  induction tasks with
  | nil => exact .refl _
  | cons p rest ih =>
    rw [place]
    split
    · exact .refl _
    · exact (ih.cons p).trans (.swap ..)

theorem place_ordered (ho : tasks.Pairwise Earlier) (hn : ∀ p ∈ tasks, p.2 < id) :
    (place tp id tasks).Pairwise Earlier := by
  induction tasks with
  | nil => exact pairwise_singleton _ _
  | cons p rest ih =>
    obtain ⟨hh, ht⟩ := pairwise_cons.mp ho
    obtain ⟨new, hot⟩ := forall_mem_cons.mp hn
    rw [place]
    split
    · next before =>
      refine pairwise_cons.mpr ⟨forall_mem_cons.mpr ⟨.inl before, fun q hm => .inl ?_⟩, ho⟩
      rcases hh q hm with hl | ⟨same, -⟩
      · exact before.trans hl
      · exact same ▸ before
    · next after =>
      refine pairwise_cons.mpr ⟨fun q hm => ?_, ih ht hot⟩
      rcases mem_cons.mp ((place_perm tp id rest).subset hm) with rfl | old
      · rcases (le_of_not_gt after).lt_or_eq with hls | same
        · exact .inl hls
        · exact .inr ⟨same, new⟩
      · exact hh q old

theorem split_earliest (ho : tasks.Pairwise Earlier) (now : T) (m : Nat) :
    Earliest now m tasks (split now m tasks).1 (split now m tasks).2 := by
  induction m, tasks using split.induct now with
  | case1 m p rest hd ih =>
    obtain ⟨hh, ht⟩ := pairwise_cons.mp ho
    obtain ⟨hw, hln, had, h1⟩ := ih ht
    rw [split, if_pos hd]
    refine ⟨congrArg (p :: ·) hw, ?_, forall_mem_cons.mpr ⟨hd, had⟩,
      forall_mem_cons.mpr ⟨fun q hm => hh q (hw ▸ mem_append_right _ hm), h1⟩⟩
    rw [length_cons, hln, countP_cons_of_pos (by simpa using hd)]
    omega
  | case2 m p rest hl =>
    have hnd : (p :: rest).countP (·.1 ≤ now) = 0 := by
      refine countP_eq_zero.mpr (forall_mem_cons.mpr ⟨by simpa using hl, fun q hm => ?_⟩)
      have ha : p.1 ≤ q.1 := ((pairwise_cons.mp ho).1 q hm).elim le_of_lt (·.1.le)
      simpa using (lt_of_not_ge hl).trans_le ha
    rw [split, if_neg hl]
    exact ⟨rfl, by rw [hnd, Nat.min_zero]; rfl, nofun, nofun⟩
  | case3 m tasks hn =>
    have hnl : m = 0 ∨ tasks = [] := by
      cases m <;> cases tasks <;> simp_all
    rw [split]
    · refine ⟨rfl, ?_, nofun, nofun⟩
      rcases hnl with rfl | rfl <;> simp
    · exact hn

theorem Kept.step {s : DelayedTaskQueue T} (c : Nat) (hk : Kept s) (e : Event T) :
    Kept (step c s e) := by
  cases e with
  | add tp =>
    rw [DelayedQueue.step, add]
    split
    · exact hk
    · have hn : ∀ p ∈ s.tasks, p.2 < s.added := fun p hm => mem_range.mp
        (hk.once.subset (mem_map_of_mem (mem_append_right _ hm)))
      refine ⟨place_ordered hk.ordered hn, ?_⟩
      have hpl := ((place_perm tp s.added s.tasks).append_left s.stolen).trans perm_middle
      rw [range_succ]
      exact (hpl.map Prod.snd).trans ((hk.once.cons s.added).trans
        (perm_append_singleton s.added _).symm)
  | steal now m =>
    have he := split_earliest hk.ordered now m
    refine ⟨?_, ?_⟩
    · have hp := hk.ordered
      rw [he.whole, pairwise_append] at hp
      exact hp.2.1
    · have ho := hk.once
      rw [he.whole, ← append_assoc] at ho
      exact ho

def queue (events : List (Event T)) : DelayedTaskQueue T :=
  run (step capacity) ⟨[], 0, []⟩ events

/-- In every run the queue stays in order, gives out the earliest due tasks, loses and repeats
none, stores every task that it takes, and refuses a task only when it is full. -/
theorem steals_earliest (capacity : Nat) (events : List (Event T)) :
    let s := queue capacity events
    Kept s ∧ (∀ now m, Steals now m s (stealTasks s now m)) ∧
      ∀ tp, Adds capacity tp s (add capacity s tp) := by
  intro s
  have kept : Kept s :=
    run_of_invariant (fun _ e hk _ => hk.step capacity e) ⟨.nil, .nil⟩ along_true
  refine ⟨kept, fun now m => ⟨rfl, _, rfl, split_earliest kept.ordered now m⟩, fun tp => ?_⟩
  rw [Adds, add]
  split
  · rfl
  · exact ⟨rfl, place_perm tp s.added s.tasks, rfl, rfl⟩

end Ae.Tasks.DelayedQueue
