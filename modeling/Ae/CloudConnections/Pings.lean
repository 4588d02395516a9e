/- source: cloud_connections/ping_cloud_servers.cpp,
     tasks/details/{task_subsctiption,manual_task_scheduler}.h
   digest: A stopped ping is not started again, and an update behind its dispatch is not seen. -/

import Ae.CloudConnections.Selecting

set_option autoImplicit false

namespace Ae.CloudConnections.Pings
open Function List Lib.EventRun
open Selecting (CloudServerConnections)

/-- The servers that `ForServers` visits for `rx_targets`, each with its current priority. -/
structure RxTargets where
  visited : List (Nat × Nat)
  distinct : (visited.map Prod.fst).Nodup

structure ServerPing where
  priority : Nat
  stopped : Bool
deriving DecidableEq

/-- The task of `task_sub_`. The scheduler frees a task only after all tasks that it has stolen
with it, so for a while the subscription of a task that has run is still set. -/
inductive DispatchTask where
  | none
  | queued
  | invoked
deriving DecidableEq

structure PingCloudServers where
  targets : RxTargets
  taskSub : DispatchTask
  serverPings : Nat → Option ServerPing

/-- An update of the servers, with what is visited from then on and whether the scheduler has room
for a task, the run of the dispatch task, and the end of the batch it ran in. -/
inductive Event where
  | serversUpdate (targets : RxTargets) (room : Bool)
  | invoke
  | free

namespace PingCloudServers

def start : PingCloudServers := ⟨⟨[], nodup_nil⟩, .none, fun _ => none⟩

def serversUpdate (s : PingCloudServers) (room : Bool) : PingCloudServers :=
  if s.taskSub = .none ∧ room = true then { s with taskSub := .queued } else s

def reconcile (found : Option ServerPing) (priority : Nat) : ServerPing :=
  match found with
  | none => ⟨priority, false⟩
  | some ping => if ping.priority ≠ priority then ⟨priority, false⟩ else ping

def reconcileServer (serverPings : Nat → Option ServerPing) (server : Nat × Nat) :
    Nat → Option ServerPing :=
  Function.update serverPings server.1 (some (reconcile (serverPings server.1) server.2))

def dispatchToServers (s : PingCloudServers) : PingCloudServers :=
  let reconciled := s.targets.visited.foldl reconcileServer s.serverPings
  { s with
    serverPings := fun sid =>
      if sid ∈ s.targets.visited.map Prod.fst then reconciled sid
      else (reconciled sid).map fun ping => { ping with stopped := true } }

def step (s : PingCloudServers) : Event → PingCloudServers
  | .serversUpdate targets room => { s with targets := targets }.serversUpdate room
  | .invoke =>
    if s.taskSub = .queued then { s with taskSub := .invoked }.dispatchToServers else s
  | .free => if s.taskSub = .invoked then { s with taskSub := .none } else s

end PingCloudServers

open PingCloudServers

def Runs (s : PingCloudServers) (sid priority : Nat) : Prop :=
  s.serverPings sid = some ⟨priority, false⟩

instance (s : PingCloudServers) (sid priority : Nat) : Decidable (Runs s sid priority) :=
  inferInstanceAs (Decidable (_ = _))

/-- With no dispatch pending, the running pings are those of the visited servers with their
current priorities. -/
def Follows (s : PingCloudServers) : Prop :=
  s.taskSub ≠ .queued → ∀ sid priority, Runs s sid priority ↔ (sid, priority) ∈ s.targets.visited

/-- An update for which no task is enqueued changes nothing of what is visited, and no server is
visited at the priority with which its ping was stopped. -/
def Followable (s : PingCloudServers) : Event → Prop
  | .serversUpdate targets room =>
    s.taskSub = .invoked ∨ s.taskSub = .none ∧ room = false →
      ∀ server, server ∈ targets.visited ↔ server ∈ s.targets.visited
  | .invoke => s.taskSub = .queued →
    ∀ server ∈ s.targets.visited, s.serverPings server.1 ≠ some ⟨server.2, true⟩
  | .free => True

section

variable {serverPings : Nat → Option ServerPing} {server : Nat × Nat}

theorem reconcile_runs_iff (f : Option ServerPing) (c p : Nat) :
    reconcile f c = ⟨p, false⟩ ↔ p = c ∧ f ≠ some ⟨c, true⟩ := by
  cases f with
  | none => simp [reconcile, eq_comm]
  | some pn =>
    obtain ⟨old, st⟩ := pn
    by_cases same : old = c
    · cases st <;> simp [reconcile, same, eq_comm]
    · simp [reconcile, same, Ne.symm same, eq_comm]

theorem foldl_reconcileServer_other {v : List (Nat × Nat)} {sid : Nat} (hu : sid ∉ v.map Prod.fst) :
    v.foldl reconcileServer serverPings sid = serverPings sid := by
  induction v generalizing serverPings with
  | nil => rfl
  | cons server v ih =>
    obtain ⟨hn, hr⟩ := not_or.mp (mt mem_cons.mpr hu)
    exact (ih hr).trans (update_of_ne hn ..)

theorem foldl_reconcileServer_mem {v : List (Nat × Nat)}
    (hd : (v.map Prod.fst).Nodup) (hm : server ∈ v) :
    v.foldl reconcileServer serverPings server.1 =
      some (reconcile (serverPings server.1) server.2) := by
  induction v generalizing serverPings with
  | nil => exact absurd hm not_mem_nil
  | cons f v ih =>
    obtain ⟨hf, hr⟩ := nodup_cons.mp hd
    rcases mem_cons.mp hm with rfl | later
    · exact (foldl_reconcileServer_other hf).trans (update_self ..)
    · have hn : server.1 ≠ f.1 := fun he =>
        hf (he ▸ mem_map_of_mem later)
      have hu : reconcileServer serverPings f server.1 = serverPings server.1 :=
        update_of_ne hn ..
      rw [foldl_cons, ih hr later, hu]

variable {s : PingCloudServers}

theorem runs_dispatchToServers_iff (sid p : Nat) :
    Runs s.dispatchToServers sid p ↔
      (sid, p) ∈ s.targets.visited ∧ s.serverPings sid ≠ some ⟨p, true⟩ := by
  by_cases visited : sid ∈ s.targets.visited.map Prod.fst
  · have hr : s.dispatchToServers.serverPings sid =
        s.targets.visited.foldl reconcileServer s.serverPings sid := if_pos visited
    obtain ⟨⟨_, current⟩, hm, rfl⟩ := mem_map.mp visited
    rw [Runs, hr, foldl_reconcileServer_mem s.targets.distinct hm, Option.some_inj,
      reconcile_runs_iff]
    constructor
    · rintro ⟨rfl, hf⟩
      exact ⟨hm, hf⟩
    · rintro ⟨hn, hf⟩
      have he : p = current :=
        congrArg Prod.snd (inj_on_of_nodup_map s.targets.distinct hn hm rfl)
      exact ⟨he, he ▸ hf⟩
  · have stopped : s.dispatchToServers.serverPings sid =
        (s.targets.visited.foldl reconcileServer s.serverPings sid).map
          fun pn => { pn with stopped := true } := if_neg visited
    refine iff_of_false (fun hrn => ?_) fun hb => ?_
    · obtain ⟨pn, -, he⟩ := Option.map_eq_some_iff.mp (stopped.symm.trans hrn)
      exact absurd (congrArg ServerPing.stopped he) Bool.false_ne_true.symm
    · exact visited (mem_map_of_mem (f := Prod.fst) hb.1)

variable {n : Nat} {c : CloudServerConnections n} (sound : Selecting.Sound c)

/-- The targets of a policy for all servers: those selected, each with its priority. -/
def rxTargets : RxTargets where
  visited := c.selected.map fun server => (server.val, (c.servers server).priority)
  distinct := by
    rw [map_map]
    exact (sound.distinct.sublist sound.told).map Fin.val_injective

/-- Once the update of a selection is dispatched, the selected servers have their pings, except
where one was stopped before at the same priority. -/
theorem selected_pinged (idle : s.taskSub = .none) (sid p : Nat) :
    Runs (run step s [.serversUpdate (rxTargets sound) true, .invoke]) sid p ↔
      (∃ server ∈ c.selected, (server.val, (c.servers server).priority) = (sid, p)) ∧
        s.serverPings sid ≠ some ⟨p, true⟩ := by
  have dispatched : run step s [.serversUpdate (rxTargets sound) true, .invoke] =
      dispatchToServers { s with targets := rxTargets sound, taskSub := .invoked } := by
    simp [run, step, serversUpdate, idle]
  rw [dispatched, runs_dispatchToServers_iff]
  exact and_congr_left' mem_map

end

section

variable {s : PingCloudServers}

theorem Follows.serversUpdate_iff (hf : Follows s) (ts : RxTargets) (r : Bool) :
    Follows (s.step (.serversUpdate ts r)) ↔
      Followable s (.serversUpdate ts r) := by
  rw [step, serversUpdate, Followable]
  split
  · next enqueued =>
    refine iff_of_true (fun hi => absurd rfl hi) fun hu => ?_
    rcases hu with invoked | ⟨-, hfl⟩
    · exact absurd (enqueued.1.symm.trans invoked) (by decide)
    · exact absurd (hfl.symm.trans enqueued.2) Bool.false_ne_true
  · next hun =>
    by_cases queued : s.taskSub = .queued
    · refine iff_of_true (fun hi => absurd queued hi) fun hu => ?_
      rcases hu with invoked | ⟨none, -⟩
      · exact absurd (queued.symm.trans invoked) (by decide)
      · exact absurd (queued.symm.trans none) (by decide)
    · -- No task is enqueued, so the pings stay those of the targets before.
      have hu : s.taskSub = .invoked ∨ s.taskSub = .none ∧ r = false := by
        cases state : s.taskSub with
        | none => exact .inr ⟨rfl, Bool.eq_false_iff.mpr fun hy => hun ⟨state, hy⟩⟩
        | queued => exact absurd state queued
        | invoked => exact .inl rfl
      constructor
      · intro ha _ server
        exact (ha queued server.1 server.2).symm.trans (hf queued server.1 server.2)
      · intro he _ sid p
        exact (hf queued sid p).trans (he hu (sid, p)).symm

theorem Follows.invoke_iff (hf : Follows s) : Follows (s.step .invoke) ↔ Followable s .invoke := by
  rw [step, Followable]
  by_cases hq : s.taskSub = .queued
  · rw [if_pos hq]
    have hrn : ∀ sid p, _ := fun sid p =>
      runs_dispatchToServers_iff (s := { s with taskSub := .invoked }) sid p
    constructor
    · intro ha _ server hm
      have hi : DispatchTask.invoked ≠ .queued := by decide
      have hr := (ha hi server.1 server.2).mpr hm
      exact ((hrn server.1 server.2).mp hr).2
    · intro hfr _ sid p
      exact (hrn sid p).trans (and_iff_left_of_imp (hfr hq (sid, p)))
  · rw [if_neg hq]
    exact iff_of_true hf fun hp => absurd hp hq

theorem Follows.free (hf : Follows s) : Follows (s.step .free) := by
  rw [step]
  split
  · next invoked =>
    intro _
    exact hf (by rw [invoked]; decide)
  · exact hf

theorem Follows.step_iff (hf : Follows s) (e : Event) : Follows (s.step e) ↔ Followable s e := by
  cases e with
  | serversUpdate ts r => exact hf.serversUpdate_iff ts r
  | invoke => exact hf.invoke_iff
  | free => exact iff_of_true hf.free trivial

/-- The running pings are those of the visited servers whenever no dispatch is pending, exactly
when no update that changes the targets finds the subscription still set or the scheduler full,
and no server comes back at the priority with which its ping was stopped. -/
theorem pings_follow_iff_followable (events : List Event) :
    Always step Follows .start events ↔ Along step Followable .start events := by
  refine always_iff_along (A := fun _ _ => True) (fun _ e hf _ => hf.step_iff e)
    (fun _ sid p => ?_) along_true
  exact iff_of_false (Option.some_ne_none _).symm not_mem_nil

def oneTarget (sid priority : Nat) : RxTargets := ⟨[(sid, priority)], nodup_singleton sid⟩

def noTargets : RxTargets := ⟨[], nodup_nil⟩

def comesBack : List Event :=
  [.serversUpdate (oneTarget 1 0) true, .invoke, .free, .serversUpdate noTargets true, .invoke,
    .free, .serversUpdate (oneTarget 1 0) true, .invoke, .free]

def updateInBatch : List Event :=
  [.serversUpdate (oneTarget 1 0) true, .invoke, .serversUpdate (oneTarget 2 0) true, .free]

/-- In the first run the ping of the visited server stays stopped. In the second the subscription
is still set at the update, and the visited server has no ping. -/
theorem visited_server_unpinged :
    ((run step .start comesBack).taskSub = .none ∧
      (run step .start comesBack).serverPings 1 = some ⟨0, true⟩ ∧
      ¬Always step Follows .start comesBack) ∧
    (run step .start updateInBatch).taskSub = .none ∧
      (run step .start updateInBatch).serverPings 2 = none ∧
      ¬Always step Follows .start updateInBatch := by
  refine ⟨⟨by decide, by decide, ?_⟩, by decide, by decide, ?_⟩
  · rintro ⟨-, -, -, -, -, -, -, -, -, hf⟩
    exact absurd ((hf (by decide) 1 0).mpr (.head _)) (by decide)
  · rintro ⟨-, -, -, -, hf⟩
    exact absurd ((hf (by decide) 2 0).mpr (.head _)) (by decide)

end

end Ae.CloudConnections.Pings
