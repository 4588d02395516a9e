/- source: connection_manager/client_cloud_manager.{cpp,h}, executors/any_waiter.h
   digest: A config of a pending uid ends the batch for every config behind it. -/

import Ae.ConnectionManager.ServerResolution

set_option autoImplicit false

namespace Ae.ConnectionManager.CloudConfigs
open Function List AeActions.GetServers
open CloudConnections.Selecting (Sorting insertionSorting)
open ServerResolution Lib.EventRun

variable {U A P : Type} [DecidableEq U]

structure CloudConfig (U : Type) where
  subjectUid : U
  configVersion : Int
  sids : List Nat

structure CloudCache (A P : Type) where
  versionConfirmed : Bool
  version : Int
  cloud : Option (List (Server A P))
  finalizing : Bool

/-- A waiter of `make_servers_` with the known servers and the action for the missing ones. -/
structure Resolution (U A P : Type) where
  conf : CloudConfig U
  servers : List (Server A P)
  action : GetServersAction A P
  completed : Bool

structure ClientCloudManager (U A P : Type) where
  aether : Aether A P
  cloudCache : U → Option (CloudCache A P)
  makeServers : List (Resolution U A P)

/-- Configs from a server, a descriptor that reaches the action of a waiter, and the failure of
the action's request. -/
inductive Event (U A P : Type) where
  | configs (configs : List (CloudConfig U))
  | descriptor (i : Nat) (sd : ServerDescriptor A P)
  | failed (i : Nat)

namespace ClientCloudManager

variable (sorting : Sorting (Server A P)) (s : ClientCloudManager U A P)

def setCache (uid : U) (entry : CloudCache A P) : ClientCloudManager U A P :=
  { s with cloudCache := Function.update s.cloudCache uid (some entry) }

def registerCloud (uid : U) (servers : List (Server A P)) : ClientCloudManager U A P :=
  match s.cloudCache uid with
  | none => s
  | some entry => s.setCache uid { entry with finalizing := false, cloud := some servers }

/-- `FinalizeCloudConfig`: the waiter starts at once, and with no server missing it calls back
before it is returned. The pool of five actions, with its assertion, is left out. -/
def finalizeCloudConfig (conf : CloudConfig U) : ClientCloudManager U A P :=
  let split := splitMissingLoaded s.aether conf.sids
  let started (completed : Bool) : ClientCloudManager U A P :=
    { s with makeServers := s.makeServers ++ [⟨conf, split.1, .start split.2, completed⟩] }
  if split.2 = [] then
    (started true).registerCloud conf.subjectUid (sortNewServers sorting conf.sids split.1)
  else started false

def cloudConfigs : ClientCloudManager U A P → List (CloudConfig U) → ClientCloudManager U A P
  | s, [] => s
  | s, conf :: configs =>
    match s.cloudCache conf.subjectUid with
    | none =>
      cloudConfigs ((s.setCache conf.subjectUid
        ⟨false, conf.configVersion, none, true⟩).finalizeCloudConfig sorting conf) configs
    | some entry =>
      if entry.finalizing = false ∧ entry.version < conf.configVersion then
        cloudConfigs ((s.setCache conf.subjectUid { entry with
            versionConfirmed := false
            version := conf.configVersion
            finalizing := true }).finalizeCloudConfig sorting conf) configs
      else if entry.finalizing then s
      else cloudConfigs (s.setCache conf.subjectUid { entry with versionConfirmed := true }) configs

def cloudConfig (conf : CloudConfig U) : ClientCloudManager U A P :=
  s.cloudConfigs sorting [conf]

def pending (i : Nat) : Option (Resolution U A P) :=
  s.makeServers[i]?.filter fun resolution => !resolution.completed

def setResolution (i : Nat) (resolution : Resolution U A P) : ClientCloudManager U A P :=
  { s with makeServers := s.makeServers.set i resolution }

def getResponse (i : Nat) (resolution : Resolution U A P) (sd : ServerDescriptor A P) :
    ClientCloudManager U A P :=
  let action := resolution.action.getResponse sd
  match action.results.head? with
  | none => s.setResolution i { resolution with action := action }
  | some result =>
    let built := buildNewServers s.aether resolution.servers result
    ({ s with aether := built.1 }.setResolution i
      { resolution with action := action, completed := true }).registerCloud
        resolution.conf.subjectUid (sortNewServers sorting resolution.conf.sids built.2)

def step : Event U A P → ClientCloudManager U A P
  | .configs configs => s.cloudConfigs sorting configs
  | .descriptor i sd => (s.pending i).elim s fun resolution => s.getResponse sorting i resolution sd
  | .failed i => (s.pending i).elim s fun resolution =>
    s.setResolution i { resolution with completed := true }

end ClientCloudManager

open ClientCloudManager

variable (sorting : Sorting (Server A P)) (s : ClientCloudManager U A P)

def Finalizing (uid : U) : Prop :=
  ∃ entry, s.cloudCache uid = some entry ∧ entry.finalizing = true

/-- There is nothing to do for the config: its uid is pending, or the entry is at least as new
and already confirmed. -/
def Inert (conf : CloudConfig U) : Prop :=
  ∃ entry, s.cloudCache conf.subjectUid = some entry ∧ (entry.finalizing = true ∨
      conf.configVersion ≤ entry.version ∧ entry.versionConfirmed = true)

def Agree (t : ClientCloudManager U A P) : Prop :=
  s.cloudCache = t.cloudCache ∧ s.makeServers = t.makeServers

/-- Behind a config whose uid is pending at its turn there are only configs with nothing to do. -/
def Unsuppressed (configs : List (CloudConfig U)) : Prop :=
  ∀ earlier conf later, configs = earlier ++ conf :: later →
    Finalizing (run (cloudConfig sorting) s earlier) conf.subjectUid →
    ∀ other ∈ later, Inert (run (cloudConfig sorting) s earlier) other

inductive Turn (conf : CloudConfig U) : ClientCloudManager U A P → Prop where
  | skip : Finalizing s conf.subjectUid → Turn conf s
  | accept (cloud : Option (List (Server A P))) : ¬Finalizing s conf.subjectUid →
      (∀ entry, s.cloudCache conf.subjectUid = some entry → entry.version < conf.configVersion) →
      Turn conf ((s.setCache conf.subjectUid
        ⟨false, conf.configVersion, cloud, true⟩).finalizeCloudConfig sorting conf)
  | confirm (entry : CloudCache A P) : s.cloudCache conf.subjectUid = some entry →
      entry.finalizing = false → conf.configVersion ≤ entry.version →
      Turn conf (s.setCache conf.subjectUid { entry with versionConfirmed := true })

section

variable {sorting s} {conf : CloudConfig U}

omit [DecidableEq U] in
theorem finalizing_iff {uid : U} {e : CloudCache A P} (hf : s.cloudCache uid = some e) :
    Finalizing s uid ↔ e.finalizing = true := by
  constructor
  · rintro ⟨o, he, hm⟩
    rwa [Option.some.inj (hf.symm.trans he)]
  · exact fun hm => ⟨e, hf, hm⟩

omit [DecidableEq U] in
theorem not_finalizing_of_none {uid : U} (hm : s.cloudCache uid = none) : ¬Finalizing s uid := by
  rintro ⟨e, hf, -⟩
  exact Option.some_ne_none e (hf.symm.trans hm)

variable (configs : List (CloudConfig U))

variable (sorting s conf) in
theorem turn_and_rest : Turn sorting s conf (s.cloudConfig sorting conf) ∧
      (Finalizing s conf.subjectUid → s.cloudConfigs sorting (conf :: configs) = s) ∧
      (¬Finalizing s conf.subjectUid → s.cloudConfigs sorting (conf :: configs) =
        (s.cloudConfig sorting conf).cloudConfigs sorting configs) := by
  rw [cloudConfig]
  cases hf : s.cloudCache conf.subjectUid with
  | none =>
    have hi := not_finalizing_of_none hf
    simp only [cloudConfigs, hf]
    refine ⟨.accept none hi fun e he => ?_, fun hm => absurd hm hi, fun _ => trivial⟩
    exact absurd (hf.symm.trans he) (Option.some_ne_none e).symm
  | some e =>
    rw [finalizing_iff hf]
    simp only [cloudConfigs, hf]
    by_cases hn : e.finalizing = false ∧ e.version < conf.configVersion
    · simp only [if_pos hn]
      have hi : ¬Finalizing s conf.subjectUid := by
        rw [finalizing_iff hf, hn.1]
        exact Bool.false_ne_true
      refine ⟨.accept e.cloud hi fun o he => ?_, fun hm => ?_, fun _ => trivial⟩
      · rw [← Option.some.inj (hf.symm.trans he)]
        exact hn.2
      · exact absurd (hn.1.symm.trans hm) Bool.false_ne_true
    · simp only [if_neg hn]
      by_cases hm : e.finalizing = true
      · simp only [if_pos hm]
        exact ⟨.skip ((finalizing_iff hf).mpr hm), fun _ => trivial, fun hi => absurd hm hi⟩
      · simp only [if_neg hm]
        have hi : e.finalizing = false := Bool.eq_false_of_not_eq_true hm
        have hk : conf.configVersion ≤ e.version :=
          Int.not_lt.mp fun ho => hn ⟨hi, ho⟩
        exact ⟨.confirm e hf hi hk, fun hp => absurd hp hm, fun _ => trivial⟩

variable (sorting s conf) in
theorem turn : Turn sorting s conf (s.cloudConfig sorting conf) :=
  (turn_and_rest sorting s conf []).1

theorem cloudConfigs_cons_skip (hp : Finalizing s conf.subjectUid) :
    s.cloudConfigs sorting (conf :: configs) = s :=
  (turn_and_rest sorting s conf configs).2.1 hp

theorem cloudConfigs_cons (hi : ¬Finalizing s conf.subjectUid) :
    s.cloudConfigs sorting (conf :: configs) =
      (s.cloudConfig sorting conf).cloudConfigs sorting configs :=
  (turn_and_rest sorting s conf configs).2.2 hi

theorem setCache_same (uid : U) (entry : CloudCache A P) :
    (s.setCache uid entry).cloudCache uid = some entry :=
  update_self ..

theorem setCache_other {uid other : U} (e : CloudCache A P) (hn : other ≠ uid) :
    (s.setCache uid e).cloudCache other = s.cloudCache other :=
  update_of_ne hn ..

theorem registerCloud_makeServers (uid : U) (ss : List (Server A P)) :
    (s.registerCloud uid ss).makeServers = s.makeServers := by
  rw [registerCloud]
  split <;> rfl

variable (sorting s conf) in
theorem finalizeCloudConfig_makeServers : ∃ r : Resolution U A P,
    (s.finalizeCloudConfig sorting conf).makeServers = s.makeServers ++ [r] := by
  rw [finalizeCloudConfig]
  split
  · exact ⟨_, registerCloud_makeServers ..⟩
  · exact ⟨_, rfl⟩

end

section

variable {t u : ClientCloudManager U A P} {conf : CloudConfig U}

def Confirmed (uid : U) : Prop :=
  ∃ entry, s.cloudCache uid = some entry ∧ entry.versionConfirmed = true

structure Grown (t : ClientCloudManager U A P) : Prop where
  waiters : s.makeServers.length ≤ t.makeServers.length
  confirmed : t.makeServers.length = s.makeServers.length → ∀ uid, Confirmed s uid → Confirmed t uid

variable {sorting s}

omit [DecidableEq U] in
theorem Grown.trans (first : Grown s t) (second : Grown t u) : Grown s u := by
  obtain ⟨hln, hkp⟩ := first
  obtain ⟨hl, hk⟩ := second
  refine ⟨le_trans hln hl, fun he uid hb => ?_⟩
  exact hk (by omega) uid (hkp (by omega) uid hb)

variable (sorting s conf) in
theorem grown_cloudConfig : Grown s (s.cloudConfig sorting conf) := by
  have ho := turn sorting s conf
  generalize s.cloudConfig sorting conf = t at ho ⊢
  cases ho with
  | skip => exact ⟨le_rfl, fun _ _ hb => hb⟩
  | accept c =>
    obtain ⟨r, ha⟩ := finalizeCloudConfig_makeServers sorting
      (s.setCache conf.subjectUid ⟨false, conf.configVersion, c, true⟩) conf
    have hl := congrArg length ha
    rw [length_append, length_singleton] at hl
    have hk : (s.setCache conf.subjectUid
      ⟨false, conf.configVersion, c, true⟩).makeServers = s.makeServers := rfl
    rw [hk] at hl
    exact ⟨by omega, fun he => by omega⟩
  | confirm e hf =>
    refine ⟨le_rfl, fun _ uid hb => ?_⟩
    by_cases he : uid = conf.subjectUid
    · rw [he]
      exact ⟨_, setCache_same .., rfl⟩
    · obtain ⟨o, hot, hc⟩ := hb
      exact ⟨o, (setCache_other _ he).trans hot, hc⟩

theorem grown_run (configs : List (CloudConfig U)) :
    Grown s (run (cloudConfig sorting) s configs) := by
  induction configs generalizing s with
  | nil => exact ⟨le_rfl, fun _ _ hb => hb⟩
  | cons conf configs ih => exact (grown_cloudConfig sorting s conf).trans ih

theorem cloudConfig_inert (hin : Inert s conf) : s.cloudConfig sorting conf = s := by
  obtain ⟨entry, hf, hr⟩ := hin
  have ho := turn sorting s conf
  generalize s.cloudConfig sorting conf = t at ho ⊢
  cases ho with
  | skip => rfl
  | accept c hi hol =>
    rcases hr with hm | ⟨hk, -⟩
    · exact absurd ⟨entry, hf, hm⟩ hi
    · exact absurd (hol entry hf) (Int.not_lt.mpr hk)
  | confirm o he hi =>
    obtain rfl := Option.some.inj (hf.symm.trans he)
    rcases hr with hm | ⟨-, hc⟩
    · exact absurd (hi.symm.trans hm) Bool.false_ne_true
    · have hes : ({ entry with versionConfirmed := true } : CloudCache A P) = entry := by
        cases entry
        cases hc
        rfl
      rw [hes, setCache, update_eq_self_iff.mpr hf.symm]

variable {configs : List (CloudConfig U)}

theorem run_inert (hi : ∀ conf ∈ configs, Inert s conf) :
    run (cloudConfig sorting) s configs = s := by
  induction configs with
  | nil => rfl
  | cons conf configs ih =>
    have h1 : s.cloudConfig sorting conf = s := cloudConfig_inert (hi conf (.head _))
    have ht : run (cloudConfig sorting) s (conf :: configs) =
        run (cloudConfig sorting) (s.cloudConfig sorting conf) configs := rfl
    rw [ht, h1]
    exact ih fun o hm => hi o (.tail _ hm)

theorem inert_of_agree_run
    (ha : Agree s (run (cloudConfig sorting) (s.cloudConfig sorting conf) configs)) :
    Inert s conf := by
  have ho := turn sorting s conf
  generalize s.cloudConfig sorting conf = t at ho ha
  have hlt : Grown t (run (cloudConfig sorting) t configs) := grown_run configs
  cases ho with
  | skip hp =>
    obtain ⟨e, hf, hm⟩ := hp
    exact ⟨e, hf, .inl hm⟩
  | accept c =>
    obtain ⟨r, had⟩ := finalizeCloudConfig_makeServers sorting
      (s.setCache conf.subjectUid ⟨false, conf.configVersion, c, true⟩) conf
    have hl := hlt.waiters
    rw [← ha.2, had, length_append, length_singleton] at hl
    exact absurd hl (Nat.not_succ_le_self _)
  | confirm e hf hi hk =>
    refine ⟨e, hf, .inr ⟨hk, ?_⟩⟩
    have hc := hlt.confirmed (congrArg length ha.2.symm) conf.subjectUid ⟨_, setCache_same .., rfl⟩
    rw [Confirmed, ← ha.1] at hc
    obtain ⟨o, he, hm⟩ := hc
    rwa [Option.some.inj (hf.symm.trans he)]

theorem agree_run_iff (configs : List (CloudConfig U)) :
    Agree s (run (cloudConfig sorting) s configs) ↔ ∀ conf ∈ configs, Inert s conf := by
  constructor
  · intro ha
    induction configs with
    | nil => exact fun _ hm => absurd hm not_mem_nil
    | cons conf configs ih =>
      have h1 : Inert s conf := inert_of_agree_run ha
      have he : s.cloudConfig sorting conf = s := cloudConfig_inert h1
      have hr : Agree s (run (cloudConfig sorting) (s.cloudConfig sorting conf) configs) := ha
      rw [he] at hr
      exact forall_mem_cons.mpr ⟨h1, ih hr⟩
  · intro hi
    rw [run_inert hi]
    exact ⟨rfl, rfl⟩

theorem unsuppressed_cons_skip (hp : Finalizing s conf.subjectUid) :
    Unsuppressed sorting s (conf :: configs) ↔ ∀ other ∈ configs, Inert s other := by
  constructor
  · exact fun hu => hu [] conf configs rfl hp
  · intro hi ea l rest hs _ other mem
    have hia : ∀ other ∈ conf :: configs, Inert s other := by
      obtain ⟨e, hf, hm⟩ := hp
      exact forall_mem_cons.mpr ⟨⟨e, hf, .inl hm⟩, hi⟩
    rw [hs] at hia
    rw [run_inert fun b hw => hia b (mem_append_left _ hw)]
    exact hia other (mem_append_right _ (.tail _ mem))

theorem unsuppressed_cons (hi : ¬Finalizing s conf.subjectUid) :
    Unsuppressed sorting s (conf :: configs) ↔
      Unsuppressed sorting (s.cloudConfig sorting conf) configs := by
  constructor
  · intro hu e n l hs
    exact hu (conf :: e) n l (congrArg (conf :: ·) hs)
  · intro hu e n l hs hp
    cases e with
    | nil =>
      obtain ⟨rfl, rfl⟩ := cons.inj hs
      exact absurd hp hi
    | cons f e =>
      obtain ⟨rfl, hr⟩ := cons.inj hs
      exact hu e n l hr hp

/-- A batch leaves what its configs leave one by one exactly when no config with something to do
stands behind one whose uid is pending. -/
theorem batch_agrees_iff_unsuppressed (sorting : Sorting (Server A P))
    (s : ClientCloudManager U A P) (configs : List (CloudConfig U)) :
    Agree (s.cloudConfigs sorting configs) (run (cloudConfig sorting) s configs) ↔
      Unsuppressed sorting s configs := by
  induction configs generalizing s with
  | nil =>
    refine iff_of_true ⟨rfl, rfl⟩ fun e conf l hsp => ?_
    exact absurd hsp (append_ne_nil_of_right_ne_nil _ (cons_ne_nil conf l)).symm
  | cons conf configs ih =>
    by_cases pending : Finalizing s conf.subjectUid
    · rw [cloudConfigs_cons_skip configs pending, unsuppressed_cons_skip pending]
      have hs : s.cloudConfig sorting conf = s := cloudConfigs_cons_skip [] pending
      have ht : run (cloudConfig sorting) s (conf :: configs) =
          run (cloudConfig sorting) (s.cloudConfig sorting conf) configs := rfl
      rw [ht, hs]
      exact agree_run_iff configs
    · rw [cloudConfigs_cons configs pending, unsuppressed_cons pending]
      exact ih (s.cloudConfig sorting conf)

def resolving (uid : Nat) : ClientCloudManager Nat Nat Nat :=
  ⟨noServers, fun other => if other = uid then some ⟨false, 1, none, true⟩ else none, []⟩

def pendingThenNew : List (CloudConfig Nat) := [⟨1, 1, [5]⟩, ⟨2, 1, [6]⟩]

/-- The config behind that of the pending uid is lost in a batch and cached alone. -/
theorem new_config_suppressed :
    let sorting := insertionSorting (Server Nat Nat)
    (((resolving 1).cloudConfigs sorting pendingThenNew).cloudCache 2).isNone = true ∧
      ¬Agree ((resolving 1).cloudConfigs sorting pendingThenNew)
        (run (cloudConfig sorting) (resolving 1) pendingThenNew) := by
  refine ⟨by decide, fun ha => ?_⟩
  have hc := congrArg (fun c => (c 2).isNone) ha.1
  exact absurd hc (by decide)

end

end Ae.ConnectionManager.CloudConfigs
