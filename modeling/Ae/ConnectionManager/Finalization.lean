/- source: connection_manager/client_cloud_manager.{cpp,h}
   digest: A failed resolution leaves the mark of its uid set for good. -/

import Ae.ConnectionManager.CloudConfigs

set_option autoImplicit false

namespace Ae.ConnectionManager.Finalization
open List AeActions.GetServers
open CloudConnections.Selecting (Sorting insertionSorting)
open CloudConfigs
open ServerResolution Lib.EventRun ClientCloudManager Option

variable {U A P : Type}

/-- What is stored of an entry; the mark is not. -/
structure StoredCache (A P : Type) where
  versionConfirmed : Bool
  version : Int
  cloud : Option (List (Server A P))

def StoredCache.load (stored : StoredCache A P) : CloudCache A P :=
  ⟨stored.versionConfirmed, stored.version, stored.cloud, false⟩

def loaded (aether : Aether A P) (stored : U → Option (StoredCache A P)) :
    ClientCloudManager U A P :=
  ⟨aether, fun uid => (stored uid).map StoredCache.load, []⟩

variable (s : ClientCloudManager U A P)

def Resolves (i : Nat) (uid : U) : Prop :=
  ∃ resolution, s.pending i = some resolution ∧ resolution.conf.subjectUid = uid

/-- The mark of a uid is set exactly while a resolution for it is in progress. -/
def MarkExact : Prop :=
  ∀ uid, Finalizing s uid ↔ ∃ i, Resolves s i uid

def Unfailing : Event U A P → Prop
  | .failed i => s.pending i = none
  | _ => True

section

variable {s t : ClientCloudManager U A P}

structure Tracked (s : ClientCloudManager U A P) : Prop where
  marked : ∀ i uid, Resolves s i uid → Finalizing s uid
  single : ∀ i j uid, Resolves s i uid → Resolves s j uid → i = j

inductive Change (s t : ClientCloudManager U A P) : Prop where
  | quiet : (∀ uid, Finalizing t uid ↔ Finalizing s uid) →
      (∀ i uid, Resolves t i uid ↔ Resolves s i uid) → Change s t
  | start (i : Nat) (uid : U) : ¬Finalizing s uid →
      (∀ other, Finalizing t other ↔ Finalizing s other ∨ other = uid) →
      (∀ j other, Resolves t j other ↔ Resolves s j other ∨ j = i ∧ other = uid) → Change s t
  | finish (i : Nat) (uid : U) : Resolves s i uid →
      (∀ other, Finalizing t other ↔ Finalizing s other ∧ other ≠ uid) →
      (∀ j other, Resolves t j other ↔ Resolves s j other ∧ j ≠ i) → Change s t

theorem Resolves.uid_eq {i : Nat} {uid other : U} (h1 : Resolves s i uid)
    (h2 : Resolves s i other) : uid = other := by
  obtain ⟨resolution, hr, rfl⟩ := h1
  obtain ⟨a, he, rfl⟩ := h2
  rw [some.inj (hr.symm.trans he)]

theorem Change.tracked (hc : Change s t) (ht : Tracked s) : Tracked t := by
  cases hc with
  | quiet hm hr =>
    refine ⟨fun i uid hrs => ?_, fun i j uid h1 h2 => ?_⟩
    · exact (hm uid).mpr (ht.marked i uid ((hr i uid).mp hrs))
    · exact ht.single i j uid ((hr i uid).mp h1) ((hr j uid).mp h2)
  | start i uid hi hm hr =>
    refine ⟨fun j o hrs => ?_, fun j k o h1 h2 => ?_⟩
    · rcases (hr j o).mp hrs with hb | ⟨-, rfl⟩
      · exact (hm o).mpr (.inl (ht.marked j o hb))
      · exact (hm o).mpr (.inr rfl)
    · -- A resolution for the uid before would have had its mark set.
      rcases (hr j o).mp h1 with hb | ⟨rfl, rfl⟩ <;>
        rcases (hr k _).mp h2 with hbf | ⟨rfl, he⟩
      · exact ht.single j k o hb hbf
      · exact absurd (ht.marked j uid (he ▸ hb)) hi
      · exact absurd (ht.marked k o hbf) hi
      · rfl
  | finish i uid hrl hm hr =>
    refine ⟨fun j o hrs => ?_, fun j k o h1 h2 => ?_⟩
    · obtain ⟨hb, hn⟩ := (hr j o).mp hrs
      refine (hm o).mpr ⟨ht.marked j o hb, ?_⟩
      rintro rfl
      exact hn (ht.single j i o hb hrl)
    · exact ht.single j k o ((hr j o).mp h1).1
        ((hr k o).mp h2).1

theorem Change.markExact (hc : Change s t) (ht : Tracked s) (he : MarkExact s) : MarkExact t := by
  cases hc with
  | quiet hm hr =>
    intro uid
    rw [hm, he]
    exact exists_congr fun i => (hr i uid).symm
  | start i uid hi hm hr =>
    intro o
    rw [hm, he]
    constructor
    · rintro (⟨j, hb⟩ | rfl)
      · exact ⟨j, (hr j o).mpr (.inl hb)⟩
      · exact ⟨i, (hr i o).mpr (.inr ⟨rfl, rfl⟩)⟩
    · rintro ⟨j, hrs⟩
      rcases (hr j o).mp hrs with hb | ⟨-, hs⟩
      · exact .inl ⟨j, hb⟩
      · exact .inr hs
  | finish i uid hrl hm hr =>
    intro o
    rw [hm, he]
    constructor
    · rintro ⟨⟨j, hb⟩, hn⟩
      refine ⟨j, (hr j o).mpr ⟨hb, ?_⟩⟩
      rintro rfl
      exact hn (hb.uid_eq hrl)
    · rintro ⟨j, hrs⟩
      obtain ⟨hb, hn⟩ := (hr j o).mp hrs
      refine ⟨⟨j, hb⟩, ?_⟩
      rintro rfl
      exact hn (ht.single j i o hb hrl)

end

section

variable {s t : ClientCloudManager U A P} {i : Nat} {resolution : Resolution U A P}

theorem pending_eq_some : s.pending i = some resolution ↔
    s.makeServers[i]? = some resolution ∧ resolution.completed = false := by
  rw [pending, filter_eq_some_iff, Bool.not_eq_true']

theorem not_resolves_of_completed (hc : s.makeServers.all Resolution.completed = true)
    (i : Nat) (uid : U) : ¬Resolves s i uid := by
  rintro ⟨r, hf, -⟩
  obtain ⟨hm, ha⟩ := pending_eq_some.mp hf
  have hd := all_eq_true.mp hc r (mem_of_getElem? hm)
  exact Bool.false_ne_true (ha.symm.trans hd)

theorem pending_append (had : t.makeServers = s.makeServers ++ [resolution]) (j : Nat)
    (r : Resolution U A P) : t.pending j = some r ↔ s.pending j = some r ∨
      j = s.makeServers.length ∧ resolution.completed = false ∧ r = resolution := by
  rw [pending_eq_some, pending_eq_some, had]
  rcases lt_trichotomy j s.makeServers.length with hb | rfl | beyond
  · rw [getElem?_append_left hb, or_iff_left fun hl => hb.ne hl.1]
  · rw [getElem?_concat_length, getElem?_eq_none le_rfl]
    constructor
    · rintro ⟨he, ha⟩
      obtain rfl := some.inj he
      exact .inr ⟨rfl, ha, rfl⟩
    · rintro (⟨hab, -⟩ | ⟨-, ha, rfl⟩)
      · exact absurd hab.symm (some_ne_none r)
      · exact ⟨rfl, ha⟩
  · have hnt : (s.makeServers ++ [resolution])[j]? = none :=
      getElem?_eq_none (by rw [length_append, length_singleton]; exact beyond)
    rw [hnt, getElem?_eq_none beyond.le]
    simp [beyond.ne']

theorem pending_set {after : Resolution U A P} (hf : s.pending i = some resolution)
    (hc : t.makeServers = s.makeServers.set i after) (j : Nat)
    (r : Resolution U A P) : t.pending j = some r ↔
      j ≠ i ∧ s.pending j = some r ∨ j = i ∧ after.completed = false ∧ r = after := by
  rw [pending_eq_some, pending_eq_some, hc]
  by_cases hh : j = i
  · have hw := (List.getElem?_eq_some_iff.mp (pending_eq_some.mp hf).1).1
    rw [hh, getElem?_set_self hw, or_iff_right fun hn => hn.1 rfl]
    constructor
    · rintro ⟨he, ha⟩
      obtain rfl := some.inj he
      exact ⟨rfl, ha, rfl⟩
    · rintro ⟨-, ha, rfl⟩
      exact ⟨rfl, ha⟩
  · rw [getElem?_set_ne (Ne.symm hh), or_iff_left fun hl => hh hl.1, and_iff_right hh]

theorem resolves_append (had : t.makeServers = s.makeServers ++ [resolution]) (j : Nat)
    (other : U) : Resolves t j other ↔ Resolves s j other ∨
      j = s.makeServers.length ∧ resolution.completed = false ∧
        resolution.conf.subjectUid = other := by
  constructor
  · rintro ⟨r, hf, he⟩
    rcases (pending_append had j r).mp hf with hb | ⟨hl, ha, rfl⟩
    · exact .inl ⟨r, hb, he⟩
    · exact .inr ⟨hl, ha, he⟩
  · rintro (⟨r, hf, he⟩ | ⟨hl, ha, he⟩)
    · exact ⟨r, (pending_append had j r).mpr (.inl hf), he⟩
    · exact ⟨resolution, (pending_append had j _).mpr (.inr ⟨hl, ha, rfl⟩), he⟩

theorem resolves_set {action : GetServersAction A P} {completed : Bool}
    (hf : s.pending i = some resolution)
    (hc : t.makeServers = s.makeServers.set i
      { resolution with action := action, completed := completed }) (j : Nat) (o : U) :
    Resolves t j o ↔ Resolves s j o ∧ (j ≠ i ∨ completed = false) := by
  constructor
  · rintro ⟨r, hfn, he⟩
    rcases (pending_set hf hc j r).mp hfn with
      ⟨hn, hb⟩ | ⟨rfl, ha, rfl⟩
    · exact ⟨⟨r, hb, he⟩, .inl hn⟩
    · exact ⟨⟨resolution, hf, he⟩, .inr ha⟩
  · rintro ⟨⟨r, hb, he⟩, hr⟩
    by_cases hh : j = i
    · obtain rfl := some.inj (hf.symm.trans (hh ▸ hb))
      have ha := hr.resolve_left fun hn => hn hh
      exact ⟨_, (pending_set hf hc j _).mpr (.inr ⟨hh, ha, rfl⟩), he⟩
    · exact ⟨r, (pending_set hf hc j r).mpr (.inl ⟨hh, hb⟩), he⟩

theorem failed_effect (hr : s.pending i = some resolution) :
    let t := s.setResolution i { resolution with completed := true }
    (∀ uid, Finalizing t uid ↔ Finalizing s uid) ∧
      ∀ j uid, Resolves t j uid ↔ Resolves s j uid ∧ j ≠ i := by
  refine ⟨fun _ => .rfl, fun j uid => ?_⟩
  rw [resolves_set hr rfl]
  exact and_congr_right fun _ => or_iff_left (fun hl => Bool.false_ne_true hl.symm)

end

section

variable [DecidableEq U] {sorting : Sorting (Server A P)} {s t : ClientCloudManager U A P}

theorem finalizing_setCache_same (uid : U) (e : CloudCache A P) :
    Finalizing (s.setCache uid e) uid ↔ e.finalizing = true :=
  finalizing_iff (setCache_same uid e)

theorem finalizing_setCache_other {uid other : U} (e : CloudCache A P)
    (hn : other ≠ uid) : Finalizing (s.setCache uid e) other ↔ Finalizing s other := by
  rw [Finalizing, setCache_other e hn]
  exact .rfl

theorem accept_cases (sorting : Sorting (Server A P)) (s : ClientCloudManager U A P)
    (co : CloudConfig U) (c : Option (List (Server A P))) :
    let split := splitMissingLoaded s.aether co.sids
    let t := (s.setCache co.subjectUid
      ⟨false, co.configVersion, c, true⟩).finalizeCloudConfig sorting co
    (split.2 = [] ∧ t =
      { s.setCache co.subjectUid ⟨false, co.configVersion,
          some (sortNewServers sorting co.sids split.1), false⟩ with
        makeServers := s.makeServers ++ [⟨co, split.1, .start split.2, true⟩] }) ∨
    (split.2 ≠ [] ∧ t =
      { s.setCache co.subjectUid ⟨false, co.configVersion, c, true⟩ with
        makeServers := s.makeServers ++ [⟨co, split.1, .start split.2, false⟩] }) := by
  intro split t
  by_cases known : split.2 = []
  · refine .inl ⟨known, ?_⟩
    have hr : t = _ := if_pos known
    rw [hr, registerCloud]
    simp only [setCache, Function.update_self, Function.update_idem]
    rfl
  · exact .inr ⟨known, if_neg known⟩

theorem change_cloudConfig (sorting : Sorting (Server A P)) (s : ClientCloudManager U A P)
    (co : CloudConfig U) : Change s (s.cloudConfig sorting co) := by
  have ho := turn sorting s co
  generalize s.cloudConfig sorting co = t at ho ⊢
  cases ho with
  | skip => exact .quiet (fun _ => .rfl) fun _ _ => .rfl
  | confirm e hf hi =>
    refine .quiet (fun uid => ?_) fun _ _ => .rfl
    by_cases he : uid = co.subjectUid
    · rw [he, finalizing_setCache_same, finalizing_iff hf]
    · exact finalizing_setCache_other _ he
  | accept c hi =>
    rcases accept_cases sorting s co c with ⟨-, ha⟩ | ⟨-, ha⟩
    · rw [ha]
      refine .quiet (fun uid => ?_) fun i uid => ?_
      · by_cases he : uid = co.subjectUid
        · rw [he]
          refine iff_of_false (fun hm => ?_) hi
          exact Bool.false_ne_true ((finalizing_setCache_same (s := s) _ _).mp hm)
        · exact finalizing_setCache_other (s := s) _ he
      · rw [resolves_append rfl]
        exact or_iff_left fun hl => Bool.false_ne_true hl.2.1.symm
    · rw [ha]
      refine .start s.makeServers.length co.subjectUid hi (fun uid => ?_) fun i uid => ?_
      · by_cases he : uid = co.subjectUid
        · rw [he]
          exact iff_of_true ((finalizing_setCache_same (s := s) _ _).mpr rfl) (.inr rfl)
        · rw [or_iff_left he]
          exact finalizing_setCache_other (s := s) _ he
      · rw [resolves_append rfl]
        exact or_congr_right (and_congr_right fun _ => ⟨fun hl => hl.2.symm,
          fun he => ⟨rfl, he.symm⟩⟩)

theorem cloudConfigs_invariant {I : ClientCloudManager U A P → Prop}
    (hk : ∀ s c, I s → I (s.cloudConfig sorting c)) (cs : List (CloudConfig U))
    (hs : I s) : I (s.cloudConfigs sorting cs) := by
  induction cs generalizing s with
  | nil => exact hs
  | cons c cs ih =>
    by_cases mark : Finalizing s c.subjectUid
    · rw [cloudConfigs_cons_skip cs mark]
      exact hs
    · rw [cloudConfigs_cons cs mark]
      exact ih (hk s c hs)

theorem change_getResponse {i : Nat} {resolution : Resolution U A P}
    (hr : s.pending i = some resolution) (ht : Tracked s)
    (sd : ServerDescriptor A P) : Change s (s.getResponse sorting i resolution sd) := by
  have ha := (pending_eq_some.mp hr).2
  rw [getResponse]
  split
  · refine .quiet (fun _ => .rfl) fun j uid => ?_
    rw [resolves_set hr rfl]
    exact and_iff_left (.inr ha)
  · next r _ =>
    have hrs : Resolves s i resolution.conf.subjectUid := ⟨resolution, hr, rfl⟩
    obtain ⟨e, hf, -⟩ := ht.marked i _ hrs
    rw [registerCloud]
    simp only [setResolution, hf]
    refine .finish i resolution.conf.subjectUid hrs (fun uid => ?_) fun j uid => ?_
    · by_cases same : uid = resolution.conf.subjectUid
      · rw [same]
        refine iff_of_false (fun hm => ?_) fun hb => hb.2 rfl
        exact Bool.false_ne_true ((finalizing_setCache_same _ _).mp hm)
      · rw [and_iff_left same]
        exact finalizing_setCache_other _ same
    · rw [resolves_set hr rfl]
      exact and_congr_right fun _ => or_iff_left (fun hl => Bool.false_ne_true hl.symm)

theorem Tracked.step (ht : Tracked s) (e : Event U A P) : Tracked (s.step sorting e) := by
  cases e with
  | configs configs =>
    exact cloudConfigs_invariant
      (fun s c ht => (change_cloudConfig sorting s c).tracked ht) configs ht
  | descriptor i sd =>
    rw [ClientCloudManager.step]
    cases hrn : s.pending i with
    | none => exact ht
    | some resolution => exact (change_getResponse hrn ht sd).tracked ht
  | failed i =>
    rw [ClientCloudManager.step]
    cases hrn : s.pending i with
    | none => exact ht
    | some resolution =>
      obtain ⟨hm, hr⟩ := failed_effect hrn
      refine ⟨fun j uid hs => ?_, fun j k uid h1 h2 => ?_⟩
      · exact (hm uid).mpr (ht.marked j uid ((hr j uid).mp hs).1)
      · exact ht.single j k uid ((hr j uid).mp h1).1 ((hr k uid).mp h2).1

theorem MarkExact.step_iff (he : MarkExact s) (ht : Tracked s) (e : Event U A P) :
    MarkExact (s.step sorting e) ↔ Unfailing s e := by
  cases e with
  | configs configs =>
    refine iff_of_true ?_ trivial
    refine (cloudConfigs_invariant (I := fun s => Tracked s ∧ MarkExact s) (fun s c hb => ?_)
      configs ⟨ht, he⟩).2
    have hc := change_cloudConfig sorting s c
    exact ⟨hc.tracked hb.1, hc.markExact hb.1 hb.2⟩
  | descriptor i sd =>
    refine iff_of_true ?_ trivial
    rw [step]
    cases hr : s.pending i with
    | none => exact he
    | some resolution => exact (change_getResponse hr ht sd).markExact ht he
  | failed i =>
    rw [step, Unfailing]
    cases hr : s.pending i with
    | none => exact iff_of_true he rfl
    | some resolution =>
      refine iff_of_false (fun hex => ?_) (some_ne_none resolution)
      -- The mark of the uid is still set, and its only resolution is gone.
      obtain ⟨hm, hrl⟩ := failed_effect hr
      have hrs : Resolves s i resolution.conf.subjectUid := ⟨resolution, hr, rfl⟩
      have hmr := (hm _).mpr (ht.marked i _ hrs)
      obtain ⟨j, hs⟩ := (hex _).mp hmr
      obtain ⟨hbf, hn⟩ := (hrl j _).mp hs
      exact hn (ht.single j i _ hbf hrs)

end

theorem not_resolves_loaded (a : Aether A P) (st : U → Option (StoredCache A P))
    (i : Nat) (uid : U) : ¬Resolves (loaded a st) i uid :=
  not_resolves_of_completed rfl i uid

theorem not_finalizing_loaded (a : Aether A P) (st : U → Option (StoredCache A P))
    (uid : U) : ¬Finalizing (loaded a st) uid := by
  rintro ⟨e, hf, hm⟩
  obtain ⟨c, -, rfl⟩ := map_eq_some_iff.mp hf
  exact Bool.false_ne_true hm

theorem tracked_loaded (a : Aether A P) (st : U → Option (StoredCache A P)) :
    Tracked (loaded a st) where
  marked i uid resolves := absurd resolves (not_resolves_loaded a st i uid)
  single i _ uid resolves := absurd resolves (not_resolves_loaded a st i uid)

/-- The mark of every uid is exact throughout a run exactly when no resolution fails in it. -/
theorem mark_exact_iff_unfailing [DecidableEq U] (sorting : Sorting (Server A P))
    (aether : Aether A P) (stored : U → Option (StoredCache A P)) (events : List (Event U A P)) :
    Always (step sorting) MarkExact (loaded aether stored) events ↔
      Along (step sorting) Unfailing (loaded aether stored) events := by
  refine always_iff_along (A := fun s _ => Tracked s)
    (fun s e he ht => he.step_iff ht e) (fun uid => ?_) ?_
  · refine iff_of_false (not_finalizing_loaded aether stored uid) ?_
    rintro ⟨i, hr⟩
    exact not_resolves_loaded aether stored i uid hr
  · exact along_invariant (fun s e ht => ht.step e) (tracked_loaded aether stored)

def emptyManager : ClientCloudManager Nat Nat Nat := loaded noServers fun _ => none

def failedThenNewer : List (Event Nat Nat Nat) :=
  [.configs [⟨1, 1, [5]⟩], .failed 0, .configs [⟨1, 2, [6]⟩]]

/-- After the failure no resolution runs, the mark is set and the newer config is skipped. -/
theorem failed_resolution_keeps_mark :
    let sorting := insertionSorting (Server Nat Nat)
    let s := run (step sorting) emptyManager failedThenNewer
    (s.makeServers.map Resolution.completed = [true] ∧
      (s.cloudCache 1).map CloudCache.finalizing = some true ∧
      (s.cloudCache 1).map CloudCache.version = some 1) ∧
      ¬Always (step sorting) MarkExact emptyManager failedThenNewer := by
  refine ⟨by decide, fun hex => ?_⟩
  obtain ⟨-, -, he, -⟩ := hex
  obtain ⟨i, hr⟩ := (he 1).mp ⟨_, rfl, rfl⟩
  exact not_resolves_of_completed (by decide) i 1 hr

end Ae.ConnectionManager.Finalization
