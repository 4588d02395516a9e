/- source: connection_manager/client_cloud_manager.cpp
   digest: A newer config that arrives during a resolution is dropped and not asked for again. -/

import Ae.ConnectionManager.Finalization

set_option autoImplicit false

namespace Ae.ConnectionManager.NewestConfig
open List AeActions.GetServers
open CloudConnections.Selecting (Sorting insertionSorting)
open CloudConfigs CloudConfigs.ClientCloudManager
open Finalization ServerResolution Lib.EventRun Option

variable {U A P : Type} [DecidableEq U]

def constructed (aether : Aether A P) (uid : U) (servers : List (Server A P)) :
    ClientCloudManager U A P :=
  loaded aether fun other => if other = uid then some ⟨true, 0, some servers⟩ else none

def ownConfig (uid : U) (servers : List (Server A P)) : CloudConfig U :=
  ⟨uid, 0, serverIds servers⟩

def brought : Event U A P → List (CloudConfig U)
  | .configs configs => configs
  | .descriptor _ _ => []
  | .failed _ => []

def Holds (entry : CloudCache A P) (conf : CloudConfig U) : Prop :=
  ∃ servers, entry.cloud = some servers ∧ (serverIds servers).Perm conf.sids

/-- The entry of the uid has the version and the servers of a newest of the configs for it. -/
def Newest (received : List (CloudConfig U)) (s : ClientCloudManager U A P) (uid : U) : Prop :=
  ∃ entry conf, s.cloudCache uid = some entry ∧ conf ∈ received ∧ conf.subjectUid = uid ∧
    entry.version = conf.configVersion ∧
    (∀ other ∈ received, other.subjectUid = uid → other.configVersion ≤ conf.configVersion) ∧
    Holds entry conf

def Covered (s : ClientCloudManager U A P) (conf : CloudConfig U) : Prop :=
  ∃ entry, s.cloudCache conf.subjectUid = some entry ∧ conf.configVersion ≤ entry.version

/-- At a config whose uid is pending, neither it nor one behind it is newer than the entry of its
uid. -/
def Undropped (sorting : Sorting (Server A P)) (s : ClientCloudManager U A P)
    (configs : List (CloudConfig U)) : Prop :=
  ∀ earlier conf later, configs = earlier ++ conf :: later →
    Finalizing (run (cloudConfig sorting) s earlier) conf.subjectUid →
    ∀ other ∈ conf :: later, Covered (run (cloudConfig sorting) s earlier) other

/-- Resolutions succeed, and no newer config arrives where it is dropped. -/
def Heeded (sorting : Sorting (Server A P)) (s : ClientCloudManager U A P) :
    Event U A P → Prop
  | .configs configs => Undropped sorting s configs
  | .descriptor _ _ => True
  | .failed i => s.pending i = none

variable {sorting : Sorting (Server A P)} {resolution : Resolution U A P}
  {s : ClientCloudManager U A P} {received : List (CloudConfig U)}

def Underway (resolution : Resolution U A P) : Prop :=
  ∃ (a : Aether A P) (received : List (ServerDescriptor A P)),
    let split := splitMissingLoaded a resolution.conf.sids
    resolution.servers = split.1 ∧ Collected split.2 received resolution.action

omit [DecidableEq U] in
theorem Underway.getResponse (hu : Underway resolution) (sd : ServerDescriptor A P) :
    Underway { resolution with action := resolution.action.getResponse sd } := by
  obtain ⟨a, received, hs, hc⟩ := hu
  exact ⟨a, received ++ [sd], hs, hc.getResponse sd⟩

variable (sorting) in
omit [DecidableEq U] in
theorem Underway.resolved (hu : Underway resolution) {result : List (ServerDescriptor A P)}
    (hf : resolution.action.results.head? = some result) (later : Aether A P) :
    (serverIds (sortNewServers sorting resolution.conf.sids
      (buildNewServers later resolution.servers result).2)).Perm resolution.conf.sids := by
  obtain ⟨a, received, hs, hc⟩ := hu
  have hfl : resolution.action.ids.length =
      (splitMissingLoaded a resolution.conf.sids).2.length := by
    by_contra notFull
    rw [hc.open_results notFull] at hf
    exact some_ne_none result hf.symm
  have hcm := hc.perm_of_full hfl
  rw [hc.full hfl] at hf
  obtain rfl : resolution.action.serverDescriptors = result := some.inj hf
  refine (sortNewServers_perm ..).trans ?_
  rw [serverIds_buildNewServers, hs]
  exact joined_perm a resolution.conf.sids hcm

section

variable {t : ClientCloudManager U A P} {later : List (CloudConfig U)}

def Origin (s : ClientCloudManager U A P) (entry : CloudCache A P) (conf : CloudConfig U) : Prop :=
  (∃ i resolution, s.pending i = some resolution ∧ resolution.conf = conf) ∨
    (∀ i, ¬Resolves s i conf.subjectUid) ∧ Holds entry conf

structure Follows (received : List (CloudConfig U)) (s : ClientCloudManager U A P) : Prop where
  covered : ∀ conf ∈ received, Covered s conf
  source : ∀ uid entry, s.cloudCache uid = some entry → ∃ conf ∈ received,
    conf.subjectUid = uid ∧ entry.version = conf.configVersion ∧ Origin s entry conf
  underway : ∀ i resolution, s.pending i = some resolution → Underway resolution

omit [DecidableEq U] in
theorem Origin.congr {e : CloudCache A P} {conf : CloudConfig U} (ho : Origin s e conf)
    (he : ∀ i resolution, resolution.conf.subjectUid = conf.subjectUid →
      (t.pending i = some resolution ↔ s.pending i = some resolution)) : Origin t e conf := by
  rcases ho with ⟨i, resolution, hr, rfl⟩ | ⟨hi, hh⟩
  · exact .inl ⟨i, resolution, (he i resolution rfl).mpr hr, rfl⟩
  · refine .inr ⟨fun i hrs => ?_, hh⟩
    obtain ⟨resolution, hr, hu⟩ := hrs
    exact hi i ⟨resolution, (he i resolution hu).mp hr, hu⟩

theorem Follows.setEntry (hf : Follows received s) (uid : U) (entry : CloudCache A P)
    (hc : t.cloudCache = (s.setCache uid entry).cloudCache)
    (hnw : ∀ old, s.cloudCache uid = some old → old.version ≤ entry.version)
    (hfr : ∀ i resolution, resolution.conf.subjectUid ≠ uid →
      (t.pending i = some resolution ↔ s.pending i = some resolution))
    (hor : ∃ c ∈ later, c.subjectUid = uid ∧ entry.version = c.configVersion ∧
      Origin t entry c) (hk : received ⊆ later) (hbr : ∀ c ∈ later, c ∈ received ∨
      c.subjectUid = uid ∧ c.configVersion ≤ entry.version)
    (hun : ∀ i resolution, t.pending i = some resolution → Underway resolution) :
    Follows later t := by
  have hh : t.cloudCache uid = some entry := hc ▸ setCache_same uid entry
  have ht : ∀ other ≠ uid, t.cloudCache other = s.cloudCache other := fun other hn =>
    hc ▸ setCache_other entry hn
  refine ⟨fun c hm => ?_, fun other found he => ?_, hun⟩
  · rcases hbr c hm with hb | ⟨rfl, ho⟩
    · obtain ⟨old, found, ho⟩ := hf.covered c hb
      by_cases he : c.subjectUid = uid
      · exact ⟨entry, he ▸ hh, le_trans ho (hnw old (he ▸ found))⟩
      · exact ⟨old, (ht _ he).trans found, ho⟩
    · exact ⟨entry, hh, ho⟩
  · by_cases hu : other = uid
    · obtain rfl : entry = found := some.inj (hh.symm.trans (hu ▸ he))
      rw [hu]
      exact hor
    · obtain ⟨c, hm, rfl, hv, hb⟩ :=
        hf.source other found ((ht other hu).symm.trans he)
      refine ⟨c, hk hm, rfl, hv, hb.congr fun i resolution hs => ?_⟩
      exact hfr i resolution (hs ▸ hu)

omit [DecidableEq U] in
theorem Follows.add (hf : Follows received s) {cs : List (CloudConfig U)}
    (hc : ∀ c ∈ cs, Covered s c) : Follows (received ++ cs) s := by
  refine ⟨fun c hm => ?_, fun uid e hfn => ?_, hf.underway⟩
  · rcases mem_append.mp hm with hb | last
    · exact hf.covered c hb
    · exact hc c last
  · obtain ⟨c, hm, hr⟩ := hf.source uid e hfn
    exact ⟨c, mem_append_left _ hm, hr⟩

omit [DecidableEq U] in
theorem pending_append_completed {a : Resolution U A P}
    (hw : t.makeServers = s.makeServers ++ [a]) (hc : a.completed = true)
    (i : Nat) (resolution : Resolution U A P) :
    t.pending i = some resolution ↔ s.pending i = some resolution :=
  (pending_append hw i resolution).trans
    (or_iff_left fun hf => Bool.false_ne_true (hf.2.1.symm.trans hc))

omit [DecidableEq U] in
theorem mem_append_singleton {c o : CloudConfig U} {version : Int}
    (ho : c.configVersion ≤ version) (hm : o ∈ received ++ [c]) :
    o ∈ received ∨ o.subjectUid = c.subjectUid ∧ o.configVersion ≤ version := by
  rcases mem_append.mp hm with hb | last
  · exact .inl hb
  · obtain rfl := mem_singleton.mp last
    exact .inr ⟨rfl, ho⟩

omit [DecidableEq U] in
theorem holds_known (conf : CloudConfig U) (e : CloudCache A P) (a : Aether A P)
    (hk : (splitMissingLoaded a conf.sids).2 = []) (hcl : e.cloud =
      some (sortNewServers sorting conf.sids (splitMissingLoaded a conf.sids).1)) :
    Holds e conf := by
  refine ⟨_, hcl, (sortNewServers_perm ..).trans ?_⟩
  have hc : ([] : List Nat).Perm (splitMissingLoaded a conf.sids).2 :=
    hk ▸ Perm.refl _
  have hj := joined_perm a conf.sids hc
  rwa [append_nil] at hj

theorem Follows.cloudConfig (hf : Follows received s) (co : CloudConfig U)
    (hi : ¬Finalizing s co.subjectUid) (ht : Tracked s) :
    Follows (received ++ [co]) (s.cloudConfig sorting co) := by
  have hk : received ⊆ received ++ [co] := subset_append_left ..
  have hl : co ∈ received ++ [co] := mem_append_right _ (.head _)
  have hu : ∀ i, ¬Resolves s i co.subjectUid := fun i hrs =>
    hi (ht.marked i _ hrs)
  have ho := turn sorting s co
  generalize s.cloudConfig sorting co = t at ho ⊢
  cases ho with
  | skip hp => exact absurd hp hi
  | confirm e hfn hun hkn =>
    have hol : ∀ old, s.cloudCache co.subjectUid = some old → old.version ≤ e.version :=
      fun old he => (some.inj (hfn.symm.trans he)) ▸ le_refl _
    obtain ⟨so, mem, uid, hv, hor⟩ := hf.source _ e hfn
    exact hf.setEntry co.subjectUid _ rfl hol (fun _ _ _ => .rfl)
      ⟨so, hk mem, uid, hv, hor⟩ hk
      (fun o => mem_append_singleton hkn) hf.underway
  | accept c _ hol =>
    have hn : ∀ old, s.cloudCache co.subjectUid = some old →
        old.version ≤ co.configVersion := fun old he => Int.le_of_lt (hol old he)
    rcases accept_cases sorting s co c with ⟨hkn, ha⟩ | ⟨hm, ha⟩
    · have hc := congrArg ClientCloudManager.cloudCache ha
      have had := congrArg ClientCloudManager.makeServers ha
      have he := pending_append_completed had rfl
      refine hf.setEntry co.subjectUid ⟨false, co.configVersion, some _, false⟩
        hc hn (fun i resolution _ => he i resolution)
        ⟨co, hl, rfl, rfl, .inr ⟨fun i hrs => ?_, ?_⟩⟩ hk
        ?_ fun i resolution hr => ?_
      · obtain ⟨resolution, hr, uid⟩ := hrs
        exact hu i ⟨resolution, (he i resolution).mp hr, uid⟩
      · exact holds_known co _ s.aether hkn rfl
      · exact fun o => mem_append_singleton (le_refl _)
      · exact hf.underway i resolution ((he i resolution).mp hr)
    · have hc := congrArg ClientCloudManager.cloudCache ha
      have had := congrArg ClientCloudManager.makeServers ha
      have hw := (pending_append had s.makeServers.length _).mpr (.inr ⟨rfl, rfl, rfl⟩)
      refine hf.setEntry co.subjectUid ⟨false, co.configVersion, c, true⟩
        hc hn (fun i resolution hd => ?_)
        ⟨co, hl, rfl, rfl, .inl ⟨s.makeServers.length, _, hw, rfl⟩⟩ hk
        ?_ fun i resolution hr => ?_
      · refine (pending_append had i resolution).trans (or_iff_left fun hfr => hd ?_)
        rw [hfr.2.2]
      · exact fun o => mem_append_singleton (le_refl _)
      · rcases (pending_append had i resolution).mp hr with hb | ⟨-, -, rfl⟩
        · exact hf.underway i resolution hb
        · exact ⟨s.aether, [], rfl, collected_receive hm []⟩

theorem Follows.cloudConfigs {configs : List (CloudConfig U)} (hf : Follows received s)
    (ht : Tracked s) (hu : Undropped sorting s configs) :
    Follows (received ++ configs) (s.cloudConfigs sorting configs) := by
  induction configs generalizing s received with
  | nil =>
    rw [append_nil]
    exact hf
  | cons c configs ih =>
    by_cases hm : Finalizing s c.subjectUid
    · rw [cloudConfigs_cons_skip configs hm]
      exact hf.add (hu [] c configs rfl hm)
    · rw [cloudConfigs_cons configs hm]
      have hr : Undropped sorting (s.cloudConfig sorting c) configs :=
        fun e n later hs =>
          hu (c :: e) n later (congrArg (c :: ·) hs)
      have ha := ih (hf.cloudConfig c hm ht)
        ((change_cloudConfig sorting s c).tracked ht) hr
      rwa [append_assoc] at ha

variable {i : Nat}

omit [DecidableEq U] in
theorem Follows.collect (hf : Follows received s)
    (hrn : s.pending i = some resolution) (sd : ServerDescriptor A P) :
    Follows received
      (s.setResolution i { resolution with action := resolution.action.getResponse sd }) := by
  have ha := (pending_eq_some.mp hrn).2
  have hw := pending_set (t := s.setResolution i
    { resolution with action := resolution.action.getResponse sd }) hrn rfl
  refine ⟨hf.covered, fun uid e hfd => ?_, fun j o hfn => ?_⟩
  · obtain ⟨c, hm, rfl, hv, ho⟩ := hf.source uid e hfd
    refine ⟨c, hm, rfl, hv, ?_⟩
    rcases ho with ⟨j, o, hwt, rfl⟩ | ⟨hi, hhl⟩
    · by_cases hh : j = i
      · obtain rfl := some.inj (hrn.symm.trans (hh ▸ hwt))
        exact .inl ⟨i, _, (hw i _).mpr (.inr ⟨rfl, ha, rfl⟩), rfl⟩
      · exact .inl ⟨j, o, (hw j o).mpr (.inl ⟨hh, hwt⟩), rfl⟩
    · refine .inr ⟨fun j hr => ?_, hhl⟩
      exact hi j ((resolves_set hrn rfl j _).mp hr).1
  · rcases (hw j o).mp hfn with ⟨-, hb⟩ | ⟨-, -, rfl⟩
    · exact hf.underway j o hb
    · exact (hf.underway i resolution hrn).getResponse sd

theorem Follows.getResponse (hf : Follows received s) (ht : Tracked s)
    (hr : s.pending i = some resolution) (sd : ServerDescriptor A P) :
    Follows received (s.getResponse sorting i resolution sd) := by
  rw [ClientCloudManager.getResponse]
  split
  · exact hf.collect hr sd
  · next r finished =>
    have hrs : Resolves s i resolution.conf.subjectUid := ⟨resolution, hr, rfl⟩
    obtain ⟨e, hfn, -⟩ := ht.marked i _ hrs
    obtain ⟨c, hm, hu, hv, ho⟩ := hf.source _ e hfn
    have hce : c = resolution.conf := by
      rcases ho with ⟨j, o, hw, rfl⟩ | ⟨hi, -⟩
      · have hh := ht.single j i _ ⟨o, hw, hu⟩ hrs
        rw [some.inj (hr.symm.trans (hh ▸ hw))]
      · exact absurd (hu ▸ hrs) (hi i)
    have hc := ((hf.underway i resolution hr).getResponse sd).resolved
      sorting finished s.aether
    rw [registerCloud]
    simp only [setResolution, hfn]
    refine hf.setEntry resolution.conf.subjectUid
      { e with finalizing := false, cloud := some _ } rfl (fun old he => ?_)
      (fun j o hn => ?_)
      ⟨c, hm, hu, hv, .inr ⟨fun j hrl => ?_, ?_⟩⟩ (fun _ => id)
      (fun _ => .inl) fun j o hfd => ?_
    · rw [some.inj (hfn.symm.trans he)]
    · refine (pending_set hr rfl j o).trans ?_
      rw [or_iff_left fun hl => Bool.false_ne_true hl.2.1.symm]
      refine and_iff_right_of_imp fun hw hh => hn ?_
      rw [some.inj (hr.symm.trans (hh ▸ hw))]
    · obtain ⟨hb, hrn⟩ := (resolves_set hr rfl j _).mp hrl
      have hn := hrn.resolve_right fun hl => Bool.false_ne_true hl.symm
      exact hn (ht.single j i _ (hu ▸ hb) hrs)
    · rw [hce]
      exact ⟨_, rfl, hc⟩
    · rcases (pending_set hr rfl j o).mp hfd with ⟨-, hb⟩ | ⟨-, ha, -⟩
      · exact hf.underway j o hb
      · exact absurd ha.symm Bool.false_ne_true

theorem Follows.step (hf : Follows received s) (ht : Tracked s) (e : Event U A P)
    (hh : Heeded sorting s e) : Follows (received ++ brought e) (s.step sorting e) := by
  cases e with
  | configs configs => exact hf.cloudConfigs ht hh
  | descriptor i sd =>
    rw [ClientCloudManager.step, brought, append_nil]
    cases running : s.pending i with
    | none => exact hf
    | some resolution => exact hf.getResponse ht running sd
  | failed i =>
    have hi : s.pending i = none := hh
    rw [ClientCloudManager.step, brought, append_nil, hi]
    exact hf

theorem Follows.run (hf : Follows received s) (ht : Tracked s) {es : List (Event U A P)}
    (hh : Along (ClientCloudManager.step sorting) (Heeded sorting) s es) :
    Follows (received ++ es.flatMap brought) (run (ClientCloudManager.step sorting) s es) := by
  induction es generalizing s received with
  | nil =>
    rw [flatMap_nil, append_nil]
    exact hf
  | cons e es ih =>
    have ha := ih (hf.step ht e hh.1) (ht.step e) hh.2
    rwa [append_assoc] at ha

end

theorem follows_constructed (a : Aether A P) (uid : U) (ss : List (Server A P)) :
    Follows [ownConfig uid ss] (constructed a uid ss) := by
  have ho : (constructed a uid ss).cloudCache uid =
      some ⟨true, 0, some ss, false⟩ :=
    congrArg (Option.map StoredCache.load) (if_pos rfl)
  refine ⟨fun c hm => ?_, fun o e hf => ?_, fun i resolution hr => ?_⟩
  · obtain rfl := mem_singleton.mp hm
    exact ⟨_, ho, le_refl _⟩
  · by_cases he : o = uid
    · obtain rfl := Option.some.inj (ho.symm.trans (he ▸ hf))
      refine ⟨_, .head _, he.symm, rfl, .inr ⟨fun i => ?_, ss, rfl, .refl _⟩⟩
      exact not_resolves_loaded a _ i uid
    · have ha : (constructed a uid ss).cloudCache o = none :=
        congrArg (Option.map StoredCache.load) (if_neg he)
      exact absurd (ha.symm.trans hf) (Option.some_ne_none e).symm
  · exact absurd ⟨resolution, hr, rfl⟩ (not_resolves_loaded a _ i _)

omit [DecidableEq U] in
theorem Follows.newest (hfl : Follows received s) {c : CloudConfig U}
    (hm : c ∈ received) (hi : ∀ i, ¬Resolves s i c.subjectUid) :
    Newest received s c.subjectUid := by
  obtain ⟨e, hfn, -⟩ := hfl.covered c hm
  obtain ⟨so, hfr, hu, hv, ho⟩ := hfl.source _ e hfn
  refine ⟨e, so, hfn, hfr, hu, hv, fun o hrt he => ?_, ?_⟩
  · obtain ⟨a, hf, hol⟩ := hfl.covered o hrt
    rw [he] at hf
    rw [← hv, some.inj (hfn.symm.trans hf)]
    exact hol
  · rcases ho with ⟨i, resolution, hr, rfl⟩ | ⟨-, hh⟩
    · exact absurd ⟨resolution, hr, hu⟩ (hi i)
    · exact hh

/-- In a run in which resolutions succeed and no newer config meets a running resolution, a uid
without a running resolution has the version and the servers of its newest config. -/
theorem newest_config_cached (sorting : Sorting (Server A P)) (aether : Aether A P) (own : U)
    (servers : List (Server A P)) (events : List (Event U A P))
    (heeded : Along (ClientCloudManager.step sorting) (Heeded sorting)
      (constructed aether own servers) events)
    (conf : CloudConfig U) (mem : conf ∈ ownConfig own servers :: events.flatMap brought)
    (idle : ∀ i, ¬Resolves (run (ClientCloudManager.step sorting)
      (constructed aether own servers) events) i conf.subjectUid) :
    Newest (ownConfig own servers :: events.flatMap brought)
      (run (ClientCloudManager.step sorting) (constructed aether own servers) events)
      conf.subjectUid :=
  ((follows_constructed aether own servers).run (tracked_loaded ..) heeded).newest mem idle

def renewed : List (Event Nat Nat Nat) :=
  [.configs [⟨1, 1, [5]⟩], .descriptor 0 ⟨5, []⟩, .configs [⟨1, 2, [5]⟩]]

/-- A second config comes when the first one is resolved. -/
theorem newest_config_cached_renewed :
    let sorting := insertionSorting (Server Nat Nat)
    Newest (ownConfig 0 ([] : List (Server Nat Nat)) :: renewed.flatMap brought)
      (run (step sorting) (constructed noServers 0 []) renewed) 1 := by
  intro sorting
  refine newest_config_cached sorting noServers 0 [] renewed ⟨?_, trivial, ?_, trivial⟩
    ⟨1, 2, [5]⟩ (.tail _ (.tail _ (.head _))) (not_resolves_of_completed (by decide) · 1)
  all_goals
    intro e c later hs hm
    cases e with
    | nil =>
      cases hs
      obtain ⟨entry, found, finalizing⟩ := hm
      cases found <;> cases finalizing
    | cons f rest => exact absurd (cons.inj hs).2 (by simp)

def newerWhileResolving : List (Event Nat Nat Nat) :=
  [.configs [⟨1, 1, [5]⟩], .configs [⟨1, 2, [6]⟩], .descriptor 0 ⟨5, []⟩]

/-- No resolution is left and the older version is cached. -/
theorem newer_config_dropped :
    let sorting := insertionSorting (Server Nat Nat)
    let s := run (step sorting) (constructed noServers 0 []) newerWhileResolving
    (s.makeServers.map Resolution.completed = [true] ∧
      (s.cloudCache 1).map CloudCache.version = some 1) ∧
      ¬Newest (ownConfig 0 ([] : List (Server Nat Nat)) :: newerWhileResolving.flatMap brought)
        s 1 := by
  refine ⟨by decide, ?_⟩
  rintro ⟨e, c, hf, -, -, hv, hn, -⟩
  have hl := hn ⟨1, 2, [6]⟩ (.tail _ (.tail _ (.head _))) rfl
  obtain rfl := some.inj hf
  rw [← hv] at hl
  exact absurd hl (by decide)

end Ae.ConnectionManager.NewestConfig
