/- source: ae_actions/get_servers.cpp, work_cloud_api/server_descriptor.h
   digest: The answers are counted against the length of the request, repetitions included. -/

import Ae.Lib.EventRun
import Mathlib.Data.List.Induction
import Mathlib.Data.List.Nodup
import Mathlib.Data.List.Perm.Subperm

set_option autoImplicit false

namespace Ae.AeActions.GetServers
open List Lib.EventRun

variable {A P : Type}

structure CoderAndPort (P : Type) where
  protocol : P
  port : Nat

structure IpAddressAndPort (A P : Type) where
  ip : A
  protocolAndPorts : List (CoderAndPort P)

structure ServerDescriptor (A P : Type) where
  serverId : Nat
  ips : List (IpAddressAndPort A P)

open ServerDescriptor

/-- `results` is a history: the descriptors at each `Succeeded` of the request, which are what
`result_event_` emits. -/
structure GetServersAction (A P : Type) where
  serverIds : List Nat
  serverDescriptors : List (ServerDescriptor A P)
  results : List (List (ServerDescriptor A P))

namespace GetServersAction

def start (serverIds : List Nat) : GetServersAction A P := ⟨serverIds, [], []⟩

variable (s : GetServersAction A P)

def ids : List Nat :=
  s.serverDescriptors.map serverId

def succeeded : GetServersAction A P :=
  { s with results := s.results ++ [s.serverDescriptors] }

def insert (sd : ServerDescriptor A P) : GetServersAction A P :=
  { s with serverDescriptors := s.serverDescriptors ++ [sd] }

def getResponse (sd : ServerDescriptor A P) : GetServersAction A P :=
  if sd.serverId ∉ s.serverIds then s
  else if sd.serverId ∈ s.ids then s
  else if (s.insert sd).serverDescriptors.length = s.serverIds.length then (s.insert sd).succeeded
  else s.insert sd

def receive (serverIds : List Nat) (received : List (ServerDescriptor A P)) :
    GetServersAction A P :=
  run getResponse (start serverIds) received

end GetServersAction

open GetServersAction

def Answered (serverIds : List Nat) (received : List (ServerDescriptor A P)) : Prop :=
  ∀ sid ∈ serverIds, sid ∈ received.map serverId

structure OnePer (serverIds : List Nat) (result : List (ServerDescriptor A P)) : Prop where
  distinct : (result.map serverId).Nodup
  requested : ∀ sid, sid ∈ result.map serverId ↔ sid ∈ serverIds

/-- After each received descriptor there is one result if all ids are answered by then, and none
otherwise. -/
def CompletesExactly (serverIds : List Nat) (received : List (ServerDescriptor A P)) : Prop :=
  ∀ sofar, sofar <+: received → (Answered serverIds sofar →
      ∃ result, (receive serverIds sofar).results = [result] ∧ OnePer serverIds result) ∧
    (¬Answered serverIds sofar → (receive serverIds sofar).results = [])

variable {serverIds : List Nat} {received : List (ServerDescriptor A P)}

section

variable {s : GetServersAction A P}

structure Collected (serverIds : List Nat) (received : List (ServerDescriptor A P))
    (s : GetServersAction A P) : Prop where
  request : s.serverIds = serverIds
  distinct : s.ids.Nodup
  answers : ∀ sid, sid ∈ s.ids ↔ sid ∈ serverIds ∧ sid ∈ received.map serverId
  full : s.ids.length = serverIds.length → s.results = [s.serverDescriptors]
  open_results : s.ids.length ≠ serverIds.length → s.results = []

theorem ids_insert (sd : ServerDescriptor A P) : (s.insert sd).ids = s.ids ++ [sd.serverId] :=
  map_append

section

variable (hc : Collected serverIds received s)
include hc

theorem Collected.subset : s.ids ⊆ serverIds :=
  fun sid hm => ((hc.answers sid).mp hm).1

theorem Collected.subperm : s.ids.Subperm serverIds :=
  subperm_of_subset hc.distinct hc.subset

theorem Collected.perm_of_full (hf : s.ids.length = serverIds.length) : s.ids.Perm serverIds :=
  hc.subperm.perm_of_length_le (Nat.le_of_eq hf.symm)

theorem Collected.ignore {sd : ServerDescriptor A P}
    (hk : sd.serverId ∈ serverIds → sd.serverId ∈ s.ids) :
    Collected serverIds (received ++ [sd]) s := by
  refine ⟨hc.request, hc.distinct, fun sid => ?_, hc.full, hc.open_results⟩
  rw [hc.answers, map_append, mem_append]
  refine and_congr_right fun hr => ⟨.inl, ?_⟩
  rintro (hb | last)
  · exact hb
  · obtain rfl : sid = sd.serverId := by simpa using last
    exact ((hc.answers _).mp (hk hr)).2

theorem Collected.insert_answers
    {sd : ServerDescriptor A P} (hr : sd.serverId ∈ serverIds) (hfr : sd.serverId ∉ s.ids) :
    (s.insert sd).ids.Nodup ∧ (∀ sid, sid ∈ (s.insert sd).ids ↔
        sid ∈ serverIds ∧ sid ∈ (received ++ [sd]).map serverId) ∧
      s.ids.length < serverIds.length := by
  have hd : (s.insert sd).ids.Nodup := by
    rw [ids_insert, ← concat_eq_append]
    exact hc.distinct.concat hfr
  have ha : ∀ sid, sid ∈ (s.insert sd).ids ↔
      sid ∈ serverIds ∧ sid ∈ (received ++ [sd]).map serverId := by
    intro sid
    rw [ids_insert, map_append, mem_append, mem_append, hc.answers, and_or_left]
    refine or_congr_right ⟨fun hl => ⟨?_, hl⟩, And.right⟩
    obtain rfl : sid = sd.serverId := by simpa using hl
    exact hr
  refine ⟨hd, ha, ?_⟩
  have hf := (subperm_of_subset hd fun sid hm =>
    ((ha sid).mp hm).1).length_le
  rw [ids_insert, length_append, length_singleton] at hf
  exact hf

theorem Collected.getResponse
    (sd : ServerDescriptor A P) : Collected serverIds (received ++ [sd]) (s.getResponse sd) := by
  rw [GetServersAction.getResponse, hc.request]
  split
  · next unrequested => exact hc.ignore fun hr => absurd hr unrequested
  · next hr =>
    split
    · next hk => exact hc.ignore fun _ => hk
    · next hfr =>
      obtain ⟨hd, ha, hrm⟩ := hc.insert_answers (not_not.mp hr) hfr
      have hs : (s.insert sd).ids.length = (s.insert sd).serverDescriptors.length :=
        length_map ..
      have hny : s.results = [] := hc.open_results (Nat.ne_of_lt hrm)
      split
      · next hf =>
        refine ⟨hc.request, hd, ha, fun _ => ?_, fun hdf => ?_⟩
        · exact congrArg (· ++ [(s.insert sd).serverDescriptors]) hny
        · exact absurd (hs.trans hf) hdf
      · next hn =>
        refine ⟨hc.request, hd, ha, fun hf => ?_, fun _ => hny⟩
        exact absurd (hs.symm.trans hf) hn

end

theorem collected_receive (hn : serverIds ≠ []) (received : List (ServerDescriptor A P)) :
    Collected serverIds received (receive serverIds received) := by
  induction received using reverseRecOn with
  | nil =>
    refine ⟨rfl, nodup_nil, fun sid => ?_, fun hf => ?_, fun _ => rfl⟩
    · exact iff_of_false not_mem_nil fun hb => not_mem_nil hb.2
    · exact absurd (length_eq_zero_iff.mp hf.symm) hn
  | append_singleton received sd ih =>
    have hl : receive serverIds (received ++ [sd]) =
        (receive serverIds received).getResponse sd := foldl_concat ..
    rw [hl]
    exact ih.getResponse sd

variable (hc : Collected serverIds received s)
include hc

theorem Collected.answered
    (hf : s.ids.length = serverIds.length) : Answered serverIds received := by
  intro sid hr
  have hcl := (hc.perm_of_full hf).mem_iff.mpr hr
  exact ((hc.answers sid).mp hcl).2

theorem Collected.full_of_answered (hd : serverIds.Nodup) (ha : Answered serverIds received) :
    s.ids.length = serverIds.length := by
  refine Nat.le_antisymm hc.subperm.length_le ?_
  refine (subperm_of_subset hd fun sid hr => ?_).length_le
  exact (hc.answers sid).mpr ⟨hr, ha sid hr⟩

theorem Collected.onePer
    (hf : s.ids.length = serverIds.length) : OnePer serverIds s.serverDescriptors :=
  ⟨hc.distinct, fun _ => (hc.perm_of_full hf).mem_iff⟩

end

theorem Answered.mono {so : List (ServerDescriptor A P)} (hw : so <+: received)
    (ha : Answered serverIds so) : Answered serverIds received :=
  fun sid hr => map_subset _ hw.subset (ha sid hr)

/-- The request completes exactly when all answers are in, unless an id is requested twice and
every id is answered. -/
theorem completes_exactly_iff_distinct_or_unanswered (serverIds : List Nat)
    (nonempty : serverIds ≠ []) (received : List (ServerDescriptor A P)) :
    CompletesExactly serverIds received ↔ serverIds.Nodup ∨ ¬Answered serverIds received := by
  constructor
  · intro hcm
    refine or_iff_not_imp_right.mpr fun ha => ?_
    obtain ⟨r, hr, -⟩ := (hcm received (prefix_rfl)).1 (not_not.mp ha)
    have hc := collected_receive nonempty received
    have hf : (receive serverIds received).ids.length = serverIds.length := by
      by_contra notFull
      rw [hc.open_results notFull] at hr
      exact cons_ne_nil _ _ hr.symm
    exact (hc.perm_of_full hf).nodup_iff.mp hc.distinct
  · intro hcn so hw
    have hc := collected_receive nonempty so
    refine ⟨fun ha => ?_, fun hu => ?_⟩
    · have hd : serverIds.Nodup := hcn.resolve_right fun hm =>
        hm (ha.mono hw)
      have hf := hc.full_of_answered hd ha
      exact ⟨_, hc.full hf, hc.onePer hf⟩
    · exact hc.open_results fun hf => hu (hc.answered hf)

def answersToTwice : List (ServerDescriptor Nat Nat) := [⟨7, []⟩, ⟨7, []⟩]

theorem completes_exactly_two_ids : CompletesExactly [8, 7] (answersToTwice ++ [⟨8, []⟩]) :=
  (completes_exactly_iff_distinct_or_unanswered [8, 7] (by decide) _).mpr (.inl (by decide))

/-- An id that is requested twice is answered, and the request never succeeds. -/
theorem repeated_id_never_completes : ¬CompletesExactly [7, 7] answersToTwice := by
  intro hc
  obtain ⟨r, hrs, -⟩ := (hc answersToTwice (prefix_rfl)).1 (by
    intro sid hr
    have he : sid = 7 := by simpa using hr
    rw [he]
    decide)
  have ho : (receive [7, 7] answersToTwice).results.length = 1 := congrArg length hrs
  exact absurd ho (by decide)

end Ae.AeActions.GetServers
