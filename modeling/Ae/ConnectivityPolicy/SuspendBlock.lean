/- source: client_connectivity_policy.{h,cpp}
   digest: The count of suspend blockers, with handlers that run while one is released. -/

import Ae.Lib.EventRun
import Mathlib.Data.List.Perm.Subperm

set_option autoImplicit false

namespace Ae.ConnectivityPolicy.SuspendBlock
open List Lib.EventRun

/-- A `Reset` whose handlers are running: the blocker that it clears in the end, and the one that
an assignment takes over from after that. -/
structure Release where
  blocker : Nat
  source : Option Nat

/-- The count of 8 bits, `can_suspend_`, the blockers with a `policy_`, and the releases that
notify, the innermost first. How often the event was emitted is a history. -/
structure ClientConnectivityPolicy where
  suspendBlockCount : Nat
  canSuspend : Bool
  blockers : List Nat
  releases : List Release
  emitted : Nat

/-- `construct` is the move constructor, and `reset` also the destructor. With `handled` the
handlers of the innermost release return. -/
inductive Event where
  | acquire (b : Nat)
  | construct (b other : Nat)
  | assign (b other : Nat)
  | reset (b : Nat)
  | handled

namespace ClientConnectivityPolicy

def start : ClientConnectivityPolicy := ⟨0, true, [], [], 0⟩

variable (s : ClientConnectivityPolicy)

def acquire (b : Nat) : ClientConnectivityPolicy :=
  if b ∈ s.blockers then s
  else { s with
    suspendBlockCount := (s.suspendBlockCount + 1) % 256
    canSuspend := false
    blockers := b :: s.blockers }

def exchange (b other : Nat) : ClientConnectivityPolicy :=
  if other ∈ s.blockers then { s with blockers := b :: s.blockers.erase other } else s

def clear (r : Release) : ClientConnectivityPolicy :=
  let cleared := { s with blockers := s.blockers.erase r.blocker }
  match r.source with
  | none => cleared
  | some other => cleared.exchange r.blocker other

def release (r : Release) : ClientConnectivityPolicy :=
  if r.blocker ∉ s.blockers ∨ s.suspendBlockCount = 0 then s.clear r
  else
    let s' := { s with
      suspendBlockCount := s.suspendBlockCount - 1
      canSuspend := s.suspendBlockCount - 1 = 0 }
    if s'.canSuspend then { s' with releases := r :: s.releases, emitted := s.emitted + 1 }
    else s'.clear r

def step : Event → ClientConnectivityPolicy
  | .acquire b => s.acquire b
  | .construct b other => if b ∈ s.blockers then s else s.exchange b other
  | .assign b other => if b = other then s else s.release ⟨b, some other⟩
  | .reset b => s.release ⟨b, none⟩
  | .handled =>
    match s.releases with
    | [] => s
    | r :: outer => { s with releases := outer }.clear r

def Leaving (b : Nat) : Prop := b ∈ s.releases.map Release.blocker

instance : DecidablePred s.Leaving := fun b => inferInstanceAs (Decidable (b ∈ _))

end ClientConnectivityPolicy

open ClientConnectivityPolicy

/-- No more than 255 blockers, and none is touched while its release is notified. -/
def Sparing (s : ClientConnectivityPolicy) : Event → Prop
  | .acquire _ => s.suspendBlockCount < 255
  | .construct _ other => ¬ s.Leaving other
  | .assign b other => ¬ s.Leaving b ∧ ¬ s.Leaving other
  | .reset b => ¬ s.Leaving b
  | .handled => True

/-- The count is that of the blockers which hold the policy and are not being released, and
suspension is allowed when there is none. -/
structure Counted (s : ClientConnectivityPolicy) : Prop where
  count : s.suspendBlockCount = s.blockers.countP fun b => ¬ s.Leaving b
  allowed : s.canSuspend ↔ s.suspendBlockCount = 0

/-- Each release is of a blocker of its own, which holds the policy; and an assignment
takes over from a blocker that is in no outer release. -/
structure Sound (s : ClientConnectivityPolicy) : Prop where
  count : s.suspendBlockCount + s.releases.length = s.blockers.length
  allowed : s.canSuspend ↔ s.suspendBlockCount = 0
  byte : s.suspendBlockCount < 256
  distinct : s.blockers.Nodup
  apart : (s.releases.map Release.blocker).Nodup
  own : ∀ r ∈ s.releases, r.blocker ∈ s.blockers
  sources : s.releases.Pairwise fun inner outer => inner.source ≠ some outer.blocker

variable {s : ClientConnectivityPolicy}

theorem Sound.counted (hs : Sound s) : Counted s := by
  have left : s.blockers.countP (fun b => s.Leaving b) = s.releases.length := by
    rw [countP_eq_length_filter, ← length_map Release.blocker]
    refine Perm.length_eq ((perm_ext_iff_of_nodup (hs.distinct.filter _) hs.apart).mpr fun b => ?_)
    rw [mem_filter, decide_eq_true_eq, and_iff_right_of_imp]
    · rfl
    · intro leaving
      obtain ⟨r, hm, rfl⟩ := mem_map.mp leaving
      exact hs.own r hm
  have all := length_eq_countP_add_countP (fun b => decide (s.Leaving b)) (l := s.blockers)
  have count := hs.count
  simp only [decide_eq_true_eq] at all
  exact ⟨by omega, hs.allowed⟩

theorem sound_exchange (hsn : Sound s) {b other : Nat} (hn : b ∉ s.blockers)
    (hs : ¬ s.Leaving other) : Sound (s.exchange b other) := by
  rw [exchange]
  split
  · next hh =>
    have hl := length_erase_of_mem hh
    have hsl := length_pos_of_mem hh
    have hst : ∀ r ∈ s.releases, r.blocker ≠ other :=
      fun r hm he => hs (he ▸ mem_map_of_mem hm)
    constructor <;> grind [Sound, nodup_cons, Nodup.erase]
  · exact hsn

theorem sound_handled (hsn : Sound s) {r : Release} {o : List Release}
    (hl : s.releases = r :: o) : Sound ({ s with releases := o }.clear r) := by
  obtain ⟨hcn, hal, hb, hd, ha, own, hs⟩ := hsn
  rw [hl] at hcn ha own hs
  obtain ⟨hh, ho⟩ := forall_mem_cons.mp own
  obtain ⟨h1, ha⟩ := nodup_cons.mp ha
  obtain ⟨hsf, hs⟩ := pairwise_cons.mp hs
  have hln := length_erase_of_mem hh
  have hc : Sound { s with blockers := s.blockers.erase r.blocker, releases := o } := by
    refine ⟨by grind, hal, hb, hd.erase _, ha, fun r' hm => ?_, hs⟩
    refine (mem_erase_of_ne fun he => h1 ?_).mpr (ho r' hm)
    exact he ▸ mem_map_of_mem hm
  rw [clear]
  rcases hsr : r.source with _ | other
  · exact hc
  · refine sound_exchange hc hd.not_mem_erase fun hlv => ?_
    obtain ⟨r', hm, he⟩ := mem_map.mp hlv
    exact hsf r' hm (hsr.trans (congrArg some he.symm))

theorem sound_release (hs : Sound s) {r : Release} (hst : ¬ s.Leaving r.blocker)
    (hf : ∀ other, r.source = some other → ¬ s.Leaving other) : Sound (s.release r) := by
  have hc := hs.count
  by_cases hh : r.blocker ∈ s.blockers
  · -- this blocker holds the policy beside those that are being released
    have ha : r.blocker :: s.releases.map Release.blocker ⊆ s.blockers := by
      refine cons_subset.mpr ⟨hh, fun b hm => ?_⟩
      obtain ⟨r', hm', rfl⟩ := mem_map.mp hm
      exact hs.own r' hm'
    have hmn := ((nodup_cons.mpr ⟨hst, hs.apart⟩).subperm ha).length_le
    rw [length_cons, length_map] at hmn
    have hp : Sound { s with
        suspendBlockCount := s.suspendBlockCount - 1
        canSuspend := s.suspendBlockCount - 1 = 0
        releases := r :: s.releases } := by
      have hb := hs.byte
      refine ⟨by simp only [length_cons]; omega, decide_eq_true_iff, by dsimp only; omega,
        hs.distinct, nodup_cons.mpr ⟨hst, hs.apart⟩,
        forall_mem_cons.mpr ⟨hh, hs.own⟩, pairwise_cons.mpr ⟨?_, hs.sources⟩⟩
      exact fun o hm ht => hf _ ht (mem_map_of_mem hm)
    rw [release, if_neg (not_or.mpr ⟨not_not.mpr hh, by omega⟩)]
    dsimp only
    split
    · exact ⟨hp.count, hp.allowed, hp.byte, hp.distinct, hp.apart, hp.own, hp.sources⟩
    · exact sound_handled hp rfl
  · rw [release, if_pos (.inl hh), clear, erase_of_not_mem hh]
    rcases hsr : r.source with _ | other
    · exact hs
    · exact sound_exchange hs hh (hf other hsr)

theorem sound_step (hs : Sound s) (e : Event) (hsp : Sparing s e) : Sound (s.step e) := by
  cases e with
  | acquire b =>
    rw [step, acquire]
    have hr : s.suspendBlockCount < 255 := hsp
    split
    · exact hs
    · constructor <;> grind [Sound, nodup_cons]
  | construct b o =>
    rw [step]
    split
    · exact hs
    · next new => exact sound_exchange hs new hsp
  | assign b o =>
    rw [step]
    split
    · exact hs
    · refine sound_release hs hsp.1 ?_
      rintro _ ⟨⟩
      exact hsp.2
  | reset b => exact sound_release hs hsp nofun
  | handled =>
    rw [step]
    split
    · exact hs
    · next r ou hl => exact sound_handled hs hl

theorem emitted_iff (s : ClientConnectivityPolicy) (e : Event) :
    (s.step e).emitted ≠ s.emitted ↔
      s.suspendBlockCount = 1 ∧ (s.step e).suspendBlockCount = 0 := by
  cases e <;> grind [step, acquire, exchange, clear, release]

/-- While no more than 255 blockers exist and none is touched from the handlers of its own
release, the count is right after every operation, and the event is emitted exactly when it goes
from one to zero. -/
theorem suspension_counted (events : List Event) (sparing : Along step Sparing start events) :
    Always step Counted start events ∧ ∀ s e, (step s e).emitted ≠ s.emitted ↔
      s.suspendBlockCount = 1 ∧ (s.step e).suspendBlockCount = 0 := by
  refine ⟨?_, emitted_iff⟩
  exact Always.of_invariant (fun _ e hk hg => sound_step hk e hg) (fun _ hk => hk.counted)
    ⟨rfl, by decide, by decide, nodup_nil, nodup_nil, nofun, .nil⟩ sparing

theorem suspension_counted_nested :
    Always step Counted start [.acquire 0, .reset 0, .acquire 1, .handled] :=
  (suspension_counted [.acquire 0, .reset 0, .acquire 1, .handled]
    ⟨(by decide : (0 : Nat) < 255), nofun, (by decide : (0 : Nat) < 255), trivial, trivial⟩).1

/-- A handler takes a new blocker and resets the old one again: suspension is allowed although the
new one blocks it. -/
theorem blocker_ignored :
    ¬ Counted (run step start
      [.acquire 0, .reset 0, .acquire 1, .reset 0, .handled, .handled]) := fun hc =>
  absurd hc.count (by decide)

end Ae.ConnectivityPolicy.SuspendBlock
