/- source: tele/{itrap.h,traps/statistics_trap.{h,cpp}}
   digest: The metrics merged from two traps, beside those of one trap that recorded all. -/

import Mathlib.Algebra.Group.Nat.Defs
import Mathlib.Data.List.Induction

set_option autoImplicit false

namespace Ae.Tele.Metrics

/-- `MetricsStore::Metric`; `0` stands for no duration yet in `min_duration`. -/
structure Metric where
  invocationsCount : UInt64
  maxDuration : Nat
  sumDuration : UInt32
  minDuration : Nat
deriving DecidableEq

/-- Calls for a tag, with a count or the microseconds of a duration. -/
inductive Call where
  | addInvoke (tag count : Nat)
  | addInvokeDuration (tag duration : Nat)

abbrev MetricsMap := Nat → Option Metric

/-- What a call makes of the metric of its tag; the duration is cast to 32 bits. -/
def Metric.record (m : Metric) : Call → Metric
  | .addInvoke _ count => { m with invocationsCount := m.invocationsCount + .ofNat count }
  | .addInvokeDuration _ duration =>
    let d := duration % 2 ^ 32
    { m with
      sumDuration := m.sumDuration + .ofNat d
      maxDuration := max m.maxDuration d
      minDuration := if m.minDuration = 0 then d else min m.minDuration d }

def Call.tag : Call → Nat
  | .addInvoke tag _ | .addInvokeDuration tag _ => tag

def record (metrics : MetricsMap) (call : Call) : MetricsMap :=
  Function.update metrics call.tag (some (((metrics call.tag).getD ⟨0, 0, 0, 0⟩).record call))

def recorded (calls : List Call) : MetricsMap := calls.foldl record fun _ => none

/-- What `MergeStatistics` makes of a metric that both traps have. -/
def Metric.merge (m newer : Metric) : Metric :=
  ⟨m.invocationsCount + newer.invocationsCount, max m.maxDuration newer.maxDuration,
    m.sumDuration + newer.sumDuration, min m.minDuration newer.minDuration⟩

def mergeStatistics (metrics newer : MetricsMap) : MetricsMap := fun tag =>
  match newer tag, metrics tag with
  | some m, some old => some (old.merge m)
  | some m, none => some m
  | none, old => old

/-- The metric that goes on from one to the other: `0` is no duration on either side. -/
def Metric.continue (m newer : Metric) : Metric :=
  { m.merge newer with
    minDuration := if m.minDuration = 0 then newer.minDuration
      else if newer.minDuration = 0 then m.minDuration else min m.minDuration newer.minDuration }

def continued (metrics newer : MetricsMap) : MetricsMap := fun tag =>
  match newer tag, metrics tag with
  | some m, some old => some (old.continue m)
  | some m, none => some m
  | none, old => old

/-- No duration is cast to `0`. -/
def Timed : Call → Prop
  | .addInvoke _ _ => True
  | .addInvokeDuration _ duration => duration % 2 ^ 32 ≠ 0

theorem Metric.record_continue (m n : Metric) {ca : Call} (ht : Timed ca) :
    (m.continue n).record ca = m.continue (n.record ca) ∧
      m.record ca = m.continue ((⟨0, 0, 0, 0⟩ : Metric).record ca) := by
  cases ca with
  | addInvoke tag c => grind [Metric.record, Metric.continue, Metric.merge]
  | addInvokeDuration tag d =>
    have hp : d % 2 ^ 32 ≠ 0 := ht
    grind [Metric.record, Metric.continue, Metric.merge]

theorem foldl_record (ms : MetricsMap) {cs : List Call} (timed : ∀ c ∈ cs, Timed c) :
    cs.foldl record ms = continued ms (recorded cs) := by
  induction cs using List.reverseRecOn with
  | nil => rfl
  | append_singleton cs ca ih =>
    obtain ⟨before, last⟩ := List.forall_mem_append.mp timed
    have positive := last ca List.mem_cons_self
    rw [recorded, List.foldl_append, List.foldl_append, ih before, ← recorded]
    change record _ ca = continued ms (record _ ca)
    funext tag
    by_cases own : tag = ca.tag
    · rw [own, record, Function.update_self, continued, continued, record, Function.update_self]
      rcases recorded cs ca.tag with _ | newer <;> rcases ms ca.tag with _ | m
      · rfl
      · exact congrArg some (m.record_continue m positive).2
      · rfl
      · exact congrArg some (m.record_continue newer positive).1
    · simp [continued, record, own]

/-- Merging equals continuing exactly where each tag of both traps has durations in both of them
or in none. -/
theorem merge_continues_iff (a b : List Call) (timed : ∀ c ∈ b, Timed c) :
    mergeStatistics (recorded a) (recorded b) = recorded (a ++ b) ↔
      ∀ tag m newer, recorded a tag = some m → recorded b tag = some newer →
        (m.minDuration = 0 ↔ newer.minDuration = 0) := by
  rw [recorded.eq_def (a ++ b), List.foldl_append, foldl_record _ timed, ← recorded, funext_iff]
  refine forall_congr' fun tag => ?_
  rw [mergeStatistics, continued]
  cases recorded b tag <;> cases recorded a tag <;> grind [Metric.continue, Metric.merge]

theorem merge_continues_iff_both :
    mergeStatistics (recorded [.addInvokeDuration 0 7]) (recorded [.addInvokeDuration 0 5]) =
      recorded [.addInvokeDuration 0 7, .addInvokeDuration 0 5] := by
  refine (merge_continues_iff [.addInvokeDuration 0 7] [.addInvokeDuration 0 5] ?_).mpr ?_
  · exact List.forall_mem_singleton.mpr (by decide : (5 : Nat) % 2 ^ 32 ≠ 0)
  · rintro (_ | tag) m n h1 h2
    · cases h1
      cases h2
      decide
    · cases h1

/-- A counted call merged with a timed one: the minimum stays `0`. -/
theorem minimum_lost :
    mergeStatistics (recorded [.addInvoke 0 1]) (recorded [.addInvokeDuration 0 5]) 0 ≠
      recorded [.addInvoke 0 1, .addInvokeDuration 0 5] 0 := by
  decide

end Ae.Tele.Metrics
