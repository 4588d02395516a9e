/- source: cloud_connections/cloud_server_connections.cpp, write_action/write_action.h
   digest: A replicated write reports every success of its sub-writes, not only the first. -/

import Ae.SafeStream.SendAction
import Mathlib.Data.List.Induction

set_option autoImplicit false

namespace Ae.CloudConnections.ReplicaWrites
open SafeStream.SendAction (WriteStatus)
open List hiding after

/-- `ReplicaWA` with the number of its sub-writes; `emitted` is the history of its
`status_event`. Its owner, whose vector moves the actions when it grows, is left out. -/
structure ReplicaWA where
  swas : Nat
  failedActions : Nat
  stoppedActions : Nat
  emitted : List WriteStatus
  deriving DecidableEq

namespace ReplicaWA

def ofSwas (swas : Nat) : ReplicaWA := ⟨swas, 0, 0, []⟩

def setStatus (w : ReplicaWA) (status : WriteStatus) : ReplicaWA :=
  { w with emitted := w.emitted ++ [status] }

def settle (w : ReplicaWA) (status : WriteStatus) : ReplicaWA :=
  if w.failedActions + w.stoppedActions ≥ w.swas then w.setStatus status else w

def onStatus (w : ReplicaWA) : WriteStatus → ReplicaWA
  | .kSuccess => w.setStatus .kSuccess
  | .kFail => { w with failedActions := w.failedActions + 1 }.settle .kFail
  | .kStop => { w with stoppedActions := w.stoppedActions + 1 }.settle .kStop

def after (swas : Nat) (statuses : List WriteStatus) : ReplicaWA :=
  statuses.foldl onStatus (.ofSwas swas)

end ReplicaWA

/-- The one status due when the first `k` of all the sub-writes have ended: a success at once,
and the last status when all have ended without one. -/
def due (statuses : List WriteStatus) (k : Nat) : List WriteStatus :=
  if .kSuccess ∈ statuses.take k then [.kSuccess]
  else if k = statuses.length then statuses.getLast?.toList
  else []

/-- Over the whole order of terminal statuses the action emits its one status when it is due. -/
def ReportsOnce (statuses : List WriteStatus) : Prop :=
  ∀ k ≤ statuses.length,
    (ReplicaWA.after statuses.length (statuses.take k)).emitted = due statuses k

open ReplicaWA

theorem after_append (s : Nat) (ss : List WriteStatus) (status : WriteStatus) :
    after s (ss ++ [status]) = (after s ss).onStatus status := by
  rw [after, after, foldl_append, foldl_cons, foldl_nil]

theorem settle_spec (w : ReplicaWA) (s : WriteStatus) :
    w.settle s = { w with emitted := w.emitted ++
      if w.swas ≤ w.failedActions + w.stoppedActions then [s] else [] } := by
  unfold settle
  split
  · rfl
  · rw [append_nil]

theorem onStatus_success (w : ReplicaWA) :
    w.onStatus .kSuccess = { w with emitted := w.emitted ++ [.kSuccess] } := rfl

theorem onStatus_other (w : ReplicaWA) {s : WriteStatus} (hn : s ≠ .kSuccess) :
    (w.onStatus s).swas = w.swas ∧ (w.onStatus s).failedActions + (w.onStatus s).stoppedActions =
        w.failedActions + w.stoppedActions + 1 ∧
      (w.onStatus s).emitted = w.emitted ++
        if w.swas ≤ w.failedActions + w.stoppedActions + 1 then [s] else [] := by
  cases s with
  | kSuccess => exact absurd rfl hn
  | kFail =>
    rw [onStatus, settle_spec]
    refine ⟨rfl, by simp only; omega, ?_⟩
    simp only [add_right_comm]
  | kStop =>
    rw [onStatus, settle_spec]
    refine ⟨rfl, by simp only; omega, ?_⟩
    simp only [add_assoc]

theorem after_spec {sw : Nat} (ss : List WriteStatus) (hf : ss.length ≤ sw) :
    (after sw ss).swas = sw ∧
      (after sw ss).failedActions + (after sw ss).stoppedActions +
        ss.count .kSuccess = ss.length ∧
      (after sw ss).emitted =
        if .kSuccess ∉ ss ∧ ss.length = sw then ss.getLast?.toList
        else replicate (ss.count .kSuccess) .kSuccess := by
  induction ss using reverseRecOn with
  | nil => exact ⟨rfl, rfl, by simp [after, ofSwas]⟩
  | append_singleton ss s ih =>
    rw [length_append, length_singleton] at hf ⊢
    obtain ⟨hn, hc, he⟩ := ih (by omega)
    have hu : (after sw ss).emitted =
        replicate (ss.count .kSuccess) .kSuccess := by
      rw [he, if_neg (by omega)]
    rw [after_append]
    by_cases hs : s = .kSuccess
    · subst hs
      rw [onStatus_success, count_append, count_singleton_self]
      refine ⟨hn, by simp only; omega, ?_⟩
      rw [if_neg (by simp), hu, replicate_succ']
    · obtain ⟨hsm, hp, hm⟩ := onStatus_other (after sw ss) hs
      have hcn : (ss ++ [s]).count .kSuccess = ss.count .kSuccess := by
        rw [count_append, count_singleton]
        simp [hs]
      rw [hcn]
      refine ⟨hsm.trans hn, by omega, ?_⟩
      rw [hm, hn, hu]
      by_cases hnn : .kSuccess ∈ ss
      · -- a success was not counted, so the counters stay below the number of sub-writes
        have hso := count_pos_iff.mpr hnn
        rw [if_neg (by omega), append_nil, if_neg (by simp [hnn])]
      · have hz : ss.count .kSuccess = 0 := count_eq_zero.mpr hnn
        rw [hz] at hc ⊢
        by_cases hl : ss.length + 1 = sw
        · rw [if_pos (by omega), if_pos ⟨by simp [hnn, Ne.symm hs], hl⟩]
          simp
        · rw [if_neg (by omega), if_neg (fun h => hl h.2)]
          simp

/-- One status is reported, when it is due, exactly when at most one sub-write succeeds. -/
theorem replica_reports_once_iff (statuses : List WriteStatus) :
    ReportsOnce statuses ↔ statuses.count .kSuccess ≤ 1 := by
  constructor
  · intro reports
    have whole := reports statuses.length le_rfl
    rw [take_length, (after_spec statuses le_rfl).2.2, due, take_length] at whole
    by_cases success : .kSuccess ∈ statuses
    · rw [if_neg (fun h => h.1 success), if_pos success] at whole
      have lengths := congrArg length whole
      simp only [length_replicate, length_singleton] at lengths
      omega
    · rw [count_eq_zero.mpr success]
      omega
  · intro few k within
    have length : (statuses.take k).length = k := by
      rw [length_take]
      omega
    rw [(after_spec (statuses.take k) (by omega)).2.2, due, length]
    by_cases success : .kSuccess ∈ statuses.take k
    · have one : (statuses.take k).count .kSuccess = 1 := by
        have some := count_pos_iff.mpr success
        have most := (take_sublist k statuses).count_le .kSuccess
        omega
      rw [if_neg (fun h => h.1 success), if_pos success, one]
      rfl
    · rw [if_neg success, count_eq_zero.mpr success]
      by_cases all : k = statuses.length
      · rw [if_pos ⟨success, all⟩, if_pos all, all, take_length]
      · rw [if_neg (fun h => all h.2), if_neg all]
        rfl

/-- Both of two sub-writes succeed: the status is emitted twice. -/
theorem replica_reports_twice :
    (after 2 [.kSuccess, .kSuccess]).emitted = [.kSuccess, .kSuccess] ∧
      due [.kSuccess, .kSuccess] 2 = [.kSuccess] := by
  decide

end Ae.CloudConnections.ReplicaWrites
