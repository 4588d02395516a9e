/- source: api_protocol/protocol_context.{cpp,h}
   digest: What the subscriptions made within callbacks can do to the pending responses. -/

import Ae.Api.ProtocolContext

set_option autoImplicit false

namespace Ae.Api.Callbacks
open List Lib.StateRun ProtocolContext Keeps

variable {τ H : Type} {setup : Setup τ}

/-- The single changes that subscriptions come down to; `S` says which promises may be
subscribed to. -/
inductive Move (S : Subscription τ → Prop) : Table setup H → Table setup H → Prop
  | evict (t : Table setup H) (serial : Nat) (requestId : RequestId) :
      Move S t { t with log := t.log ++ [.onEvicted serial requestId] }
  | drop (t : Table setup H) {left : List (PendingEntry τ)} (fewer : left.Sublist t.pending) :
      Move S t { t with pending := left }
  | free (t : Table setup H) (live : List Nat) : Move S t { t with live := live }
  | add (t : Table setup H) (s : Subscription τ) (allowed : S s) :
      Move S t { t with
        pending := t.pending ++ [⟨s.requestId, some ⟨t.made, s.awaited⟩⟩]
        live := t.made :: t.live
        made := t.made + 1 }

abbrev Moves (S : Subscription τ → Prop) : Table setup H → Table setup H → Prop :=
  Relation.ReflTransGen (Move S)

instance {S : Subscription τ → Prop} : IsPreorder (Table setup H) (Moves S) where
  refl _ := .refl
  trans _ _ _ := .trans

section

variable {S : Subscription τ → Prop} {call : Event setup H → TableM setup H Unit}

theorem takePending_moves (ri : RequestId) :
    Keeps (Moves S) (takePending ri : TableM setup H _) := by
  intro t
  cases hf : t.pending.find? (·.requestId = ri) with
  | none =>
    rw [takePending_unknown (find_eq_none_iff.mp hf)]
    exact .refl
  | some e =>
    rw [takePending_known hf]
    exact .single (.drop t eraseP_sublist)

theorem takeOldestPending_moves :
    Keeps (Moves S) (takeOldestPending : TableM setup H _) := by
  intro t
  cases pending : t.pending with
  | nil =>
    rw [takeOldestPending, get_bind, pending]
    exact .refl
  | cons e os =>
    rw [takeOldestPending, get_bind, pending]
    apply Relation.ReflTransGen.single
    apply Move.drop
    rw [pending]
    exact sublist_cons_self e os

theorem destroyPending_moves (e : PendingEntry τ) :
    Keeps (Moves S) (destroyPending e : TableM setup H Unit) := by
  rw [destroyPending]
  cases e.response with
  | none => exact throw _
  | some r => exact modify (fun t => .single (.free t _))

theorem evictPending_moves (he : ∀ s ri, Keeps (Moves S)
    (call (.onEvicted s ri))) (e : PendingEntry τ) :
    Keeps (Moves S) (evictPending call e) := by
  rw [evictPending]
  cases e.response with
  | none => exact throw _
  | some r =>
    exact bind (he r.serial e.requestId) (fun _ => destroyPending_moves e)

theorem evictOldest_moves (he : ∀ s ri, Keeps (Moves S)
    (call (.onEvicted s ri))) : Keeps (Moves S) (evictOldest call) := by
  refine bind get (fun t => ?_)
  split
  · exact bind takeOldestPending_moves (evictPending_moves he)
  · exact pure ()

theorem assertFree_moves : Keeps (Moves S) (assertFree : TableM setup H Unit) := by
  refine bind get (fun t => ?_)
  split
  · exact throw _
  · split
    · exact throw _
    · exact pure ()

theorem preparePendingResponseSlot_moves (he : ∀ s ri, Keeps (Moves S)
    (call (.onEvicted s ri))) (ri : RequestId) :
    Keeps (Moves S) (preparePendingResponseSlot call ri) := by
  refine bind (takePending_moves ri) (fun e => ?_)
  split
  · exact evictPending_moves he e
  · exact bind (evictOldest_moves he) (fun _ => assertFree_moves)

theorem emplacePending_moves {s : Subscription τ} (ha : S s) :
    Keeps (Moves S) (emplacePending s : TableM setup H Unit) := by
  intro t
  rw [emplacePending, get_bind]
  split
  · exact .refl
  · split
    · exact .refl
    · exact .single (.add t s ha)

theorem subscribe_moves (he : ∀ se ri, Keeps (Moves S)
    (call (.onEvicted se ri))) {c : List (Event setup H) → List (Subscription τ)}
    (ha : ∀ log, ∀ s ∈ c log, S s) : Keeps (Moves S) (subscribe call c) := by
  refine bind get (fun t => ?_)
  refine forM (fun s hm => ?_)
  exact bind (preparePendingResponseSlot_moves he s.requestId)
    (fun _ => emplacePending_moves (ha t.log s hm))

end

def Enters (app : Application setup H) (S : Subscription τ → Prop) : Prop :=
  ∀ log, ∀ s ∈ app.enter log, S s

variable {app : Application setup H} {S : Subscription τ → Prop}

theorem callback_moves (he : Enters app S) (fs : Nat) (e : Event setup H) (t : Table setup H) :
    Moves S { t with log := t.log ++ [e] } (final ((callback app fs e).run t)) := by
  -- the evictions of one level are the callbacks of the next
  induction fs generalizing e t with
  | zero => exact .refl
  | succ fs ih =>
    rw [callback, record, modify_bind]
    apply subscribe_moves ?_ he
    intro s ri t
    exact .head (.evict t s ri) (ih _ t)

theorem eviction_moves (he : Enters app S) (fs : Nat) (s : Nat)
    (ri : RequestId) : Keeps (Moves S) (callback app fs (.onEvicted s ri)) :=
  fun t => .head (.evict t s ri) (callback_moves he fs _ t)

theorem leave_moves (he : Enters app S) (fs : Nat)
    {c : List (Event setup H) → List (Subscription τ)} (ha : ∀ log, ∀ s ∈ c log, S s) :
    Keeps (Moves S) (subscribe (callback app fs) c) :=
  subscribe_moves (eviction_moves he fs) ha

def Evicted (event : Event setup H) : Prop :=
  ∃ serial requestId, event = .onEvicted serial requestId

theorem moves_log {t t' : Table setup H} (h : Moves S t t') :
    ∃ new, t'.log = t.log ++ new ∧ ∀ e ∈ new, Evicted e := by
  induction h with
  | refl => exact ⟨[], (append_nil _).symm, fun _ hm => absurd hm not_mem_nil⟩
  | tail _ hmv ih =>
    obtain ⟨new, hl, he⟩ := ih
    cases hmv with
    | evict se ri =>
      refine ⟨new ++ [.onEvicted se ri], ?_, ?_⟩
      · rw [← append_assoc, ← hl]
      · refine forall_mem_append.mpr ⟨he, ?_⟩
        intro e hm
        exact ⟨se, ri, mem_singleton.mp hm⟩
    | drop hf | free l | add s ha => exact ⟨new, hl, he⟩

theorem enters_any (app : Application setup H) : Enters app (fun _ => True) :=
  fun _ _ _ => trivial

theorem callback_log (app : Application setup H) (fs : Nat) (ev : Event setup H)
    (t : Table setup H) :
    ∃ new, (final ((callback app fs ev).run t)).log = t.log ++ ev :: new ∧
      ∀ e ∈ new, Evicted e := by
  obtain ⟨new, hl, he⟩ := moves_log (callback_moves (enters_any app) fs ev t)
  refine ⟨new, ?_, he⟩
  rw [hl, append_assoc, singleton_append]

theorem subscribe_any (app : Application setup H) (fs : Nat)
    (c : List (Event setup H) → List (Subscription τ)) :
    Keeps (Moves fun _ => True) (subscribe (callback app fs) c) :=
  leave_moves (enters_any app) fs (fun _ _ _ => trivial)

end Ae.Api.Callbacks
