/- source: api_protocol/protocol_context.{h,cpp}
   digest: Entries, pool objects and callbacks of the pending responses belong together. -/

import Ae.Api.Responses

set_option autoImplicit false

namespace Ae.Api.PendingTable
open MStream.VectorReader MStream.Operators Lib.StateRun ProtocolContext Responses List

variable {τ H : Type} {setup : Setup τ}

def serials (pending : List (PendingEntry τ)) : List Nat :=
  pending.filterMap fun e => e.response.map Response.serial

def requestIds (pending : List (PendingEntry τ)) : List RequestId :=
  pending.map PendingEntry.requestId

/-- Each entry has an object of the pool; `held` are the objects in use whose entry was taken
out of the table for a callback. -/
structure Pooled (held : List Nat) (t : Table setup H) : Prop where
  answerable : ∀ e ∈ t.pending, e.response.isSome
  pool : t.live.Perm (serials t.pending ++ held)
  capacity : t.live.length ≤ setup.maxPendingResponses

structure Orderly (held : List Nat) (t : Table setup H) : Prop extends Pooled held t where
  distinct : (requestIds t.pending).Nodup

def taken (t : Table setup H) (requestId : RequestId) : Table setup H :=
  { t with pending := t.pending.eraseP (·.requestId = requestId) }

def added (t : Table setup H) (s : Subscription τ) : Table setup H :=
  { t with
    pending := t.pending ++ [⟨s.requestId, some ⟨t.made, s.awaited⟩⟩]
    live := t.made :: t.live
    made := t.made + 1 }

def freed (t : Table setup H) (serial : Nat) : Table setup H :=
  { t with live := t.live.erase serial }

variable {held : List Nat} {t t' : Table setup H} {before after p : List (PendingEntry τ)}
  {entry : PendingEntry τ} {response : Response τ} {app : Application setup H} {frames : Nat}
  {created : List RequestId} {requestId : RequestId}

@[simp] theorem serials_append (a b : List (PendingEntry τ)) :
    serials (a ++ b) = serials a ++ serials b :=
  filterMap_append

theorem serials_cons (responds : entry.response = some response) :
    serials (entry :: after) = response.serial :: serials after := by
  simp [serials, responds]

theorem length_serials (ha : ∀ e ∈ p, e.response.isSome) : (serials p).length = p.length := by
  induction p with
  | nil => rfl
  | cons entry p ih =>
    obtain ⟨hh, ht⟩ := forall_mem_cons.mp ha
    obtain ⟨response, responds⟩ := Option.isSome_iff_exists.mp hh
    rw [serials_cons responds, length_cons, length_cons, ih ht]

theorem requestIds_added (t : Table setup H) (s : Subscription τ) :
    requestIds (added t s).pending = requestIds t.pending ++ [s.requestId] := by
  simp [added, requestIds]

theorem serials_added (t : Table setup H) (s : Subscription τ) :
    serials (added t s).pending = serials t.pending ++ [t.made] := by
  simp [added, serials]

theorem not_mem_requestIds :
    requestId ∉ requestIds p ↔ ∀ e ∈ p, e.requestId ≠ requestId := by
  simp [requestIds]

theorem find_splits (found : p.find? (·.requestId = requestId) = some entry) :
    ∃ before after, p = before ++ entry :: after ∧ entry.requestId = requestId ∧
      p.eraseP (·.requestId = requestId) = before ++ after := by
  obtain ⟨he, before, after, hs, ho⟩ := find?_eq_some_iff_append.mp found
  have her : (before ++ entry :: after).eraseP (·.requestId = requestId) = before ++ after := by
    rw [eraseP_append_right _ (by simpa using ho)]
    simp [he]
  refine ⟨before, after, hs, by simpa using he, ?_⟩
  rw [hs]
  exact her

namespace Pooled

theorem responds (hp : Pooled held t) (hm : entry ∈ t.pending) :
    ∃ response, entry.response = some response :=
  Option.isSome_iff_exists.mp (hp.answerable entry hm)

theorem pending_length (hp : Pooled held t) : t.pending.length + held.length = t.live.length := by
  rw [hp.pool.length_eq, length_append, length_serials hp.answerable]

theorem take (hp : Pooled held t) (hs : t.pending = before ++ entry :: after)
    (responds : entry.response = some response) :
    Pooled (response.serial :: held) { t with pending := before ++ after } := by
  have ha := hp.answerable
  have hpl := hp.pool
  rw [hs] at ha hpl
  refine ⟨?_, ?_, hp.capacity⟩
  · intro e hm
    exact ha e (((sublist_cons_self _ _).append_left _).subset hm)
  · rw [serials_append, serials_cons responds] at hpl
    refine hpl.trans ?_
    rw [serials_append]
    refine perm_iff_count.mpr fun n => ?_
    simp only [count_append, count_cons]
    omega

theorem free {se : Nat} (hp : Pooled (se :: held) t) :
    Pooled held (freed t se) ∧ (freed t se).live.length < setup.maxPendingResponses := by
  have hiu : se ∈ t.live :=
    hp.pool.mem_iff.mpr (mem_append_right _ mem_cons_self)
  have hf := length_erase_of_mem hiu
  have hsu := length_pos_of_mem hiu
  have hc := hp.capacity
  have hr : (freed t se).live.length < setup.maxPendingResponses := by
    change (t.live.erase se).length < _
    omega
  refine ⟨⟨hp.answerable, ?_, hr.le⟩, hr⟩
  refine (hp.pool.erase se).trans ?_
  have hm : (serials t.pending ++ se :: held).Perm
      (se :: (serials t.pending ++ held)) := perm_middle
  refine (hm.erase se).trans ?_
  rw [erase_cons_head]
  exact List.Perm.refl _

theorem add (hp : Pooled held t) (s : Subscription τ)
    (hr : t.live.length < setup.maxPendingResponses) : Pooled held (added t s) := by
  refine ⟨?_, ?_, hr⟩
  · intro e hm
    rcases mem_append.mp hm with ho | new
    · exact hp.answerable e ho
    · rw [mem_singleton.mp new]
      rfl
  · rw [serials_added, added, append_assoc, singleton_append]
    exact (hp.pool.cons t.made).trans perm_middle.symm

theorem pending_lt (hp : Pooled held t) (hr : t.live.length < setup.maxPendingResponses) :
    t.pending.length < setup.maxPendingResponses := by
  have hc := hp.pending_length
  omega

theorem live_lt (hp : Pooled [] t) (hr : t.pending.length < setup.maxPendingResponses) :
    t.live.length < setup.maxPendingResponses :=
  hp.pending_length ▸ hr

end Pooled

namespace Orderly

theorem take (ho : Orderly held t) (hs : t.pending = before ++ entry :: after)
    (responds : entry.response = some response) :
    Orderly (response.serial :: held) { t with pending := before ++ after } := by
  refine ⟨ho.toPooled.take hs responds, ?_⟩
  have hd := ho.distinct
  rw [hs] at hd
  simp only [requestIds, map_append, map_cons] at hd ⊢
  exact hd.sublist ((sublist_cons_self _ _).append_left _)

theorem free {se : Nat} (ho : Orderly (se :: held) t) :
    Orderly held (freed t se) ∧ (freed t se).live.length < setup.maxPendingResponses :=
  ⟨⟨ho.toPooled.free.1, ho.distinct⟩, ho.toPooled.free.2⟩

theorem add (ho : Orderly held t) {s : Subscription τ}
    (hr : t.live.length < setup.maxPendingResponses)
    (hf : s.requestId ∉ requestIds t.pending) : Orderly held (added t s) := by
  refine ⟨ho.toPooled.add s hr, ?_⟩
  rw [requestIds_added]
  refine nodup_append.mpr ⟨ho.distinct, nodup_singleton _, ?_⟩
  intro a hp b hn he
  rw [mem_singleton.mp hn] at he
  exact hf (he ▸ hp)

theorem find (orderly : Orderly held t) {e : PendingEntry τ} (mem : e ∈ t.pending) :
    t.pending.find? (·.requestId = e.requestId) = some e := by
  cases found : t.pending.find? (·.requestId = e.requestId) with
  | none => exact absurd rfl (find_eq_none_iff.mp found e mem)
  | some o =>
    have he := find?_some found
    have hl := mem_of_find?_eq_some found
    rw [inj_on_of_nodup_map orderly.distinct hl mem (by simpa using he)]

theorem not_mem_taken (ho : Orderly held t) (requestId : RequestId) :
    requestId ∉ requestIds (taken t requestId).pending := by
  cases found : t.pending.find? (·.requestId = requestId) with
  | none =>
    have hu := find_eq_none_iff.mp found
    exact not_mem_requestIds.mpr fun e hm => hu e (mem_of_mem_eraseP hm)
  | some entry =>
    obtain ⟨before, after, hs, hsm, he⟩ := find_splits found
    have hd := ho.distinct
    rw [hs, requestIds, map_append, map_cons] at hd
    rw [taken, he, requestIds, map_append, ← hsm]
    exact (nodup_cons.mp (nodup_middle.mp hd)).1

end Orderly

section

variable {call : Event setup H → TableM setup H Unit} {s : Subscription τ}

theorem emplacePending_run (hp : t.live.length < setup.maxPendingResponses)
    (hr : t.pending.length < setup.maxPendingResponses) :
    (emplacePending s).run t = .ok () (added t s) := by
  rw [emplacePending, get_bind, if_neg (Nat.not_le.mpr hp), if_neg (Nat.not_le.mpr hr)]
  rfl

theorem assertFree_run (hp : t.live.length < setup.maxPendingResponses)
    (hr : t.pending.length < setup.maxPendingResponses) :
    (assertFree : TableM setup H Unit).run t = .ok () t := by
  rw [assertFree, get_bind, if_neg (Nat.not_le.mpr hr), if_neg (Nat.not_le.mpr hp)]
  rfl

section

variable (responds : entry.response = some response)
include responds

theorem destroyPending_run :
    (destroyPending entry : TableM setup H Unit).run t = .ok () (freed t response.serial) := by
  rw [destroyPending, responds]
  rfl

theorem evictPending_run
    (hr : (call (.onEvicted response.serial entry.requestId)).run t = .ok () t') :
    (evictPending call entry).run t = .ok () (freed t' response.serial) := by
  rw [evictPending, responds]
  exact (bind_ok hr).trans (destroyPending_run responds)

theorem evictPending_error {e : Fault}
    (hs : (call (.onEvicted response.serial entry.requestId)).run t = .error e t') :
    (evictPending call entry).run t = .error e t' := by
  rw [evictPending, responds]
  exact bind_error hs

end

theorem create_known (found : t.pending.find? (·.requestId = s.requestId) = some entry)
    (responds : entry.response = some response) :
    (createPendingResponse call s).run t =
      (do evictPending call entry; emplacePending s).run (taken t s.requestId) := by
  refine bind_congr ?_
  rw [preparePendingResponseSlot, bind_ok (takePending_known found)]
  simp only [responds]
  rfl

section

variable (hu : ∀ e ∈ t.pending, e.requestId ≠ s.requestId)
include hu

theorem create_full {os : List (PendingEntry τ)} (pending : t.pending = entry :: os)
    (hf : setup.maxPendingResponses ≤ t.pending.length) :
    (createPendingResponse call s).run t =
      (do (do evictPending call entry; assertFree); emplacePending s).run
        { t with pending := os } := by
  refine bind_congr ?_
  rw [preparePendingResponseSlot, bind_ok (takePending_unknown hu)]
  refine bind_congr ?_
  rw [evictOldest, get_bind, if_pos hf]
  refine bind_ok ?_
  rw [takeOldestPending, get_bind, pending]
  rfl

theorem prepare_unknown (hr : t.pending.length < setup.maxPendingResponses) :
    (preparePendingResponseSlot call s.requestId).run t =
      (assertFree : TableM setup H Unit).run t := by
  have hi : (evictOldest call).run t = .ok () t := by
    rw [evictOldest, get_bind, if_neg (Nat.not_le.mpr hr)]
    rfl
  rw [preparePendingResponseSlot, bind_ok (takePending_unknown hu)]
  exact bind_ok hi

theorem create_free (hpl : t.live.length < setup.maxPendingResponses)
    (hr : t.pending.length < setup.maxPendingResponses) :
    (createPendingResponse call s).run t = .ok () (added t s) := by
  have hp : (preparePendingResponseSlot call s.requestId).run t = .ok () t :=
    (prepare_unknown hu hr).trans (assertFree_run hpl hr)
  exact (bind_ok hp).trans (emplacePending_run hpl hr)

end

def concluded (parsers : List Reader) (serial : Nat) :
    EStateM.Result Fault (Table setup H) Unit → EStateM.Result Fault (Context setup H) Unit
  | .ok _ t => .ok () ⟨freed t serial, parsers⟩
  | .error e t => .error e ⟨t, parsers⟩

theorem callback_concluded {ev : Event setup H} {ps : List Reader}
    (responds : entry.response = some response) :
    (do onTable (callback app frames ev); onTable (destroyPending entry) :
      ContextM setup H Unit).run ⟨t, ps⟩ =
      concluded ps response.serial ((callback app frames ev).run t) := by
  rcases hr : (callback app frames ev).run t with ⟨_, t'⟩ | ⟨e, t'⟩
  · refine (bind_ok (onTable_ok hr)).trans ?_
    exact onTable_ok (destroyPending_run responds)
  · exact bind_error (onTable_error hr)

section

variable (found : t.pending.find? (·.requestId = requestId) = some entry)
  (responds : entry.response = some response)
include found responds

theorem sendError_known (ps : List Reader) (et : Bytes 1) (ec : Bytes 4) :
    (setSendErrorResponse app frames requestId et ec).run ⟨t, ps⟩ =
      concluded ps response.serial ((callback app frames
        (.onError response.serial requestId et ec)).run (taken t requestId)) := by
  rw [setSendErrorResponse]
  refine (bind_ok (onTable_ok (takePending_known found))).trans ?_
  simp only [cancelUnanswerable, responds]
  refine (bind_ok rfl).trans ?_
  exact callback_concluded responds

theorem sendResult_known {r r' : Reader} (o : List Reader) {v : (setup.types response.awaited).type}
    (hg : setup.extracted response.awaited r = .ok (r', v)) :
    (setSendResultResponse app frames requestId).run ⟨t, r :: o⟩ =
      concluded (r' :: o) response.serial ((callback app frames
        (.onResult response.serial requestId response.awaited v (o.length + 1)
          (!r'.failed))).run (taken t requestId)) := by
  refine (setSendResultResponse_known found responds).trans ?_
  refine Eq.trans ?_ (callback_concluded responds)
  exact bind_congr (onResult_run hg)

theorem sendResult_idle : (setSendResultResponse app frames requestId).run ⟨t, []⟩ =
    .error .nullParser ⟨taken t requestId, []⟩ := by
  rw [setSendResultResponse]
  refine (bind_ok (onTable_ok (takePending_known found))).trans ?_
  simp only [cancelUnanswerable, responds]
  rfl

theorem sendResult_stops {r : Reader} (o : List Reader) {st : Stop}
    (hg : setup.extracted response.awaited r = .error st) :
    (setSendResultResponse app frames requestId).run ⟨t, r :: o⟩ =
      .error (.stream st) ⟨taken t requestId, r :: o⟩ := by
  refine (setSendResultResponse_known found responds).trans ?_
  exact bind_error (bind_error (extract_stops rfl hg))

theorem sendResult_returns {ps : List Reader} {c' : Context setup H}
    (hr : (setSendResultResponse app frames requestId).run ⟨t, ps⟩ = .ok () c') :
    ∃ r r' o, ∃ v : (setup.types response.awaited).type, ps = r :: o ∧
      setup.extracted response.awaited r = .ok (r', v) := by
  cases ps with
  | nil => cases (sendResult_idle found responds).symm.trans hr
  | cons r o =>
    rcases hg : setup.extracted response.awaited r with st | ⟨r', v⟩
    · cases (sendResult_stops found responds o hg).symm.trans hr
    · exact ⟨r, r', o, v, rfl, hg⟩

end

def OnParsers : Operation τ H → Prop
  | .pushParser _ | .popParser | .extract _ | .cancel => True
  | _ => False

variable (app frames) in
theorem parser_operation {o : Operation τ H} (hp : OnParsers o)
    (c : Context setup H) : match (o.run app frames).run c with
      | .ok _ c' => c'.table = c.table
      | .error e _ => e ≠ .poolExhausted ∧ e ≠ .registryFull := by
  obtain ⟨t, ps⟩ := c
  cases o with
  | create s | sendResult requestId | sendError requestId et ec | handler call =>
    cases hp
  | pushParser data =>
    rw [Operation.run, pushParser, get_bind]
    split_ifs
    · exact ⟨Fault.noConfusion, Fault.noConfusion⟩
    · rfl
  | popParser | cancel =>
    cases ps with
    | nil => exact ⟨Fault.noConfusion, Fault.noConfusion⟩
    | cons r ou => rfl
  | extract d =>
    cases ps with
    | nil => exact ⟨Fault.noConfusion, Fault.noConfusion⟩
    | cons r ou =>
      rcases hg : (d.codec setup.size).get (d.codec setup.size).init r with st | ⟨r', v⟩
      · rw [Operation.run, bind_error (extract_stops rfl hg)]
        exact ⟨Fault.noConfusion, Fault.noConfusion⟩
      · rw [Operation.run, bind_ok (extract_run rfl hg)]
        rfl

end

def called? : Event setup H → Option Nat
  | .handler _ => none
  | .onResult serial _ _ _ _ _ => some serial
  | .onError serial _ _ _ => some serial
  | .onEvicted serial _ => some serial

def Latest (created : List RequestId) (serial : Nat) (requestId : RequestId) : Prop :=
  created[serial]? = some requestId ∧ ∀ later, serial < later → created[later]? ≠ some requestId

/-- The discipline of the table after the requests `created`, numbered in this order: the
entries are in creation order, each is the last one for its request id, and of every number
there is either an entry or one callback. -/
structure Disciplined (created : List RequestId) (t : Table setup H) : Prop where
  orderly : Orderly [] t
  ordered : (serials t.pending).Pairwise (· < ·)
  once : (serials t.pending ++ t.log.filterMap called?).Perm (range t.made)
  counted : t.made = created.length
  latest : ∀ e ∈ t.pending, ∀ response, e.response = some response →
    Latest created response.serial e.requestId

namespace Disciplined

def left (t : Table setup H) (rest : List (PendingEntry τ)) (event : Event setup H)
    (serial : Nat) : Table setup H :=
  freed { t with pending := rest, log := t.log ++ [event] } serial

variable (hk : Disciplined created t)
include hk

theorem leave (hs : t.pending = before ++ entry :: after)
    (responds : entry.response = some response) (ev : Event setup H)
    (own : called? ev = some response.serial) :
    Disciplined created (left t (before ++ after) ev response.serial) ∧
      (left t (before ++ after) ev response.serial).live.length < setup.maxPendingResponses := by
  obtain ⟨ho, hr⟩ := (hk.orderly.take hs responds).free
  have hor := hk.ordered
  have hon := hk.once
  rw [hs, serials_append, serials_cons responds] at hor hon
  refine ⟨⟨⟨⟨ho.answerable, ho.pool, ho.capacity⟩, ho.distinct⟩, ?_, ?_, hk.counted, ?_⟩, hr⟩
  · rw [left, freed, serials_append]
    exact hor.sublist ((sublist_cons_self _ _).append_left _)
  · refine List.Perm.trans (perm_iff_count.mpr fun n => ?_) hon
    simp only [left, freed, serials_append, filterMap_append, count_append,
      filterMap_cons, own, filterMap_nil, count_cons, count_nil]
    omega
  · intro e hm
    refine hk.latest e ?_
    rw [hs]
    exact ((sublist_cons_self _ _).append_left _).subset hm

theorem serial_lt {se : Nat} (hp : se ∈ serials t.pending) : se < t.made :=
  mem_range.mp (hk.once.mem_iff.mp (mem_append_left _ hp))

theorem enter {s : Subscription τ}
    (hr : t.live.length < setup.maxPendingResponses) (hf : s.requestId ∉ requestIds t.pending) :
    Disciplined (created ++ [s.requestId]) (added t s) := by
  refine ⟨hk.orderly.add hr hf, ?_, ?_, ?_, ?_⟩
  · rw [serials_added]
    refine pairwise_append.mpr ⟨hk.ordered, pairwise_singleton _ _, ?_⟩
    intro ho hp new made
    rw [mem_singleton.mp made]
    exact hk.serial_lt hp
  · change (serials (added t s).pending ++ t.log.filterMap called?).Perm (range (t.made + 1))
    rw [serials_added, range_succ, append_assoc]
    refine List.Perm.trans ?_ (hk.once.append_right [t.made])
    rw [append_assoc]
    exact List.Perm.append_left _ perm_append_comm
  · simp [added, hk.counted]
  · intro e hm response responds
    rcases mem_append.mp hm with ho | new
    · obtain ⟨hh, hu⟩ := hk.latest e ho response responds
      have her := (List.getElem?_eq_some_iff.mp hh).1
      refine ⟨by rw [getElem?_append_left her, hh], ?_⟩
      intro later hai
      by_cases hkn : later < created.length
      · rw [getElem?_append_left hkn]
        exact hu later hai
      · intro he
        have hl : later - created.length = 0 := by
          by_contra hb
          rw [getElem?_append_right (not_lt.mp hkn)] at he
          simp [hb] at he
        rw [getElem?_append_right (not_lt.mp hkn), hl] at he
        simp only [getElem?_cons_zero, Option.some.injEq] at he
        exact hf (he ▸ mem_map_of_mem ho)
    · rw [mem_singleton.mp new] at responds ⊢
      cases responds
      refine ⟨?_, ?_⟩
      · rw [hk.counted]
        simp
      · intro later hai
        have hb : (created ++ [s.requestId]).length ≤ later := by
          rw [length_append, length_singleton, ← hk.counted]
          exact hai
        simp [getElem?_eq_none hb]

end Disciplined

def Quiet (app : Application setup H) : Prop :=
  ∀ log, app.enter log = []

def creates : Operation τ H → List RequestId
  | .create s => [s.requestId]
  | _ => []

inductive Runs (app : Application setup H) (frames : Nat) : List RequestId → Context setup H → Prop
  | start : Runs app frames [] ⟨⟨[], [], 0, []⟩, []⟩
  | step {created : List RequestId} {c c' : Context setup H} (operation : Operation τ H)
      (before : Runs app frames created c)
      (returns : (operation.run app frames).run c = .ok () c') :
      Runs app frames (created ++ creates operation) c'

/-- An eviction is for the last request with the same id, or for lack of space, and then it
hits the oldest entry. -/
def Evicts (created : List RequestId) (t : Table setup H) (s : Subscription τ)
    (t' : Table setup H) : Prop :=
  (t'.log = t.log ∧ t.pending.length < setup.maxPendingResponses) ∨
    (∃ serial, t'.log = t.log ++ [.onEvicted serial s.requestId] ∧
      Latest created serial s.requestId) ∨
    ∃ serial requestId, t'.log = t.log ++ [.onEvicted serial requestId] ∧
      s.requestId ∉ requestIds t.pending ∧ t.pending.length = setup.maxPendingResponses ∧
      serial ∈ serials t.pending ∧ ∀ other ∈ serials t.pending, serial ≤ other

def Tells (created : List RequestId) (t : Table setup H) (operation : Operation τ H)
    (t' : Table setup H) : Prop :=
  match operation with
  | .create s => Evicts created t s t'
  | .sendResult requestId => ∃ serial awaited value depth complete,
      t'.log = t.log ++ [.onResult serial requestId awaited value depth complete] ∧
        Latest created serial requestId
  | .sendError requestId errorType errorCode => ∃ serial,
      t'.log = t.log ++ [.onError serial requestId errorType errorCode] ∧
        Latest created serial requestId
  | .handler call => t'.log = t.log ++ [.handler call]
  | _ => t'.log = t.log

theorem callback_quiet (hq : Quiet app) (frames : Nat) (t : Table setup H) (e : Event setup H) :
    (callback app (frames + 1) e).run t = .ok () { t with log := t.log ++ [e] } := by
  rw [callback, record, modify_bind, subscribe, get_bind, hq]
  rfl

theorem mem_requestIds_iff : requestId ∈ requestIds t.pending ↔
    ∃ entry, t.pending.find? (·.requestId = requestId) = some entry := by
  rw [← Option.isSome_iff_exists, find?_isSome]
  simp [requestIds]

theorem Disciplined.found (hk : Disciplined created t)
    (found : t.pending.find? (·.requestId = requestId) = some entry) :
    ∃ before after response, t.pending = before ++ entry :: after ∧
      (taken t requestId).pending = before ++ after ∧ entry.requestId = requestId ∧
      entry.response = some response ∧ Latest created response.serial requestId := by
  obtain ⟨before, after, hs, he, her⟩ := find_splits found
  have hm := mem_of_find?_eq_some found
  obtain ⟨response, responds⟩ := hk.orderly.responds hm
  refine ⟨before, after, response, hs, her, he, responds, ?_⟩
  rw [← he]
  exact hk.latest entry hm response responds

theorem Disciplined.concluded (hk : Disciplined created t)
    (found : t.pending.find? (·.requestId = requestId) = some entry)
    (responds : entry.response = some response) (e : Event setup H)
    (ho : called? e = some response.serial) :
    Disciplined created (freed { taken t requestId with log := t.log ++ [e] } response.serial) ∧
      (freed { taken t requestId with log := t.log ++ [e] } response.serial).live.length <
        setup.maxPendingResponses := by
  obtain ⟨before, after, _, hs, he, -⟩ := hk.found found
  have hsh : { taken t requestId with log := t.log ++ [e] } =
      { t with pending := before ++ after, log := t.log ++ [e] } := by
    rw [taken] at he
    simp only [taken, he]
  rw [hsh]
  exact hk.leave hs responds e ho

theorem create_disciplined (hq : Quiet app) (frames : Nat) (hk : Disciplined created t)
    (s : Subscription τ) : ∃ t', (createPendingResponse (callback app (frames + 1)) s).run t =
      .ok () t' ∧ Disciplined (created ++ [s.requestId]) t' ∧ Evicts created t s t' := by
  cases found : t.pending.find? (·.requestId = s.requestId) with
  | some entry =>
    obtain ⟨_, _, response, -, -, hsm, responds, hlt⟩ := hk.found found
    obtain ⟨hl, hrm⟩ := hk.concluded found responds (.onEvicted response.serial entry.requestId) rfl
    have hf : s.requestId ∉ requestIds (taken t s.requestId).pending :=
      hk.orderly.not_mem_taken s.requestId
    have he := evictPending_run responds (callback_quiet hq frames (taken t s.requestId) _)
    refine ⟨_, (create_known found responds).trans ((bind_ok he).trans
      (emplacePending_run hrm (hl.orderly.pending_lt hrm))), hl.enter hrm hf, ?_⟩
    refine .inr (.inl ⟨response.serial, ?_, hlt⟩)
    rw [← hsm]
    rfl
  | none =>
    have hu := find_eq_none_iff.mp found
    have hf := not_mem_requestIds.mpr hu
    by_cases hfl : setup.maxPendingResponses ≤ t.pending.length
    · obtain ⟨entry, others, pending⟩ : ∃ entry others, t.pending = entry :: others := by
        have hps := setup.responses_pos
        cases pending : t.pending with
        | nil =>
          rw [pending, length_nil] at hfl
          omega
        | cons entry others => exact ⟨entry, others, rfl⟩
      obtain ⟨response, responds⟩ := hk.orderly.responds (pending ▸ mem_cons_self)
      have h1 : t.pending = [] ++ entry :: others := pending
      obtain ⟨hl, hrm⟩ := hk.leave h1 responds (.onEvicted response.serial entry.requestId) rfl
      have hs : s.requestId ∉ requestIds others :=
        fun hm => hf (pending ▸ mem_cons_of_mem _ hm)
      have hr := hl.orderly.pending_lt hrm
      have he := evictPending_run responds (callback_quiet hq frames { t with pending := others } _)
      refine ⟨_, (create_full hu pending hfl).trans ((bind_ok ((bind_ok he).trans
        (assertFree_run hrm hr))).trans (emplacePending_run hrm hr)),
        hl.enter hrm hs, .inr (.inr ?_)⟩
      have hc := hk.orderly.pending_length
      have hcp := hk.orderly.capacity
      simp only [length_nil] at hc
      refine ⟨response.serial, entry.requestId, rfl, hf, by omega, ?_⟩
      -- the first entry is the oldest, since the serials grow along the table
      have ho := hk.ordered
      rw [pending, serials_cons responds] at ho ⊢
      refine ⟨mem_cons_self, ?_⟩
      intro o hm
      rcases mem_cons.mp hm with rfl | later
      · exact le_rfl
      · exact ((pairwise_cons.mp ho).1 o later).le
    · have hr := not_le.mp hfl
      have hp := hk.orderly.live_lt hr
      exact ⟨_, create_free hu hp hr, hk.enter hp hf, .inl ⟨rfl, hr⟩⟩

theorem sendError_disciplined (hq : Quiet app) (frames : Nat) (hk : Disciplined created t)
    (hkn : requestId ∈ requestIds t.pending) (ps : List Reader) (et : Bytes 1)
    (ec : Bytes 4) : ∃ t', (setSendErrorResponse app (frames + 1) requestId et ec).run ⟨t, ps⟩ =
        .ok () ⟨t', ps⟩ ∧ Disciplined created t' ∧
      Tells created t (.sendError requestId et ec) t' := by
  obtain ⟨entry, found⟩ := mem_requestIds_iff.mp hkn
  obtain ⟨_, _, response, -, -, -, responds, hl⟩ := hk.found found
  have hlf := (hk.concluded found responds (.onError response.serial requestId et ec) rfl).1
  refine ⟨_, ?_, hlf, response.serial, rfl, hl⟩
  rw [sendError_known found responds, callback_quiet hq]
  rfl

theorem sendResult_disciplined (hq : Quiet app) (frames : Nat) (hk : Disciplined created t)
    (found : t.pending.find? (·.requestId = requestId) = some entry)
    (responds : entry.response = some response) {r r' : Reader} (o : List Reader)
    {v : (setup.types response.awaited).type}
    (hg : setup.extracted response.awaited r = .ok (r', v)) :
    ∃ t', (setSendResultResponse app (frames + 1) requestId).run ⟨t, r :: o⟩ =
        .ok () ⟨t', r' :: o⟩ ∧ Disciplined created t' ∧
      Tells created t (.sendResult requestId) t' := by
  obtain ⟨_, _, re', -, -, -, he, hl⟩ := hk.found found
  cases responds.symm.trans he
  have hlf := (hk.concluded found responds (.onResult response.serial requestId
    response.awaited v (o.length + 1) (!r'.failed)) rfl).1
  refine ⟨_, ?_, hlf, response.serial, _, _, _, _, rfl, hl⟩
  rw [sendResult_known found responds o hg, callback_quiet hq]
  rfl

theorem Disciplined.unchanged (hk : Disciplined created t)
    (he : t' = t) : Disciplined (created ++ []) t' ∧ t'.log = t.log := by
  rw [append_nil, he]
  exact ⟨hk, rfl⟩

theorem operation_disciplined (hq : Quiet app) {c c' : Context setup H}
    (hk : Disciplined created c.table) (o : Operation τ H)
    (hr : (o.run app (frames + 1)).run c = .ok () c') :
    Disciplined (created ++ creates o) c'.table ∧ Tells created c.table o c'.table := by
  have hpr (ho : OnParsers o) : c'.table = c.table := by
    have ta := parser_operation app (frames + 1) ho c
    rwa [hr] at ta
  obtain ⟨t, ps⟩ := c
  cases o with
  | create s =>
    obtain ⟨t', run, after, he⟩ := create_disciplined hq frames hk s
    cases (onTable_ok run).symm.trans hr
    exact ⟨after, he⟩
  | sendResult requestId =>
    by_cases hkn : requestId ∈ requestIds t.pending
    · obtain ⟨entry, found⟩ := mem_requestIds_iff.mp hkn
      obtain ⟨_, _, response, -, -, -, responds, -⟩ := hk.found found
      obtain ⟨r, r', ou, v, rfl, hg⟩ := sendResult_returns found responds hr
      obtain ⟨t', run, after, ht⟩ :=
        sendResult_disciplined hq frames hk found responds ou hg
      cases run.symm.trans hr
      simp only [creates, append_nil]
      exact ⟨after, ht⟩
    · cases (setSendResultResponse_unknown (not_mem_requestIds.mp hkn)).symm.trans hr
  | sendError requestId et ec =>
    by_cases hkn : requestId ∈ requestIds t.pending
    · obtain ⟨t', run, after, ht⟩ := sendError_disciplined hq frames hk hkn ps et ec
      cases run.symm.trans hr
      simp only [creates, append_nil]
      exact ⟨after, ht⟩
    · have hu := not_mem_requestIds.mp hkn
      cases (setSendErrorResponse_unknown hu et ec).symm.trans hr
  | handler call =>
    have run := onTable_ok (c := ⟨t, ps⟩) (callback_quiet hq frames t (.handler call))
    cases run.symm.trans hr
    have hp := hk.orderly.toPooled
    refine ⟨⟨⟨⟨hp.answerable, hp.pool, hp.capacity⟩, hk.orderly.distinct⟩,
      hk.ordered, ?_, ?_, ?_⟩, rfl⟩
    · have hs : ([.handler call] : List (Event setup H)).filterMap called? = [] := rfl
      rw [filterMap_append, hs, append_nil]
      exact hk.once
    · simpa [creates] using hk.counted
    · simpa [creates] using hk.latest
  | pushParser data | popParser | extract d | cancel => exact hk.unchanged (hpr trivial)

theorem disciplined_start : Disciplined [] (⟨[], [], 0, []⟩ : Table setup H) where
  orderly := ⟨⟨fun _ mem => absurd mem not_mem_nil, List.Perm.nil, Nat.zero_le _⟩, nodup_nil⟩
  ordered := List.Pairwise.nil
  once := List.Perm.nil
  counted := rfl
  latest _ mem := absurd mem not_mem_nil

/-- While no callback subscribes, the table is disciplined in every context that comes about,
and every operation tells the application what it should: results and errors reach the last
request with their id, and evictions for lack of space the oldest one. Creations, and errors
for pending requests, always return, and so do results whose value can be extracted. -/
theorem pending_table_disciplined (app : Application setup H) (quiet : Quiet app) (frames : Nat)
    (created : List RequestId) (c : Context setup H) (runs : Runs app (frames + 1) created c) :
    Disciplined created c.table ∧
      (∀ operation c', (Operation.run app (frames + 1) operation).run c = .ok () c' →
        Tells created c.table operation c'.table) ∧
      (∀ s, ∃ c', (Operation.run app (frames + 1) (.create s)).run c = .ok () c') ∧
      ∀ e ∈ c.table.pending, ∀ response, e.response = some response →
        (∀ errorType errorCode, ∃ c', (Operation.run app (frames + 1)
          (.sendError e.requestId errorType errorCode)).run c = .ok () c') ∧
        ∀ r outer read, c.parsers = r :: outer →
          ((setup.types response.awaited).codec setup.size).get
            ((setup.types response.awaited).codec setup.size).init r = .ok read →
          ∃ c', (Operation.run app (frames + 1) (.sendResult e.requestId)).run c = .ok () c' := by
  have hk : Disciplined created c.table := by
    induction runs with
    | start => exact disciplined_start
    | step operation before hr ih => exact (operation_disciplined quiet ih operation hr).1
  refine ⟨hk, ?_, ?_, ?_⟩
  · intro operation c' hr
    exact (operation_disciplined quiet hk operation hr).2
  · intro s
    obtain ⟨t', run, -⟩ := create_disciplined quiet frames hk s
    exact ⟨_, onTable_ok run⟩
  · intro e hm response responds
    obtain ⟨t, ps⟩ := c
    constructor
    · intro errorType errorCode
      obtain ⟨t', run, -⟩ := sendError_disciplined quiet frames hk
        (mem_map_of_mem hm) ps errorType errorCode
      exact ⟨_, run⟩
    · rintro r outer ⟨r', v⟩ ha hg
      cases ha
      obtain ⟨t', run, -⟩ := sendResult_disciplined quiet frames hk
        (hk.orderly.find hm) responds outer hg
      exact ⟨_, run⟩

theorem pending_table_disciplined_repeated :
    Disciplined [zeros 4, zeros 4]
      (⟨[⟨zeros 4, some ⟨1, ()⟩⟩], [1], 2, [.onEvicted 0 (zeros 4)]⟩ : Table voidSetup Unit) :=
  (pending_table_disciplined (onlooker voidSetup Unit) (fun _ => rfl) 0 _ ⟨_, []⟩
    (.step (.create ⟨zeros 4, ()⟩) (.step (.create ⟨zeros 4, ()⟩) .start rfl) rfl)).1

end Ae.Api.PendingTable
