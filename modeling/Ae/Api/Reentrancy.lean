/- source: api_protocol/protocol_context.{h,cpp}
   digest: When callbacks that make new requests find room and leave the table in order. -/

import Ae.Api.PendingTable

set_option autoImplicit false

namespace Ae.Api.Reentrancy
open List MStream.VectorReader MStream.Operators Lib.StateRun
open ProtocolContext Responses PendingTable Operation

variable {τ H : Type} {setup : Setup τ} (app : Application setup H)

/-- The application stops making requests within callbacks once that much has happened. -/
def Bounded (limit : Nat) : Prop :=
  ∀ log, limit ≤ log.length → app.enter log = []

/-- A request within a callback finds its place: its id is not the one of a creation that is
still in progress, and it is pending already or there is a free object in the pool. -/
def Allowed (busy : List RequestId) (t : Table setup H) (s : Subscription τ) : Prop :=
  s.requestId ∉ busy ∧ (s.requestId ∈ requestIds t.pending ∨
    t.live.length < setup.maxPendingResponses)

def Evictee (t : Table setup H) (s : Subscription τ) (entry : PendingEntry τ)
    (others : List (PendingEntry τ)) : Prop :=
  (t.pending.find? (·.requestId = s.requestId) = some entry ∧
      others = (taken t s.requestId).pending) ∨
    ((∀ e ∈ t.pending, e.requestId ≠ s.requestId) ∧
      setup.maxPendingResponses ≤ t.pending.length ∧ t.pending = entry :: others)

def OnEviction (Q : Event setup H → Table setup H → Prop) (t : Table setup H)
    (s : Subscription τ) : Prop :=
  ∀ entry response others, Evictee t s entry others → entry.response = some response →
    Q (.onEvicted response.serial entry.requestId) { t with pending := others }

def EachCreation (P : Table setup H → Subscription τ → Prop)
    (create : Subscription τ → TableM setup H Unit) :
    List (Subscription τ) → Table setup H → Prop
  | [], _ => True
  | s :: rest, t => P t s ∧ ∀ t', (create s).run t = .ok () t' → EachCreation P create rest t'

/-- Each request that is made within the callback, or within the evictions that it leads to,
is allowed; `busy` are the ids of the creations in progress. -/
def Permits (app : Application setup H) :
    Nat → List RequestId → Event setup H → Table setup H → Prop
  | 0, _, _, _ => True
  | frames + 1, busy, event, t =>
    EachCreation
      (fun t s => Allowed busy t s ∧ OnEviction (Permits app frames (s.requestId :: busy)) t s)
      (createPendingResponse (callback app frames)) (app.enter (t.log ++ [event]))
      { t with log := t.log ++ [event] }

variable {call : Event setup H → TableM setup H Unit} {t : Table setup H} {s : Subscription τ}
  {limit : Nat} {held : List Nat} {Q : Event setup H → Table setup H → Prop}
  {entry : PendingEntry τ} {response : Response τ}

theorem create_exhausted (hu : ∀ e ∈ t.pending, e.requestId ≠ s.requestId)
    (hp : setup.maxPendingResponses ≤ t.live.length)
    (hr : t.pending.length < setup.maxPendingResponses) :
    (createPendingResponse call s).run t = .error .poolExhausted t := by
  have hi : (evictOldest call).run t = .ok () t := by
    rw [evictOldest, get_bind, if_neg (Nat.not_le.mpr hr)]
    rfl
  have ha : (assertFree : TableM setup H Unit).run t = .error .poolExhausted t := by
    rw [assertFree, get_bind, if_neg (Nat.not_le.mpr hr), if_pos hp]
    rfl
  refine bind_error ?_
  rw [preparePendingResponseSlot]
  refine (bind_ok (takePending_unknown hu)).trans ?_
  exact (bind_ok hi).trans ha

/-- How a program over the table can end while objects are held: without a fault and with no
fewer entries for any request id, or for want of a free entry or object. -/
def Ends (held : List Nat) (t : Table setup H) :
    EStateM.Result Fault (Table setup H) Unit → Prop
  | .ok _ t' => Pooled held t' ∧ t.log.length ≤ t'.log.length ∧
      ∀ requestId, (requestIds t.pending).count requestId ≤ (requestIds t'.pending).count requestId
  | .error e _ => e = .poolExhausted ∨ e = .registryFull

section

variable {app : Application setup H}

theorem pending_lt_of_held (hp : Pooled held t) (hh : held ≠ []) :
    t.pending.length < setup.maxPendingResponses := by
  have hcn := hp.pending_length
  have hc := hp.capacity
  have hsh := length_pos_iff.mpr hh
  omega

theorem create_ends (call : Event setup H → TableM setup H Unit)
    (hp : Pooled held t) (hh : held ≠ []) (s : Subscription τ)
    (hev : ∀ se requestId t1, t1.log = t.log → Pooled (se :: held) t1 →
      Ends (se :: held) t1 ((call (.onEvicted se requestId)).run t1)) :
    Ends held t ((createPendingResponse call s).run t) := by
  cases hf : t.pending.find? (·.requestId = s.requestId) with
  | none =>
    have hu := find_eq_none_iff.mp hf
    have hrg := pending_lt_of_held hp hh
    by_cases hpl : t.live.length < setup.maxPendingResponses
    · rw [create_free hu hpl hrg]
      refine ⟨hp.add s hpl, le_rfl, ?_⟩
      intro requestId
      rw [requestIds_added, count_append]
      exact Nat.le_add_right _ _
    · rw [create_exhausted hu (Nat.le_of_not_lt hpl) hrg]
      exact Or.inl rfl
  | some entry =>
    obtain ⟨b, a, hs, hsm, he⟩ := find_splits hf
    obtain ⟨response, hr⟩ := Option.isSome_iff_exists.mp
      (hp.answerable entry (mem_of_find?_eq_some hf))
    have htp : Pooled (response.serial :: held) (taken t s.requestId) := by
      rw [taken, he]
      exact hp.take hs hr
    have ho := hev response.serial entry.requestId (taken t s.requestId) rfl htp
    rcases run : (call (.onEvicted response.serial entry.requestId)).run (taken t s.requestId)
      with ⟨_, t'⟩ | ⟨e, t'⟩
    · rw [run] at ho
      obtain ⟨hk, hl, hm⟩ := ho
      obtain ⟨hfp, hrm⟩ := hk.free
      rw [create_known hf hr, bind_ok (evictPending_run hr run),
        emplacePending_run hrm (hfp.pending_lt hrm)]
      refine ⟨hfp.add s hrm, hl, ?_⟩
      -- the entry that was evicted is replaced by the new one
      intro requestId
      have hba := hm requestId
      rw [taken, he] at hba
      rw [hs, requestIds_added]
      simp only [requestIds, freed, map_append, map_cons, count_append,
        count_cons, count_nil, hsm] at hba ⊢
      omega
    · rw [run] at ho
      rw [create_known hf hr, bind_error (evictPending_error hr run)]
      exact ho

theorem creations_end {call : Event setup H → TableM setup H Unit} (f : Nat)
    (hh : held ≠ [])
    (he : ∀ se requestId t1, f ≤ t1.log.length → Pooled (se :: held) t1 →
      Ends (se :: held) t1 ((call (.onEvicted se requestId)).run t1))
    (rs : List (Subscription τ)) (t : Table setup H) (hlg : f ≤ t.log.length)
    (hp : Pooled held t) : Ends held t ((rs.forM (createPendingResponse call)).run t) := by
  induction rs generalizing t with
  | nil => exact ⟨hp, le_rfl, fun _ => le_rfl⟩
  | cons s rest ih =>
    have h1 := create_ends call hp hh s fun se requestId t1 log hk =>
      he se requestId t1 (log ▸ hlg) hk
    rcases hr : (createPendingResponse call s).run t with ⟨_, t'⟩ | ⟨e, t'⟩
    · rw [hr] at h1
      obtain ⟨hk, hln, hm⟩ := h1
      have hl := ih t' (hlg.trans hln) hk
      have hu : ((s :: rest).forM (createPendingResponse call)).run t =
          (rest.forM (createPendingResponse call)).run t' := bind_ok hr
      rw [hu]
      rcases hrr : (rest.forM (createPendingResponse call)).run t' with ⟨_, t''⟩ | ⟨e, t''⟩
      · rw [hrr] at hl
        obtain ⟨hk', hl', hm'⟩ := hl
        refine ⟨hk', hln.trans hl', ?_⟩
        intro requestId
        exact (hm requestId).trans (hm' requestId)
      · rw [hrr] at hl
        exact hl
    · rw [hr] at h1
      have hu : ((s :: rest).forM (createPendingResponse call)).run t = .error e t' :=
        bind_error hr
      rw [hu]
      exact h1

theorem callback_run (frames : Nat) (e : Event setup H) (t : Table setup H) :
    (callback app (frames + 1) e).run t =
      ((app.enter (t.log ++ [e])).forM (createPendingResponse (callback app frames))).run
        { t with log := t.log ++ [e] } :=
  rfl

theorem frames_left (hb : Bounded app limit) {frames : Nat} {log : List (Event setup H)}
    (he : limit < frames + 1 + log.length) {e : Event setup H} {s : Subscription τ}
    {rest : List (Subscription τ)} (hr : app.enter (log ++ [e]) = s :: rest) :
    0 < frames ∧ limit < frames + (log ++ [e]).length := by
  have hs : (log ++ [e]).length < limit := by
    by_contra hl
    rw [hb _ (not_lt.mp hl)] at hr
    cases hr
  rw [length_append, length_singleton] at hs ⊢
  omega

theorem callback_ends (hb : Bounded app limit) (frames : Nat) (held : List Nat)
    (hh : held ≠ []) (ev : Event setup H) (t : Table setup H) (hsf : 0 < frames)
    (hen : limit < frames + t.log.length) (hp : Pooled held t) :
    Ends held t ((callback app frames ev).run t) := by
  induction frames generalizing held ev t with
  | zero => cases hsf
  | succ frames ih =>
    rw [callback_run]
    have hr : Pooled held { t with log := t.log ++ [ev] } :=
      ⟨hp.answerable, hp.pool, hp.capacity⟩
    have he : Ends held { t with log := t.log ++ [ev] }
        (((app.enter (t.log ++ [ev])).forM (createPendingResponse (callback app frames))).run
          { t with log := t.log ++ [ev] }) := by
      cases requests : app.enter (t.log ++ [ev]) with
      | nil => exact ⟨hr, le_rfl, fun _ => le_rfl⟩
      | cons s rest =>
        obtain ⟨hlf, hs⟩ := frames_left hb hen requests
        refine creations_end (t.log ++ [ev]).length hh ?_ (s :: rest) _ le_rfl
          hr
        intro se requestId t1 hln hk
        exact ih (se :: held) (cons_ne_nil _ _) _ t1 hlf (by omega) hk
    revert he
    rcases ((app.enter (t.log ++ [ev])).forM (createPendingResponse (callback app frames))).run
      { t with log := t.log ++ [ev] } with ⟨_, t'⟩ | ⟨e, t'⟩
    · rintro ⟨hk, hl, hm⟩
      refine ⟨hk, le_trans ?_ hl, hm⟩
      simp
    · exact fun he => he

end

theorem onEviction_iff {others : List (PendingEntry τ)} (he : Evictee t s entry others)
    (hr : entry.response = some response) : OnEviction Q t s ↔
      Q (.onEvicted response.serial entry.requestId) { t with pending := others } := by
  constructor
  · intro hev
    exact hev entry response others he hr
  · intro hh e' r' os' he' hr'
    have hs : e' = entry ∧ os' = others := by
      rcases he with ⟨hf, hrs⟩ | ⟨hu, -, pending⟩
      · rcases he' with ⟨hf', hrs'⟩ | ⟨hu, -⟩
        · exact ⟨Option.some.inj (hf'.symm.trans hf), hrs'.trans hrs.symm⟩
        · rw [find_eq_none_iff.mpr hu] at hf
          cases hf
      · rcases he' with ⟨hf, -⟩ | ⟨-, -, hp'⟩
        · rw [find_eq_none_iff.mpr hu] at hf
          cases hf
        · exact cons.inj (hp'.symm.trans pending)
    obtain ⟨rfl, rfl⟩ := hs
    cases hr.symm.trans hr'
    exact hh

theorem onEviction_free (hu : ∀ e ∈ t.pending, e.requestId ≠ s.requestId)
    (hr : t.pending.length < setup.maxPendingResponses) : OnEviction Q t s := by
  rintro entry response others (⟨hf, -⟩ | ⟨-, hfl, -⟩) hrs
  · rw [find_eq_none_iff.mpr hu] at hf
    cases hf
  · exact absurd hr (Nat.not_lt.mpr hfl)

def Absent (busy : List RequestId) (t : Table setup H) : Prop :=
  ∀ requestId ∈ busy, requestId ∉ requestIds t.pending

/-- The program returns with the table in order, and none of the creations in progress was
overtaken by a creation for the same request. -/
def Settles (held : List Nat) (busy : List RequestId) :
    EStateM.Result Fault (Table setup H) Unit → Prop
  | .ok _ t' => Orderly held t' ∧ Absent busy t'
  | .error _ _ => False

section

variable {app : Application setup H} {busy : List RequestId}

/-- The eviction callback of a creation, seen from the creation: it settles with the object of
the evicted entry held and the new request in progress. -/
structure Serves (call : Event setup H → TableM setup H Unit)
    (Q : Event setup H → Table setup H → Prop) (held : List Nat) (busy : List RequestId)
    (floor : Nat) : Prop where
  ends : ∀ serial requestId t₁, floor ≤ t₁.log.length → Pooled (serial :: held) t₁ →
    Ends (serial :: held) t₁ ((call (.onEvicted serial requestId)).run t₁)
  settles : ∀ serial requestId t₁, floor ≤ t₁.log.length → Orderly (serial :: held) t₁ →
    Absent busy t₁ → (Settles (serial :: held) busy
      ((call (.onEvicted serial requestId)).run t₁) ↔ Q (.onEvicted serial requestId) t₁)

def evicted (s : Subscription τ) (serial : Nat) :
    EStateM.Result Fault (Table setup H) Unit → EStateM.Result Fault (Table setup H) Unit
  | .ok _ t' => .ok () (added (freed t' serial) s)
  | .error e t' => .error e t'

theorem evicted_settles {se : Nat} {result : EStateM.Result Fault (Table setup H) Unit}
    (hf : s.requestId ∉ busy) (he : Ends (se :: held) t result) :
    Settles held busy (evicted s se result) ↔
      Settles (se :: held) (s.requestId :: busy) result := by
  rcases result with ⟨_, t'⟩ | ⟨e, t'⟩
  · obtain ⟨hpl, -, -⟩ := he
    constructor
    · rintro ⟨ho, ha⟩
      have hd := ho.distinct
      rw [requestIds_added, nodup_append] at hd
      obtain ⟨hb, -, hap⟩ := hd
      refine ⟨⟨hpl, hb⟩, forall_mem_cons.mpr ⟨?_, ?_⟩⟩
      · intro hov
        exact hap _ hov _ (mem_singleton_self _) rfl
      · intro requestId hbi hp
        refine ha requestId hbi ?_
        rw [requestIds_added]
        exact mem_append_left _ hp
    · rintro ⟨ho, ha⟩
      obtain ⟨own, others⟩ := forall_mem_cons.mp ha
      obtain ⟨hfo, hr⟩ := ho.free
      refine ⟨hfo.add hr own, ?_⟩
      intro requestId hbi hp
      rw [requestIds_added] at hp
      rcases mem_append.mp hp with old | new
      · exact others requestId hbi old
      · rw [mem_singleton.mp new] at hbi
        exact hf hbi
  · exact .rfl

variable {others : List (PendingEntry τ)}

theorem evictee_mem (he : Evictee t s entry others) : entry ∈ t.pending := by
  rcases he with ⟨hf, -⟩ | ⟨-, -, hp⟩
  · exact mem_of_find?_eq_some hf
  · rw [hp]
    exact mem_cons_self

theorem evictee_orderly {response : Response τ} (ho : Orderly held t) (ha : Absent busy t)
    (he : Evictee t s entry others) (hr : entry.response = some response) :
    Orderly (response.serial :: held) { t with pending := others } ∧
      Absent (s.requestId :: busy) { t with pending := others } := by
  have hf : others ⊆ t.pending := by
    rcases he with ⟨-, rfl⟩ | ⟨-, -, pending⟩
    · exact fun e hm => mem_of_mem_eraseP hm
    · rw [pending]
      exact subset_cons_self entry others
  have hst : Absent busy { t with pending := others } := by
    intro requestId hbi pending
    obtain ⟨e, hm, hs⟩ := mem_map.mp pending
    exact ha requestId hbi (hs ▸ mem_map_of_mem (hf hm))
  rcases he with ⟨hfn, rfl⟩ | ⟨hu, -, pending⟩
  · obtain ⟨b, a, hsp, -, her⟩ := find_splits hfn
    refine ⟨?_, forall_mem_cons.mpr ⟨ho.not_mem_taken s.requestId, hst⟩⟩
    rw [taken, her]
    exact ho.take hsp hr
  · have h1 : t.pending = [] ++ entry :: others := pending
    refine ⟨ho.take h1 hr, forall_mem_cons.mpr ⟨?_, hst⟩⟩
    intro hk
    obtain ⟨e, hm, hs⟩ := mem_map.mp hk
    exact hu e (hf hm) hs

theorem create_evicting_run {response : Response τ} (he : Evictee t s entry others)
    (hr : entry.response = some response)
    (hen : Ends (response.serial :: held) { t with pending := others }
      ((call (.onEvicted response.serial entry.requestId)).run { t with pending := others })) :
    (createPendingResponse call s).run t = evicted s response.serial
      ((call (.onEvicted response.serial entry.requestId)).run { t with pending := others }) := by
  rcases run : (call (.onEvicted response.serial entry.requestId)).run
    { t with pending := others } with ⟨_, t'⟩ | ⟨e, t'⟩
  · rw [run] at hen
    obtain ⟨hfp, hrm⟩ := hen.1.free
    have hrg := hfp.pending_lt hrm
    have hev := evictPending_run hr run
    rcases he with ⟨hf, rfl⟩ | ⟨hu, hfl, pending⟩
    · refine (create_known hf hr).trans ((bind_ok hev).trans ?_)
      exact emplacePending_run hrm hrg
    · rw [create_full hu pending hfl, bind_ok ((bind_ok hev).trans (assertFree_run hrm hrg))]
      exact emplacePending_run hrm hrg
  · have hs := evictPending_error hr run
    rcases he with ⟨hf, rfl⟩ | ⟨hu, hfl, pending⟩
    · exact (create_known hf hr).trans (bind_error hs)
    · exact (create_full hu pending hfl).trans (bind_error (bind_error hs))

theorem create_faults {f : Nat} (ho : Orderly held t) (hl : f ≤ t.log.length)
    (he : Evictee t s entry others) (hsr : Serves call Q held busy f) {e : Fault}
    {t' : Table setup H} (hs : (createPendingResponse call s).run t = .error e t') :
    e = .poolExhausted ∨ e = .registryFull := by
  obtain ⟨response, hr⟩ :=
    Option.isSome_iff_exists.mp (ho.answerable entry (evictee_mem he))
  have ha : Absent [] t := fun _ hm => absurd hm not_mem_nil
  have hrs := (evictee_orderly ho ha he hr).1
  have hen := hsr.ends response.serial entry.requestId { t with pending := others } hl hrs.toPooled
  rw [create_evicting_run he hr hen] at hs
  revert hs hen
  rcases (call (.onEvicted response.serial entry.requestId)).run { t with pending := others }
    with ⟨_, t1⟩ | ⟨e1, t1⟩
  · intro hs hen
    cases hs
  · intro hs hen
    cases hs
    exact hen

theorem create_evicting_settles {f : Nat} (ho : Orderly held t) (ha : Absent busy t)
    (hf : s.requestId ∉ busy) (hl : f ≤ t.log.length) (he : Evictee t s entry others)
    (hs : Serves call Q held (s.requestId :: busy) f) :
    Settles held busy ((createPendingResponse call s).run t) ↔ OnEviction Q t s := by
  obtain ⟨response, hr⟩ :=
    Option.isSome_iff_exists.mp (ho.answerable entry (evictee_mem he))
  obtain ⟨hro, hg⟩ := evictee_orderly ho ha he hr
  have hen := hs.ends response.serial entry.requestId { t with pending := others } hl hro.toPooled
  rw [create_evicting_run he hr hen, evicted_settles hf hen, onEviction_iff he hr]
  exact hs.settles _ _ _ hl hro hg

theorem create_settles_iff {f : Nat} (ho : Orderly held t) (hh : held ≠ [])
    (ha : Absent busy t) (hl : f ≤ t.log.length)
    (hs : Serves call Q held (s.requestId :: busy) f) :
    Settles held busy ((createPendingResponse call s).run t) ↔
      Allowed busy t s ∧ OnEviction Q t s := by
  cases hf : t.pending.find? (·.requestId = s.requestId) with
  | some entry =>
    have hk := mem_requestIds_iff.mpr ⟨entry, hf⟩
    have hal : Allowed busy t s :=
      ⟨fun hbi => ha _ hbi hk, .inl hk⟩
    rw [create_evicting_settles ho ha hal.1 hl (.inl ⟨hf, rfl⟩) hs]
    exact ⟨fun he => ⟨hal, he⟩, fun hb => hb.2⟩
  | none =>
    have hu := find_eq_none_iff.mp hf
    have hr := pending_lt_of_held ho.toPooled hh
    have hfr : s.requestId ∉ requestIds t.pending := by
      intro hp
      obtain ⟨entry, hk⟩ := mem_requestIds_iff.mp hp
      cases hf.symm.trans hk
    have hq : OnEviction Q t s := onEviction_free hu hr
    by_cases hpl : t.live.length < setup.maxPendingResponses
    · rw [create_free hu hpl hr]
      constructor
      · rintro ⟨-, hst⟩
        refine ⟨⟨?_, .inr hpl⟩, hq⟩
        intro hbi
        refine hst _ hbi ?_
        rw [requestIds_added]
        exact mem_append_right _ (mem_singleton_self _)
      · rintro ⟨⟨hnb, -⟩, -⟩
        refine ⟨ho.add hpl hfr, ?_⟩
        intro requestId hbi hp
        rw [requestIds_added] at hp
        rcases mem_append.mp hp with old | new
        · exact ha requestId hbi old
        · rw [mem_singleton.mp new] at hbi
          exact hnb hbi
    · rw [create_exhausted hu (not_lt.mp hpl) hr]
      constructor
      · exact False.elim
      · rintro ⟨⟨-, hk | room⟩, -⟩
        · exact hfr hk
        · exact hpl room

theorem settled_before {t' : Table setup H} {r : EStateM.Result Fault (Table setup H) Unit}
    (hpl : Pooled held t') (he : Ends held t' r) (hs : Settles held busy r) :
    Orderly held t' ∧ Absent busy t' := by
  rcases r with ⟨_, t''⟩ | ⟨e, t''⟩
  · obtain ⟨-, -, hm⟩ := he
    obtain ⟨ho, ha⟩ := hs
    refine ⟨⟨hpl, nodup_iff_count_le_one.mpr fun requestId => ?_⟩, ?_⟩
    · exact (hm requestId).trans (nodup_iff_count_le_one.mp ho.distinct requestId)
    · intro requestId hbi hp
      refine ha requestId hbi (count_pos_iff.mp ?_)
      exact (count_pos_iff.mpr hp).trans_le (hm requestId)
  · cases hs

theorem creations_settle_iff (f : Nat)
    (R : List RequestId → Event setup H → Table setup H → Prop) (hh : held ≠ [])
    (rs : List (Subscription τ)) (hsr : ∀ s ∈ rs,
      Serves call (R (s.requestId :: busy)) held (s.requestId :: busy) f)
    (t : Table setup H) (hl : f ≤ t.log.length) (ho : Orderly held t) (hab : Absent busy t) :
    Settles held busy ((rs.forM (createPendingResponse call)).run t) ↔
      EachCreation (fun t s => Allowed busy t s ∧ OnEviction (R (s.requestId :: busy)) t s)
        (createPendingResponse call) rs t := by
  induction rs generalizing t with
  | nil => exact ⟨fun _ => trivial, fun _ => ⟨ho, hab⟩⟩
  | cons s rest ih =>
    obtain ⟨own, others⟩ := forall_mem_cons.mp hsr
    have hs := create_settles_iff ho hh hab hl own
    have h1 := create_ends call ho.toPooled hh s
      fun se requestId t1 log hk => own.ends se requestId t1 (log ▸ hl) hk
    rcases hr : (createPendingResponse call s).run t with ⟨_, t'⟩ | ⟨e, t'⟩
    · rw [hr] at h1 hs
      obtain ⟨hp, hln, -⟩ := h1
      have hu : ((s :: rest).forM (createPendingResponse call)).run t =
          (rest.forM (createPendingResponse call)).run t' := bind_ok hr
      rw [hu]
      have hlt (hn : Orderly held t' ∧ Absent busy t') :=
        ih others t' (hl.trans hln) hn.1 hn.2
      constructor
      · intro hst
        have he := creations_end f hh own.ends rest t' (hl.trans hln) hp
        have hn := settled_before hp he hst
        refine ⟨hs.mp hn, ?_⟩
        intro t'' hrt
        cases hr.symm.trans hrt
        exact (hlt hn).mp hst
      · rintro ⟨ha, hra⟩
        have hn := hs.mpr ha
        exact (hlt hn).mpr (hra t' hr)
    · rw [hr] at h1 hs
      have hu : ((s :: rest).forM (createPendingResponse call)).run t = .error e t' :=
        bind_error hr
      rw [hu]
      constructor
      · exact False.elim
      · rintro ⟨ha, -⟩
        exact hs.mpr ha

theorem callback_settles_iff (hb : Bounded app limit) (frames : Nat) (held : List Nat)
    (busy : List RequestId) (hh : held ≠ []) (e : Event setup H) (t : Table setup H)
    (hsf : 0 < frames) (he : limit < frames + t.log.length) (ho : Orderly held t)
    (ha : Absent busy t) :
    Settles held busy ((callback app frames e).run t) ↔ Permits app frames busy e t := by
  induction frames generalizing held busy e t with
  | zero => cases hsf
  | succ frames ih =>
    rw [callback_run, Permits]
    have hr : Orderly held { t with log := t.log ++ [e] } :=
      ⟨⟨ho.answerable, ho.pool, ho.capacity⟩, ho.distinct⟩
    cases requests : app.enter (t.log ++ [e]) with
    | nil => exact ⟨fun _ => trivial, fun _ => ⟨hr, ha⟩⟩
    | cons s rest =>
      obtain ⟨hl, hs⟩ := frames_left hb he requests
      refine creations_settle_iff (t.log ++ [e]).length (Permits app frames)
        hh (s :: rest) ?_ _ le_rfl hr ha
      intro s _
      constructor
      · intro se requestId t1 hln hk
        exact callback_ends hb frames _ (cons_ne_nil _ _) _ t1 hl (by omega) hk
      · intro se requestId t1 hln hk hg
        exact ih _ _ (cons_ne_nil _ _) _ t1 hl (by omega) hk hg

end

/-- The callbacks of an operation make only requests that are allowed. A creation from outside
is in progress while the entry that it evicts is called back. -/
def PermitsWithin (frames : Nat) (c : Context setup H) : Operation τ H → Prop
  | .create s => OnEviction (Permits app frames [s.requestId]) c.table s
  | .sendResult requestId => ∀ entry response r outer r' v,
      c.table.pending.find? (·.requestId = requestId) = some entry →
      entry.response = some response → c.parsers = r :: outer →
      ((setup.types response.awaited).codec setup.size).get
        ((setup.types response.awaited).codec setup.size).init r = .ok (r', v) →
      Permits app frames [] (.onResult response.serial requestId response.awaited v
        (outer.length + 1) (!r'.failed)) (taken c.table requestId)
  | .sendError requestId errorType errorCode => ∀ entry response,
      c.table.pending.find? (·.requestId = requestId) = some entry →
      entry.response = some response →
      Permits app frames [] (.onError response.serial requestId errorType errorCode)
        (taken c.table requestId)
  | _ => True

/-- Every request of the operation finds a free entry and a free object, and the table is in
order with no object held when the operation returns. -/
def FindsRoom (frames : Nat) (c : Context setup H) (operation : Operation τ H) : Prop :=
  match (operation.run app frames).run c with
  | .ok _ c' => Orderly [] c'.table
  | .error e _ => e ≠ .poolExhausted ∧ e ≠ .registryFull

/-- A call of a handler is no operation of this kind: what it requests is requested from
outside. -/
def FromOutside : Operation τ H → Prop
  | .handler _ => False
  | _ => True

inductive PermittedRuns (app : Application setup H) (frames : Nat) : Context setup H → Prop
  | start : PermittedRuns app frames ⟨⟨[], [], 0, []⟩, []⟩
  | step {c c' : Context setup H} (operation : Operation τ H) (before : PermittedRuns app frames c)
      (outside : FromOutside operation) (permitted : PermitsWithin app frames c operation)
      (returns : (operation.run app frames).run c = .ok () c') : PermittedRuns app frames c'

section

variable {app : Application setup H} {frames : Nat} {requestId : RequestId}

theorem callback_serves (hb : Bounded app limit) (he : limit < frames)
    (held : List Nat) (busy : List RequestId) :
    Serves (callback app frames) (Permits app frames busy) held busy 0 := by
  have hsf : 0 < frames := Nat.zero_lt_of_lt he
  constructor
  · intro se requestId t1 _ hk
    exact callback_ends hb frames _ (cons_ne_nil _ _) _ t1 hsf (by omega) hk
  · intro se requestId t1 _ hk hg
    exact callback_settles_iff hb frames _ _ (cons_ne_nil _ _) _ t1 hsf (by omega) hk hg

variable {c : Context setup H}

theorem create_without_eviction (ho : Orderly [] c.table) {s : Subscription τ}
    (hne : ¬ ∃ entry others, Evictee c.table s entry others) :
    FindsRoom app frames c (.create s) := by
  have hu : ∀ e ∈ c.table.pending, e.requestId ≠ s.requestId := by
    refine find_eq_none_iff.mp ?_
    cases found : c.table.pending.find? (·.requestId = s.requestId) with
    | none => rfl
    | some entry => exact absurd ⟨entry, _, .inl ⟨found, rfl⟩⟩ hne
  have hr : c.table.pending.length < setup.maxPendingResponses := by
    by_contra full
    cases pending : c.table.pending with
    | nil =>
      rw [pending] at full
      exact full setup.responses_pos
    | cons entry others =>
      exact hne ⟨entry, others, .inr ⟨hu, not_lt.mp full, pending⟩⟩
  have hc := ho.pending_length
  have hp : c.table.live.length < setup.maxPendingResponses := by
    rw [← hc]
    exact hr
  have hf : s.requestId ∉ requestIds c.table.pending := by
    intro hk
    obtain ⟨e, hm, he⟩ := mem_map.mp hk
    exact hu e hm he
  rw [FindsRoom, run, onTable_ok (create_free hu hp hr)]
  exact ho.add hp hf

theorem create_findsRoom (hb : Bounded app limit) (hen : limit < frames)
    (ho : Orderly [] c.table) (s : Subscription τ) :
    FindsRoom app frames c (.create s) ↔ PermitsWithin app frames c (.create s) := by
  have hs := callback_serves hb hen [] [s.requestId]
  have ha : Absent [] c.table := fun _ hm => absurd hm not_mem_nil
  by_cases evicts : ∃ entry others, Evictee c.table s entry others
  · obtain ⟨entry, others, he⟩ := evicts
    refine Iff.trans ?_ (create_evicting_settles ho ha not_mem_nil (Nat.zero_le _) he hs)
    rcases hc : (createPendingResponse (callback app frames) s).run c.table with ⟨_, t'⟩ | ⟨e, t'⟩
    · rw [FindsRoom, run, onTable_ok hc]
      exact ⟨fun a => ⟨a, fun _ hm => absurd hm not_mem_nil⟩, fun hst => hst.1⟩
    · rw [FindsRoom, run, onTable_error hc]
      have hsh := create_faults ho (Nat.zero_le _) he hs hc
      refine ⟨fun o => ?_, False.elim⟩
      rcases hsh with rfl | rfl
      · exact o.1 rfl
      · exact o.2 rfl
  · refine ⟨fun _ => ?_, fun _ => create_without_eviction ho evicts⟩
    intro entry response others he _
    exact absurd ⟨entry, others, he⟩ evicts

theorem concluded_findsRoom {se : Nat} {result : EStateM.Result Fault (Table setup H) Unit}
    (ps : List Reader) (he : Ends [se] t result) :
    (match concluded ps se result with
      | .ok _ c' => Orderly [] c'.table
      | .error e _ => e ≠ .poolExhausted ∧ e ≠ .registryFull) ↔ Settles [se] [] result := by
  rcases result with ⟨_, t'⟩ | ⟨e, t'⟩
  · obtain ⟨hp, -, -⟩ := he
    constructor
    · intro ho
      exact ⟨⟨hp, ho.distinct⟩, fun _ hm => absurd hm not_mem_nil⟩
    · rintro ⟨ho, -⟩
      exact ho.free.1
  · constructor
    · rintro ⟨hpl, hr⟩
      rcases he with rfl | rfl
      · exact hpl rfl
      · exact hr rfl
    · exact False.elim

theorem taken_orderly (ho : Orderly [] t)
    (hf : t.pending.find? (·.requestId = requestId) = some entry)
    (hr : entry.response = some response) : Orderly [response.serial] (taken t requestId) := by
  obtain ⟨b, a, hs, -, he⟩ := find_splits hf
  rw [taken, he]
  exact ho.take hs hr

theorem response_findsRoom (hb : Bounded app limit) (he : limit < frames)
    (ho : Orderly [] t) (hf : t.pending.find? (·.requestId = requestId) = some entry)
    (hr : entry.response = some response) (ps : List Reader)
    (ev : Event setup H) :
    (match concluded ps response.serial ((callback app frames ev).run (taken t requestId)) with
      | .ok _ c' => Orderly [] c'.table
      | .error e _ => e ≠ .poolExhausted ∧ e ≠ .registryFull) ↔
      Permits app frames [] ev (taken t requestId) := by
  have hsf : 0 < frames := Nat.zero_lt_of_lt he
  have hrs := taken_orderly ho hf hr
  have hen := callback_ends hb frames _ (cons_ne_nil _ _) ev _ hsf (by omega) hrs.toPooled
  refine (concluded_findsRoom ps hen).trans ?_
  exact callback_settles_iff hb frames _ [] (cons_ne_nil _ _) ev _ hsf
    (by omega) hrs fun _ hm => absurd hm not_mem_nil

theorem sendError_findsRoom (hb : Bounded app limit) (he : limit < frames)
    (ho : Orderly [] c.table) (requestId : RequestId) (et : Bytes 1) (ec : Bytes 4) :
    FindsRoom app frames c (.sendError requestId et ec) ↔
      PermitsWithin app frames c (.sendError requestId et ec) := by
  obtain ⟨t, ps⟩ := c
  cases hf : t.pending.find? (·.requestId = requestId) with
  | none =>
    rw [FindsRoom, run,
      setSendErrorResponse_unknown (find_eq_none_iff.mp hf) et ec]
    refine ⟨fun _ entry response hk => ?_, fun _ => ?_⟩
    · cases hf.symm.trans hk
    · cases ps <;> exact ⟨Fault.noConfusion, Fault.noConfusion⟩
  | some entry =>
    obtain ⟨response, hr⟩ := Option.isSome_iff_exists.mp
      (ho.answerable entry (mem_of_find?_eq_some hf))
    rw [FindsRoom, run, sendError_known hf hr]
    refine (response_findsRoom hb he ho hf hr ps _).trans ?_
    constructor
    · intro hp e' r' hf' hr'
      cases hf.symm.trans hf'
      cases hr.symm.trans hr'
      exact hp
    · intro hp
      exact hp entry response hf hr

theorem sendResult_findsRoom (hb : Bounded app limit) (he : limit < frames)
    (ho : Orderly [] c.table) (requestId : RequestId) :
    FindsRoom app frames c (.sendResult requestId) ↔
      PermitsWithin app frames c (.sendResult requestId) := by
  obtain ⟨t, ps⟩ := c
  cases hf : t.pending.find? (·.requestId = requestId) with
  | none =>
    rw [FindsRoom, run, setSendResultResponse_unknown (find_eq_none_iff.mp hf)]
    refine ⟨fun _ entry response r o r' v hk => ?_, fun _ => ?_⟩
    · cases hf.symm.trans hk
    · cases ps <;> exact ⟨Fault.noConfusion, Fault.noConfusion⟩
  | some entry =>
    obtain ⟨response, hr⟩ := Option.isSome_iff_exists.mp
      (ho.answerable entry (mem_of_find?_eq_some hf))
    cases ps with
    | nil =>
      rw [FindsRoom, run, sendResult_idle hf hr]
      refine ⟨fun _ entry response r o r' v _ _ ha => ?_, fun _ => ?_⟩
      · cases ha
      · exact ⟨Fault.noConfusion, Fault.noConfusion⟩
    | cons r o =>
      rcases hg : setup.extracted response.awaited r with st | ⟨r', v⟩
      · rw [FindsRoom, run, sendResult_stops hf hr o hg]
        refine ⟨fun _ e' re' r1 o1 r' v hf' hr' ha hg' => ?_,
          fun _ => ⟨Fault.noConfusion, Fault.noConfusion⟩⟩
        cases hf.symm.trans hf'
        cases hr.symm.trans hr'
        cases ha
        cases hg.symm.trans hg'
      · rw [FindsRoom, run, sendResult_known hf hr o hg]
        refine (response_findsRoom hb he ho hf hr _ _).trans ?_
        constructor
        · intro hp e' re' r1 o1 r1' v' hf' hr' ha hg'
          cases hf.symm.trans hf'
          cases hr.symm.trans hr'
          cases ha
          cases hg.symm.trans hg'
          exact hp
        · intro hp
          exact hp entry response r o r' v hf hr rfl hg

theorem parser_findsRoom (ho : Orderly [] c.table) {operation : Operation τ H}
    (hp : OnParsers operation) : FindsRoom app frames c operation := by
  have k := parser_operation app frames hp c
  rw [FindsRoom]
  rcases hr : (operation.run app frames).run c with ⟨_, c'⟩ | ⟨e, c'⟩
  · rw [hr] at k
    change Orderly [] c'.table
    rw [k]
    exact ho
  · rw [hr] at k
    exact k

theorem findsRoom_iff (hb : Bounded app limit) (he : limit < frames)
    (ho : Orderly [] c.table) {operation : Operation τ H} (hot : FromOutside operation) :
    FindsRoom app frames c operation ↔ PermitsWithin app frames c operation := by
  cases operation with
  | create s => exact create_findsRoom hb he ho s
  | sendResult requestId => exact sendResult_findsRoom hb he ho requestId
  | sendError requestId et ec =>
    exact sendError_findsRoom hb he ho requestId et ec
  | handler call => cases hot
  | pushParser data | popParser | extract d | cancel =>
    exact ⟨fun _ => trivial, fun _ => parser_findsRoom ho trivial⟩

end

/-- In every context that allowed requests lead to, the table is in order, and the requests of
an operation find room and leave the table in order exactly if they are allowed. -/
theorem callbacks_find_room_iff (app : Application setup H) (limit : Nat)
    (bounded : Bounded app limit) (frames : Nat) (enough : limit < frames) (c : Context setup H)
    (runs : PermittedRuns app frames c) :
    Orderly [] c.table ∧ ∀ operation, FromOutside operation →
      (FindsRoom app frames c operation ↔ PermitsWithin app frames c operation) := by
  have hor : Orderly [] c.table := by
    induction runs with
    | start => exact disciplined_start.orderly
    | step operation hb ho hp hr ih =>
      have hrm := (findsRoom_iff bounded enough ih ho).mpr hp
      rw [FindsRoom, hr] at hrm
      exact hrm
  exact ⟨hor, fun operation ho => findsRoom_iff bounded enough hor ho⟩

def numbered (n : UInt8) : RequestId := ⟨[n, 0, 0, 0], rfl⟩

def insistent (requestId : RequestId) : Application voidSetup Unit where
  enter log := if log.length = 1 then [⟨requestId, ()⟩] else []
  parses _ := true
  leave _ := []

theorem insistent_bounded (requestId : RequestId) : Bounded (insistent requestId) 2 := by
  intro log hl
  have hm : log.length ≠ 1 := by omega
  simp [insistent, hm]

def halfFull : Context voidSetup Unit :=
  ⟨⟨[⟨numbered 1, some ⟨0, ()⟩⟩], [0], 1, []⟩, []⟩

def full : Context voidSetup Unit :=
  ⟨⟨[⟨numbered 1, some ⟨0, ()⟩⟩, ⟨numbered 2, some ⟨1, ()⟩⟩], [1, 0], 2, []⟩, []⟩

theorem halfFull_runs (app : Application voidSetup Unit) : PermittedRuns app 3 halfFull := by
  refine .step (.create ⟨numbered 1, ()⟩) .start trivial ?_ rfl
  rintro entry response others (⟨hf, -⟩ | ⟨-, -, hp⟩) _
  · cases hf
  · cases hp

theorem full_runs (app : Application voidSetup Unit) : PermittedRuns app 3 full := by
  refine .step (.create ⟨numbered 2, ()⟩) (halfFull_runs app) trivial ?_ rfl
  rintro entry response others (⟨hf, -⟩ | ⟨-, hc, -⟩) _
  · cases hf
  · exact absurd hc (by decide)

theorem callbacks_find_room_iff_half_full :
    FindsRoom (insistent (numbered 3)) 3 halfFull
      (.sendError (numbered 1) (zeros 1) (zeros 4)) := by
  have he := callbacks_find_room_iff (insistent (numbered 3)) 2 (insistent_bounded _) 3
    (by decide) halfFull (halfFull_runs _)
  refine (he.2 (.sendError (numbered 1) (zeros 1) (zeros 4)) trivial).mpr ?_
  intro entry response hf hr
  cases hf
  cases hr
  refine ⟨⟨⟨not_mem_nil, .inr (by decide)⟩, ?_⟩, fun _ _ => trivial⟩
  rintro entry response others (⟨hf, -⟩ | ⟨-, -, hp⟩) _
  · cases hf
  · cases hp

/-- With both places taken, a request made while an error is reported finds no free object; and
a request made while its own old entry is evicted leaves two entries for it. -/
theorem callbacks_find_no_room :
    (PermittedRuns (insistent (numbered 3)) 3 full ∧
      ¬ FindsRoom (insistent (numbered 3)) 3 full
        (.sendError (numbered 1) (zeros 1) (zeros 4))) ∧
    PermittedRuns (insistent (numbered 1)) 3 halfFull ∧
      ¬ FindsRoom (insistent (numbered 1)) 3 halfFull (.create ⟨numbered 1, ()⟩) := by
  refine ⟨⟨full_runs _, ?_⟩, halfFull_runs _, ?_⟩
  · rintro ⟨hp, -⟩
    exact hp rfl
  · intro ho
    exact absurd ho.distinct (by decide)

end Ae.Api.Reentrancy
