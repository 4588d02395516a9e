/- source: cloud_connections/cloud_request.cpp
   digest: Every trigger asks all servers of the policy again; few of them count as retries. -/

import Ae.CloudConnections.Requesting

set_option autoImplicit false

namespace Ae.CloudConnections.RetryBudget
open Function List Lib.EventRun Requesting
open CloudRequest hiding makeRequest step

/-- What has become of the last request to a server: `flying` until something is reported of it,
`rerouted` when its channel changed, `failed` when its write failed or it timed out. -/
inductive Flight where
  | unsent
  | flying
  | rerouted
  | failed
deriving DecidableEq

def Flight.uncounted : Flight → Nat
  | .unsent => 0
  | .flying => 1
  | .rerouted => 1
  | .failed => 0

def Flight.reroute : Flight → Flight
  | .failed => .failed
  | _ => .rerouted

/-- A `CloudRequest` with the number of requests sent to each server, what became of the last one,
and the server whose failure enqueued the pending task. -/
structure RequestHistory where
  request : CloudRequest
  sends : Nat → Nat
  flight : Nat → Flight
  cause : Option Nat

instance (s : CloudRequest) (sc : Nat) : Decidable (Open s sc) :=
  inferInstanceAs (Decidable (sc ∈ s.known → (s.requests sc).exhausted = false))

namespace RequestHistory

def start (policy : RequestPolicy) (maxRetries : Nat) (servers selected : List Nat) :
    RequestHistory :=
  ⟨.start policy maxRetries servers selected, fun _ => 0, fun _ => .unsent, none⟩

variable (h : RequestHistory)

def addressed : List Nat := h.request.policy.servers h.request.selected

def ask (sc : Nat) : RequestHistory :=
  if Open h.request sc then
    { h with
      request := h.request.visit sc
      sends := Function.update h.sends sc (h.sends sc + 1)
      flight := Function.update h.flight sc .flying }
  else { h with request := h.request.visit sc }

def makeRequest : RequestHistory :=
  let asked := h.addressed.foldl ask h
  { asked with
    request := if asked.request.allExhausted then asked.request.failed else asked.request
    cause := none }

def report (sc : Nat) (e : Event) (flight : Flight) : RequestHistory :=
  { h with
    request := h.request.step e
    flight := Function.update h.flight sc flight
    cause := if h.request.pending then h.cause
      else if (h.request.step e).pending then some sc else none }

def step : Event → RequestHistory
  | .task =>
    if h.request.pending then makeRequest { h with request := { h.request with pending := false } }
    else h
  | .writeFailed sc =>
    if sc ∈ h.request.known ∧ (h.request.requests sc).sent = true then
      h.report sc (.writeFailed sc) .failed
    else h
  | .channelChanged sc =>
    if sc ∈ h.request.known ∧ (h.request.requests sc).sent = true then
      h.report sc (.channelChanged sc) (h.flight sc).reroute
    else h
  | .timeout sc =>
    if sc ∈ h.request.known ∧ (h.request.requests sc).armed = true then
      h.report sc (.timeout sc) .failed
    else h
  | e => { h with request := h.request.step e }

end RequestHistory

open RequestHistory

/-- No failure of one server makes a request that flies to another one go out again. -/
def SparesOthers (h : RequestHistory) : Event → Prop
  | .task => h.request.pending = true → ∀ failing, h.cause = some failing →
    ∀ sc ≠ failing, h.flight sc = .flying → (h.step .task).sends sc = h.sends sc
  | _ => True

/-- `MakeRequest` goes over each server once, and those that it may ask were not asked before or
have had a failure counted since. -/
def AsksSettled (h : RequestHistory) : Event → Prop
  | .task => h.request.pending = true → h.addressed.Nodup ∧
    ∀ sc ∈ h.addressed, Open h.request sc → (h.flight sc).uncounted = 0
  | _ => True

instance (h : RequestHistory) : (e : Event) → Decidable (AsksSettled h e)
  | .task => inferInstanceAs (Decidable (h.request.pending = true → h.addressed.Nodup ∧
      ∀ sc ∈ h.addressed, Open h.request sc → (h.flight sc).uncounted = 0))
  | .select _ | .serversUpdated | .writeFailed _ | .channelChanged _ | .timeout _ | .succeeded
  | .failed => isTrue trivial

section

variable {h : RequestHistory}

theorem ask_request (h : RequestHistory) (sc : Nat) : (h.ask sc).request = h.request.visit sc := by
  rw [ask]
  split <;> rfl

theorem asks_request (h : RequestHistory) (ss : List Nat) :
    (ss.foldl ask h).request = ss.foldl visit h.request := by
  induction ss generalizing h with
  | nil => rfl
  | cons sc ss ih => rw [foldl_cons, foldl_cons, ih, ask_request]

theorem step_request (h : RequestHistory) (e : Event) : (h.step e).request = h.request.step e := by
  cases e with
  | task =>
    rw [step, CloudRequest.step]
    split
    · rw [makeRequest, CloudRequest.makeRequest]
      simp only [asks_request]
      rfl
    · rfl
  | writeFailed sc | channelChanged sc | timeout sc =>
    rw [step]
    split
    · rfl
    · next hu => exact (if_neg hu).symm
  | _ => rfl

variable {sc : Nat}

theorem ask_closed (hc : ¬ Open h.request sc) : h.ask sc = h := by
  rw [ask, if_neg hc, visit_closed hc]

theorem ask_same (hm : Open h.request sc) :
    (h.ask sc).sends sc = h.sends sc + 1 ∧ (h.ask sc).flight sc = .flying := by
  rw [ask, if_pos hm]
  exact ⟨update_self .., update_self ..⟩

theorem ask_other (h : RequestHistory) {o : Nat} (hn : sc ≠ o) :
    (h.ask o).sends sc = h.sends sc ∧ (h.ask o).flight sc = h.flight sc := by
  rw [ask]
  split
  · exact ⟨update_of_ne hn .., update_of_ne hn ..⟩
  · exact ⟨rfl, rfl⟩

theorem open_ask_other (h : RequestHistory) {o : Nat} (hn : sc ≠ o) :
    Open (h.ask o).request sc ↔ Open h.request sc := by
  obtain ⟨hu, hk⟩ := visit_other h.request hn
  rw [ask_request, Open, hu, hk, Open]

theorem asks_sends_of_spared {ss : List Nat} (hs : sc ∈ ss → ¬ Open h.request sc) :
    (ss.foldl ask h).sends sc = h.sends sc := by
  induction ss generalizing h with
  | nil => rfl
  | cons o ss ih =>
    rw [foldl_cons]
    by_cases he : sc = o
    · subst he
      have hc := hs mem_cons_self
      rw [ask_closed hc]
      exact ih fun _ => hc
    · rw [ih, (ask_other h he).1]
      intro hm may
      exact hs (mem_cons_of_mem _ hm) ((open_ask_other h he).mp may)

end

section

variable {h : RequestHistory} {limit : Nat}

structure Counted (limit : Nat) (h : RequestHistory) (sc : Nat) : Prop where
  within : h.sends sc ≤ limit + 1
  unknown : sc ∉ h.request.known → h.sends sc = 0
  retries : (h.request.requests sc).exhausted = false → (h.request.requests sc).retryCount ≤ limit ∧
      h.sends sc ≤ (h.request.requests sc).retryCount + (h.flight sc).uncounted

variable {sc : Nat}

theorem Counted.congr {o : RequestHistory} (hc : Counted limit h sc)
    (hk : sc ∈ o.request.known ↔ sc ∈ h.request.known)
    (hr : o.request.requests sc = h.request.requests sc) (hs : o.sends sc = h.sends sc)
    (hf : o.flight sc = h.flight sc) : Counted limit o sc where
  within := hs ▸ hc.within
  unknown missing := hs.trans (hc.unknown (mt hk.mpr missing))
  retries := by
    rw [hr, hs, hf]
    exact hc.retries

theorem visit_retryCount {s : CloudRequest} (hm : Open s sc) :
    ((s.visit sc).requests sc).retryCount =
      if sc ∈ s.known then (s.requests sc).retryCount else 0 := by
  rw [visit]
  split
  · next hk => rw [if_neg (Bool.eq_false_iff.mp (hm hk)), makeServerRequest_same]
  · rw [makeServerRequest_same]
    exact congrArg ServerRequest.retryCount (update_self sc .fresh s.requests)

theorem Counted.ask (hc : Counted limit h sc)
    (hst : Open h.request sc → (h.flight sc).uncounted = 0) : Counted limit (h.ask sc) sc := by
  by_cases may : Open h.request sc
  · obtain ⟨⟨hk, -⟩, -⟩ := visit_open may
    obtain ⟨hs, hf⟩ := ask_same may
    have hp : h.sends sc ≤ ((h.request.visit sc).requests sc).retryCount ∧
        ((h.request.visit sc).requests sc).retryCount ≤ limit := by
      rw [visit_retryCount may]
      split
      · next mem =>
        have hb := hc.retries (may mem)
        rw [hst may] at hb
        exact hb.symm
      · next hm => exact ⟨Nat.le_of_eq (hc.unknown hm), Nat.zero_le limit⟩
    refine ⟨?_, fun hm => ?_, fun _ => ?_⟩
    · rw [hs]
      omega
    · rw [ask_request] at hm
      exact absurd hk hm
    · rw [ask_request, hs, hf]
      exact ⟨hp.2, Nat.add_le_add_right hp.1 1⟩
  · rw [ask_closed may]
    exact hc

theorem Counted.ask_other {o : Nat} (hc : Counted limit h sc) (hn : sc ≠ o) :
    Counted limit (h.ask o) sc := by
  obtain ⟨hu, hk⟩ := visit_other h.request hn
  obtain ⟨hs, hf⟩ := RetryBudget.ask_other h hn
  rw [← ask_request] at hu hk
  exact hc.congr hk hu hs hf

theorem Counted.asks {ss : List Nat} (hc : ∀ sc, Counted limit h sc) (hd : ss.Nodup)
    (hs : ∀ sc ∈ ss, Open h.request sc → (h.flight sc).uncounted = 0) (sc : Nat) :
    Counted limit (ss.foldl RequestHistory.ask h) sc := by
  induction ss generalizing h with
  | nil => exact hc sc
  | cons other ss ih =>
    obtain ⟨hf, hd⟩ := nodup_cons.mp hd
    obtain ⟨h1, hl⟩ := forall_mem_cons.mp hs
    refine ih (fun one => ?_) hd fun n hm may => ?_
    · by_cases he : one = other
      · subst he
        exact (hc one).ask h1
      · exact (hc one).ask_other he
    · -- the servers still to come are not the one just asked
      have hn : n ≠ other := fun he => hf (he ▸ hm)
      rw [(RetryBudget.ask_other h hn).2]
      exact hl n hm ((open_ask_other h hn).mp may)

theorem Counted.report {e : Event} {f : Flight} (hc : ∀ sc, Counted limit h sc)
    (hk : sc ∈ h.request.known) (he : (h.request.step e).known = h.request.known)
    (ho : ∀ o ≠ sc, (h.request.step e).requests o = h.request.requests o)
    (own : ((h.request.step e).requests sc).exhausted = false →
      ((h.request.step e).requests sc).retryCount ≤ limit ∧
        h.sends sc ≤ ((h.request.step e).requests sc).retryCount + f.uncounted)
    (one : Nat) : Counted limit (h.report sc e f) one := by
  have hki : one ∈ (h.report sc e f).request.known ↔ one ∈ h.request.known := by
    rw [RequestHistory.report, he]
  by_cases this : one = sc
  · subst this
    refine ⟨(hc one).within, fun hm => absurd (hki.mpr hk) hm, ?_⟩
    rw [RequestHistory.report]
    dsimp only
    rw [update_self]
    exact own
  · exact (hc one).congr hki (ho one this) rfl (update_of_ne this ..)

end

section

variable {h : RequestHistory} {limit : Nat}

structure Budgeted (limit : Nat) (h : RequestHistory) : Prop where
  budget : h.request.maxRetries = limit
  sound : Sound h.request
  within : ∀ sc, h.sends sc ≤ limit + 1
  counted : h.request.finished = false → ∀ sc, Counted limit h sc

theorem budgeted_start (p : RequestPolicy) (mr : Nat) (ss s : List Nat) :
    Budgeted mr (.start p mr ss s) where
  budget := rfl
  sound := sound_of_unfinished rfl
  within _ := Nat.zero_le _
  counted _ _ := ⟨Nat.zero_le _, fun _ => rfl, fun _ => ⟨Nat.zero_le _, Nat.zero_le _⟩⟩

theorem visits_maxRetries (s : CloudRequest) (ss : List Nat) :
    (ss.foldl visit s).maxRetries = s.maxRetries := by
  induction ss generalizing s with
  | nil => rfl
  | cons sc ss ih =>
    rw [foldl_cons, ih, visit]
    split
    · split <;> rfl
    · rfl

theorem step_maxRetries (s : CloudRequest) (e : Event) : (s.step e).maxRetries = s.maxRetries := by
  cases e with
  | task =>
    rw [CloudRequest.step]
    split
    · rw [CloudRequest.makeRequest]
      split
      · exact visits_maxRetries _ _
      · exact visits_maxRetries _ _
    · rfl
  | serversUpdated | writeFailed sc =>
    rw [CloudRequest.step]
    split <;> rfl
  | channelChanged sc =>
    rw [CloudRequest.step]
    split
    · rw [onChannelChanged]
      split <;> rfl
    · rfl
  | timeout sc =>
    rw [CloudRequest.step]
    split
    · rw [onServerRequestTimeout]
      split <;> rfl
    · rfl
  | _ => rfl

theorem uncounted_le_one (f : Flight) : f.uncounted ≤ 1 := by
  cases f <;> decide

theorem reroute_uncounted (f : Flight) : f.uncounted ≤ f.reroute.uncounted := by
  cases f <;> decide

section

variable (hb : Budgeted limit h)
include hb

variable {e : Event}

theorem Budgeted.of_step (hs : (h.step e).sends = h.sends)
    (counted : (h.step e).request.finished = false → ∀ sc, Counted limit (h.step e) sc) :
    Budgeted limit (h.step e) where
  budget := by rw [step_request, step_maxRetries, hb.budget]
  sound := step_request h e ▸ hb.sound.step e
  within := hs ▸ hb.within
  counted := counted

theorem Budgeted.of_same (he : h.step e = h) : Budgeted limit (h.step e) := by
  rw [he]
  exact hb

theorem Budgeted.report {sc : Nat} {f : Flight} {s : CloudRequest} {a : ServerRequest}
    (hk : sc ∈ h.request.known) (hs : h.step e = h.report sc e f) (hr : h.request.step e = s)
    (he : s.known = h.request.known) (hrq : s.requests = Function.update h.request.requests sc a)
    (ho : Counted limit h sc → a.exhausted = false →
      a.retryCount ≤ limit ∧ h.sends sc ≤ a.retryCount + f.uncounted)
    : Budgeted limit (h.step e) := by
  have hc := hb.counted (hb.sound.unfinished_of_known hk)
  refine hb.of_step (hs ▸ rfl) fun _ => ?_
  rw [hs]
  refine Counted.report hc hk (hr ▸ he) (fun o hn => ?_) ?_
  · rw [hr, hrq]
    exact update_of_ne hn ..
  · rw [hr, hrq, update_self]
    exact ho (hc sc)

theorem Budgeted.writeFailed (sc : Nat) :
    Budgeted limit (h.step (.writeFailed sc)) := by
  by_cases hh : sc ∈ h.request.known ∧ (h.request.requests sc).sent = true
  · have hr : h.request.step (.writeFailed sc) = h.request.onWriteFailed sc := if_pos hh
    refine hb.report hh.1 (if_pos hh) hr rfl rfl ?_
    intro hc hl
    obtain ⟨hu, hm⟩ := Bool.or_eq_false_iff.mp hl
    have hm := of_decide_eq_false hm
    rw [hb.budget] at hm
    have hp := (hc.retries hu).2
    have ho := uncounted_le_one (h.flight sc)
    dsimp only [Flight.uncounted]
    exact ⟨by omega, by omega⟩
  · exact hb.of_same (if_neg hh)

theorem Budgeted.channelChanged (sc : Nat) :
    Budgeted limit (h.step (.channelChanged sc)) := by
  by_cases hh : sc ∈ h.request.known ∧ (h.request.requests sc).sent = true
  · have hr : h.request.step (.channelChanged sc) = h.request.onChannelChanged sc :=
      if_pos hh
    rw [onChannelChanged] at hr
    split at hr
    · refine hb.report hh.1 (if_pos hh) hr rfl rfl ?_
      intro _ hl
      cases hl
    · refine hb.report hh.1 (if_pos hh) hr rfl
        (update_eq_self sc _).symm ?_
      intro hc hl
      obtain ⟨hrt, hp⟩ := hc.retries hl
      exact ⟨hrt, Nat.le_trans hp (Nat.add_le_add_left (reroute_uncounted _) _)⟩
  · exact hb.of_same (if_neg hh)

theorem Budgeted.timeout (sc : Nat) :
    Budgeted limit (h.step (.timeout sc)) := by
  by_cases hh : sc ∈ h.request.known ∧ (h.request.requests sc).armed = true
  · have hr : h.request.step (.timeout sc) = h.request.onServerRequestTimeout sc :=
      if_pos hh
    rw [onServerRequestTimeout] at hr
    split at hr
    · refine hb.report hh.1 (if_pos hh) hr rfl rfl ?_
      intro _ hl
      cases hl
    · next more =>
      refine hb.report hh.1 (if_pos hh) hr rfl rfl ?_
      intro hc hl
      rw [hb.budget] at more
      have hp := (hc.retries hl).2
      have ho := uncounted_le_one (h.flight sc)
      dsimp only [Flight.uncounted]
      exact ⟨by omega, by omega⟩
  · exact hb.of_same (if_neg hh)

theorem Budgeted.task (hs : AsksSettled h .task) :
    Budgeted limit (h.step .task) := by
  by_cases pending : h.request.pending = true
  · have hu := hb.sound.unfinished_of_pending pending
    obtain ⟨hd, hs⟩ := hs pending
    have ha := Counted.asks (h := { h with request := { h.request with pending := false } })
      (fun sc => (hb.counted hu sc).congr .rfl rfl rfl rfl) hd hs
    have hst : h.step .task =
        makeRequest { h with request := { h.request with pending := false } } :=
      if_pos pending
    refine ⟨?_, ?_, ?_, ?_⟩
    · rw [step_request, step_maxRetries, hb.budget]
    · rw [step_request]
      exact hb.sound.step .task
    · rw [hst]
      exact fun sc => (ha sc).within
    · rw [hst, makeRequest]
      dsimp only
      split
      · exact fun hu => Bool.noConfusion hu
      · exact fun _ sc => (ha sc).congr .rfl rfl rfl rfl
  · exact hb.of_same (if_neg pending)

theorem Budgeted.step (e : Event) (hs : AsksSettled h e) :
    Budgeted limit (h.step e) := by
  cases e with
  | select ss => exact hb.of_step rfl fun hu sc =>
      (hb.counted hu sc).congr .rfl rfl rfl rfl
  | serversUpdated =>
    refine hb.of_step rfl fun hu sc => ?_
    by_cases hf : h.request.finished = true
    · rw [step_request, CloudRequest.step, if_pos hf, hf] at hu
      cases hu
    · have hr : (h.step .serversUpdated).request = h.request.enqueueMakeRequest :=
        (step_request ..).trans (if_neg hf)
      have hc := hb.counted (eq_false_of_ne_true hf) sc
      exact hc.congr (hr ▸ .rfl) (hr ▸ rfl) rfl rfl
  | task => exact hb.task hs
  | writeFailed sc => exact hb.writeFailed sc
  | channelChanged sc => exact hb.channelChanged sc
  | timeout sc => exact hb.timeout sc
  | succeeded | failed => exact hb.of_step rfl fun hu => Bool.noConfusion hu

end

theorem sparesOthers_of_settled {e : Event} (hs : AsksSettled h e) : SparesOthers h e := by
  cases e with
  | task =>
    intro hp f _ sc _ hf
    obtain ⟨-, hs⟩ := hs hp
    rw [step, if_pos hp, makeRequest]
    refine asks_sends_of_spared fun hm may => ?_
    have hc := hs sc hm may
    rw [hf] at hc
    cases hc
  | _ => trivial

/-- Where each `MakeRequest` finds the servers it may ask without an uncounted request, no server
is asked more than `max_retries_ + 1` times, and no failure repeats a request in flight. -/
theorem retry_budget_of_settled (policy : RequestPolicy) (maxRetries : Nat)
    (servers selected : List Nat) (events : List Event) (settled : Along step AsksSettled
      (.start policy maxRetries servers selected) events) :
    Always step (fun h => ∀ sc, h.sends sc ≤ maxRetries + 1)
        (.start policy maxRetries servers selected) events ∧
      Along step SparesOthers (.start policy maxRetries servers selected) events := by
  have hs := budgeted_start policy maxRetries servers selected
  constructor
  · exact Always.of_invariant (fun _ e hb ha => hb.step e ha) (fun _ hb => hb.within) hs settled
  · exact Along.of_invariant (fun _ e hb ha => hb.step e ha)
      (fun _ _ _ ha => sparesOthers_of_settled ha) hs settled

def mainServerRetries : List Event :=
  [.task, .writeFailed 0, .task, .timeout 0, .serversUpdated, .task]

theorem retry_budget_main_server :
    Along step AsksSettled (.start .mainServer 2 [0, 1] [0, 1]) mainServerRetries ∧
      (run step (.start .mainServer 2 [0, 1] [0, 1]) mainServerRetries).sends 0 = 3 ∧
      Always step (fun h => ∀ sc, h.sends sc ≤ 2 + 1)
        (.start .mainServer 2 [0, 1] [0, 1]) mainServerRetries := by
  have hs : Along step AsksSettled (.start .mainServer 2 [0, 1] [0, 1])
      mainServerRetries := by
    decide
  exact ⟨hs, rfl, (retry_budget_of_settled .mainServer 2 [0, 1] [0, 1] _ hs).1⟩

def oneWriteFails : List Event := [.task, .writeFailed 0]

def updatedTwice : List Event := [.task, .serversUpdated, .task, .serversUpdated, .task]

/-- The failure of one server repeats the request that flies to the other one; two updates of the
servers, in which nothing fails, send a request with one retry three times. -/
theorem failure_repeats_request_in_flight :
    let h := run step (.start .all 1 [0, 1] [0, 1]) oneWriteFails
    h.request.pending = true ∧ h.cause = some 0 ∧ h.flight 1 = .flying ∧
      (h.step .task).sends 1 = 2 ∧ ¬ SparesOthers h .task ∧
      (run step (.start .mainServer 1 [0] [0]) updatedTwice).sends 0 = 1 + 2 := by
  refine ⟨rfl, rfl, rfl, rfl, fun hs => ?_, rfl⟩
  have he := hs rfl 0 rfl 1 (by decide) rfl
  exact absurd he (by decide)

end

end Ae.CloudConnections.RetryBudget
