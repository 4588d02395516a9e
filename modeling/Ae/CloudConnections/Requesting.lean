/- source: cloud_connections/{cloud_request.cpp,cloud_server_connections.h}
   digest: A request over a cloud is stuck when the servers of its policy are exhausted alone. -/

import Ae.Lib.EventRun
import Mathlib.Logic.Function.Basic

set_option autoImplicit false

namespace Ae.CloudConnections.Requesting
open Function List Lib.EventRun

inductive RequestPolicy where
  | mainServer
  | priority (priority : Nat)
  | replica (count : Nat)
  | all
deriving DecidableEq

def RequestPolicy.servers : RequestPolicy → List Nat → List Nat
  | .mainServer, selected => selected.head?.toList
  | .priority i, selected => selected[i]?.toList
  | .replica count, selected => selected.take (min selected.length count)
  | .all, selected => selected

/-- `ServerRequest`: `sent` tells that `state_subs` are set, `armed` that the task of
`timeout_sub` is pending. The scheduler accepts every task. -/
structure ServerRequest where
  sent : Bool
  armed : Bool
  retryCount : Nat
  exhausted : Bool
deriving DecidableEq

def ServerRequest.fresh : ServerRequest := ⟨false, false, 0, false⟩

/-- `CloudRequest` with the selected servers of its cloud. `known` are the keys of
`server_requests_`, `pending` is `task_sub_`, and the emitted results are a history. -/
structure CloudRequest where
  policy : RequestPolicy
  maxRetries : Nat
  selected : List Nat
  known : List Nat
  requests : Nat → ServerRequest
  pending : Bool
  finished : Bool
  results : List Bool

/-- `select` changes the selected servers; the other events are those the request listens to, the
run of its task, and what the listener of a response calls. -/
inductive Event where
  | select (servers : List Nat)
  | serversUpdated
  | task
  | writeFailed (sc : Nat)
  | channelChanged (sc : Nat)
  | timeout (sc : Nat)
  | succeeded
  | failed

namespace CloudRequest

def start (policy : RequestPolicy) (maxRetries : Nat) (servers selected : List Nat) :
    CloudRequest :=
  ⟨policy, maxRetries, selected, servers, fun _ => .fresh, true, false, []⟩

variable (s : CloudRequest)

def finish : CloudRequest :=
  { s with known := [], requests := fun _ => .fresh, pending := false, finished := true }

def succeeded : CloudRequest := { s.finish with results := s.results ++ [true] }

def failed : CloudRequest := { s.finish with results := s.results ++ [false] }

def enqueueMakeRequest : CloudRequest := { s with pending := true }

def modify (sc : Nat) (f : ServerRequest → ServerRequest) : CloudRequest :=
  { s with requests := Function.update s.requests sc (f (s.requests sc)) }

def makeServerRequest (sc : Nat) : CloudRequest :=
  s.modify sc fun sr => { sr with sent := true, armed := true }

def visit (sc : Nat) : CloudRequest :=
  if sc ∈ s.known then
    if (s.requests sc).exhausted then s else s.makeServerRequest sc
  else
    makeServerRequest
      { s with known := s.known ++ [sc], requests := Function.update s.requests sc .fresh } sc

def allExhausted : Bool :=
  !s.known.isEmpty && s.known.all fun sc => (s.requests sc).exhausted

def makeRequest : CloudRequest :=
  let s := (s.policy.servers s.selected).foldl visit s
  if s.allExhausted then s.failed else s

def onChannelChanged (sc : Nat) : CloudRequest :=
  if s.maxRetries ≤ (s.requests sc).retryCount then
    (s.modify sc fun sr => { sr with exhausted := true }).enqueueMakeRequest
  else s.enqueueMakeRequest

def onWriteFailed (sc : Nat) : CloudRequest :=
  (s.modify sc fun sr =>
    { sr with
      retryCount := sr.retryCount + 1
      exhausted := sr.exhausted || decide (s.maxRetries ≤ sr.retryCount + 1) }).enqueueMakeRequest

/-- The timeout may restream the server; a change of the channel is an event of its own. -/
def onServerRequestTimeout (sc : Nat) : CloudRequest :=
  if s.maxRetries ≤ (s.requests sc).retryCount then
    (s.modify sc fun sr => { sr with armed := false, exhausted := true }).enqueueMakeRequest
  else s.modify sc fun sr => { sr with armed := false, retryCount := sr.retryCount + 1 }

def step : Event → CloudRequest
  | .select servers => { s with selected := servers }
  | .serversUpdated => if s.finished then s else s.enqueueMakeRequest
  | .task => if s.pending then makeRequest { s with pending := false } else s
  | .writeFailed sc =>
    if sc ∈ s.known ∧ (s.requests sc).sent = true then s.onWriteFailed sc else s
  | .channelChanged sc =>
    if sc ∈ s.known ∧ (s.requests sc).sent = true then s.onChannelChanged sc else s
  | .timeout sc =>
    if sc ∈ s.known ∧ (s.requests sc).armed = true then s.onServerRequestTimeout sc else s
  | .succeeded => s.succeeded
  | .failed => s.failed

end CloudRequest

open CloudRequest

section

variable (s : CloudRequest)

def InFlight (sc : Nat) : Prop := sc ∈ s.known ∧ (s.requests sc).armed = true

def NotStuck : Prop :=
  s.finished = true ∧ s.results ≠ [] ∨ (∃ sc ∈ s.selected, InFlight s sc) ∨ s.selected = []

def Proceeds : Event → Prop
  | .task => s.pending = true → NotStuck (s.step .task)
  | _ => True

def Open (sc : Nat) : Prop := sc ∈ s.known → (s.requests sc).exhausted = false

/-- A server of the policy may be asked, or all known servers are exhausted, or a timeout is
still to come. -/
def CanProceed : Event → Prop
  | .task => s.pending = true →
    (∃ sc ∈ s.policy.servers s.selected, Open s sc) ∨ s.allExhausted = true ∨
      (∃ sc ∈ s.selected, InFlight s sc) ∨ s.selected = []
  | _ => True

end

section

variable {s : CloudRequest} {sc : Nat}

theorem mem_of_servers {p : RequestPolicy} {selected : List Nat}
    (hm : sc ∈ p.servers selected) : sc ∈ selected := by
  cases p with
  | mainServer => exact mem_of_mem_head? (Option.mem_toList.mp hm)
  | priority i => exact mem_of_getElem? (Option.mem_toList.mp hm)
  | replica c => exact mem_of_mem_take hm
  | all => exact hm

theorem makeServerRequest_same (s : CloudRequest) (sc : Nat) :
    (s.makeServerRequest sc).requests sc = { s.requests sc with sent := true, armed := true } :=
  update_self ..

theorem makeServerRequest_other (s : CloudRequest) {sc other : Nat} (hn : other ≠ sc) :
    (s.makeServerRequest sc).requests other = s.requests other :=
  update_of_ne hn ..

theorem visit_closed (hc : ¬ Open s sc) : s.visit sc = s := by
  obtain ⟨hk, he⟩ := Classical.not_imp.mp hc
  rw [visit, if_pos hk, if_pos (eq_true_of_ne_false he)]

theorem visit_other (s : CloudRequest) {sc o : Nat} (hn : sc ≠ o) :
    (s.visit o).requests sc = s.requests sc ∧ (sc ∈ (s.visit o).known ↔ sc ∈ s.known) := by
  rw [visit]
  split
  · split
    · exact ⟨rfl, .rfl⟩
    · exact ⟨makeServerRequest_other s hn, .rfl⟩
  · refine ⟨(makeServerRequest_other _ hn).trans (update_of_ne hn ..), ?_⟩
    change sc ∈ s.known ++ [o] ↔ sc ∈ s.known
    rw [mem_append, mem_singleton]
    exact or_iff_left hn

theorem visit_open (hm : Open s sc) :
    InFlight (s.visit sc) sc ∧ ((s.visit sc).requests sc).exhausted = false := by
  rw [visit]
  split
  · next hk =>
    rw [if_neg (Bool.eq_false_iff.mp (hm hk)), InFlight, makeServerRequest_same]
    exact ⟨⟨hk, rfl⟩, hm hk⟩
  · rw [InFlight, makeServerRequest_same]
    refine ⟨⟨mem_append_right _ (mem_singleton.mpr rfl), rfl⟩, ?_⟩
    exact congrArg ServerRequest.exhausted (update_self sc .fresh s.requests)

def Asked (s : CloudRequest) (sc : Nat) : Prop :=
  InFlight s sc ∧ (s.requests sc).exhausted = false

theorem Asked.visit (ha : Asked s sc) (o : Nat) : Asked (s.visit o) sc := by
  by_cases same : sc = o
  · subst same
    exact visit_open fun _ => ha.2
  · obtain ⟨hu, hk⟩ := visit_other s same
    rw [Asked, InFlight, hu, hk]
    exact ha

theorem Asked.visits (ha : Asked s sc) (ss : List Nat) :
    Asked (ss.foldl CloudRequest.visit s) sc := by
  induction ss generalizing s with
  | nil => exact ha
  | cons o ss ih => exact ih (ha.visit o)

theorem visits_closed {ss : List Nat} (hc : ∀ sc ∈ ss, ¬ Open s sc) :
    ss.foldl visit s = s := by
  induction ss with
  | nil => rfl
  | cons sc ss ih =>
    obtain ⟨h1, hl⟩ := forall_mem_cons.mp hc
    rw [foldl_cons, visit_closed h1, ih hl]

theorem visits_open {ss : List Nat} (hm : ∃ sc ∈ ss, Open s sc) :
    ∃ sc ∈ ss, Asked (ss.foldl visit s) sc := by
  induction ss with
  | nil => simp at hm
  | cons f ss ih =>
    by_cases hof : Open s f
    · exact ⟨f, mem_cons_self, Asked.visits (visit_open hof) ss⟩
    · obtain ⟨sc, mem, hm⟩ := hm
      have hl : ∃ sc ∈ ss, Open s sc := by
        refine ⟨sc, (mem_cons.mp mem).resolve_left fun he => ?_, hm⟩
        exact hof (he ▸ hm)
      obtain ⟨sc, mem, ha⟩ := ih hl
      rw [foldl_cons, visit_closed hof]
      exact ⟨sc, mem_cons_of_mem _ mem, ha⟩

theorem visit_frame (s : CloudRequest) (sc : Nat) :
    (s.visit sc).selected = s.selected ∧ (s.visit sc).finished = s.finished := by
  rw [visit]
  split
  · split <;> exact ⟨rfl, rfl⟩
  · exact ⟨rfl, rfl⟩

theorem visits_frame (s : CloudRequest) (ss : List Nat) :
    (ss.foldl visit s).selected = s.selected ∧ (ss.foldl visit s).finished = s.finished := by
  induction ss generalizing s with
  | nil => exact ⟨rfl, rfl⟩
  | cons sc ss ih =>
    rw [foldl_cons, (ih _).1, (ih _).2]
    exact visit_frame s sc

theorem Asked.not_allExhausted (ha : Asked s sc) : s.allExhausted = false := by
  rw [allExhausted, Bool.and_eq_false_iff]
  refine .inr (all_eq_false.mpr ⟨sc, ha.1.1, ?_⟩)
  rw [ha.2]
  exact Bool.false_ne_true

theorem notStuck_failed (s : CloudRequest) : NotStuck s.failed :=
  .inl ⟨rfl, by simp [failed]⟩

theorem notStuck_makeRequest_iff (hu : s.finished = false) :
    NotStuck s.makeRequest ↔ (∃ sc ∈ s.policy.servers s.selected, Open s sc) ∨
      s.allExhausted = true ∨ (∃ sc ∈ s.selected, InFlight s sc) ∨ s.selected = [] := by
  rw [makeRequest]
  by_cases hm : ∃ sc ∈ s.policy.servers s.selected, Open s sc
  · obtain ⟨sc, mem, ha⟩ := visits_open hm
    rw [ha.not_allExhausted]
    refine iff_of_true (.inr (.inl ⟨sc, ?_, ha.1⟩)) (.inl hm)
    rw [if_neg Bool.false_ne_true, (visits_frame ..).1]
    exact mem_of_servers mem
  · have hc : ∀ sc ∈ s.policy.servers s.selected, ¬ Open s sc :=
      fun sc mem hms => hm ⟨sc, mem, hms⟩
    rw [visits_closed hc, or_iff_right hm]
    split
    · next exhausted => exact iff_of_true (notStuck_failed s) (.inl exhausted)
    · next left =>
      rw [or_iff_right left, NotStuck, hu]
      simp

end

section

variable {s : CloudRequest}

structure Sound (s : CloudRequest) : Prop where
  results : s.finished = true → s.results ≠ []
  idle : s.finished = true → s.pending = false ∧ s.known = []

theorem sound_of_unfinished (hu : s.finished = false) : Sound s :=
  ⟨fun hf => (Bool.false_ne_true (hu.symm.trans hf)).elim,
    fun hf => (Bool.false_ne_true (hu.symm.trans hf)).elim⟩

theorem sound_finish (s : CloudRequest) (r : Bool) :
    Sound { s.finish with results := s.results ++ [r] } :=
  ⟨fun _ => by simp, fun _ => ⟨rfl, rfl⟩⟩

theorem sound_makeRequest (hu : s.finished = false) : Sound s.makeRequest := by
  rw [makeRequest]
  split
  · exact sound_finish _ false
  · exact sound_of_unfinished ((visits_frame s _).2.trans hu)

theorem Sound.unfinished_of_known (hs : Sound s) {sc : Nat} (hk : sc ∈ s.known) :
    s.finished = false := by
  by_contra hf
  rw [(hs.idle (eq_true_of_ne_false hf)).2] at hk
  cases hk

theorem Sound.unfinished_of_pending (hs : Sound s) (hp : s.pending = true) :
    s.finished = false := by
  by_contra hf
  have hi := (hs.idle (eq_true_of_ne_false hf)).1
  exact Bool.false_ne_true (hi.symm.trans hp)

theorem Sound.step (hs : Sound s) (e : Event) : Sound (s.step e) := by
  cases e with
  | select ss => exact ⟨hs.results, hs.idle⟩
  | serversUpdated =>
    rw [CloudRequest.step]
    split
    · exact hs
    · next unfinished => exact sound_of_unfinished (eq_false_of_ne_true unfinished)
  | task =>
    rw [CloudRequest.step]
    split
    · next pending => exact sound_makeRequest (hs.unfinished_of_pending pending)
    · exact hs
  | writeFailed sc =>
    rw [CloudRequest.step]
    split
    · next hk => exact sound_of_unfinished (hs.unfinished_of_known hk.1)
    · exact hs
  | channelChanged sc =>
    rw [CloudRequest.step]
    split
    · next hk =>
      rw [onChannelChanged]
      split <;> exact sound_of_unfinished (hs.unfinished_of_known hk.1)
    · exact hs
  | timeout sc =>
    rw [CloudRequest.step]
    split
    · next hk =>
      rw [onServerRequestTimeout]
      split <;> exact sound_of_unfinished (hs.unfinished_of_known hk.1)
    · exact hs
  | succeeded => exact sound_finish s true
  | failed => exact sound_finish s false

theorem Sound.proceeds_iff (hs : Sound s) (e : Event) : Proceeds s e ↔ CanProceed s e := by
  cases e with
  | task =>
    refine imp_congr_right fun pending => ?_
    have hu := hs.unfinished_of_pending pending
    rw [CloudRequest.step, if_pos pending]
    exact notStuck_makeRequest_iff (s := { s with pending := false }) hu
  | _ => exact .rfl

/-- A request is never stuck after a `MakeRequest` exactly when at each of them a server of the
policy may be asked, all known servers are exhausted, a timeout of a selected server is still
armed, or no server is selected. -/
theorem never_stuck_iff (policy : RequestPolicy) (maxRetries : Nat) (servers selected : List Nat)
    (events : List Event) :
    Along step Proceeds (.start policy maxRetries servers selected) events ↔
      Along step CanProceed (.start policy maxRetries servers selected) events :=
  along_congr_of_invariant (G := fun _ _ => True) (fun _ e hs _ => hs.step e)
    (fun _ e hs _ => hs.proceeds_iff e) (sound_of_unfinished rfl) along_true

def mainServerFails : List Event := [.task, .writeFailed 0, .task, .timeout 0, .task]

/-- The main server is used up, the other one is never asked, and nothing is pending. -/
theorem main_server_exhausted_stuck :
    let s := run step (.start .mainServer 1 [0, 1] [0, 1]) mainServerFails
    s.finished = false ∧ s.pending = false ∧ ¬ NotStuck s ∧
      ¬ Along step Proceeds (.start .mainServer 1 [0, 1] [0, 1]) mainServerFails := by
  have hs : ¬ NotStuck (run step (.start .mainServer 1 [0, 1] [0, 1]) mainServerFails) := by
    rintro (⟨hf, -⟩ | ⟨sc, hm, -, ha⟩ | none_selected)
    · cases hf
    · have hu : ∀ sc ∈ [0, 1], ((run step
          (.start .mainServer 1 [0, 1] [0, 1]) mainServerFails).requests sc).armed = false := by
        decide
      exact Bool.false_ne_true ((hu sc hm).symm.trans ha)
    · cases none_selected
  refine ⟨rfl, rfl, hs, ?_⟩
  rintro ⟨-, -, -, -, hp, -⟩
  exact hs (hp rfl)

end

end Ae.CloudConnections.Requesting
