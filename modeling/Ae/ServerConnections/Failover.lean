/- source: server_connections/{server_connection,channel_connection}.cpp,
     actions/action.h
   digest: A failed build of a channel is not marked and leaves the connection with no selection,
     and a stream that fails before it is reported is not marked either. -/

import Ae.Lib.EventRun
import Mathlib.Data.Fin.Tuple.Basic

set_option autoImplicit false

namespace Ae.ServerConnections.Failover
open Function Lib.EventRun

inductive LinkState where
  | unlinked
  | linked
  | linkError
deriving DecidableEq

/-- `channel_select_action_`: none or a finished one, one that waits for its transport, and one
whose task will emit the result. -/
inductive Selection (n : Nat) where
  | idle
  | building (channel : Fin n)
  | reporting (channel : Fin n) (ok : Bool)
deriving DecidableEq

/-- `ServerConnection` with its channels in the order of `channels_`. `topChannel` has no value
before the first link: the constructor does not set the pointer. `subscribed` tells that the
subscriptions to the stream of the top channel are set, and `deferred` is `defer_sub_`.
Histories are the emitted server errors, the channels whose build or link has failed, and
whether the pointer has been read without a value. -/
structure ServerConnection (n : Nat) where
  failed : Fin n → Bool
  fullConnected : Bool
  topChannel : Option (Fin n)
  selection : Selection n
  linkState : LinkState
  isWritable : Bool
  subscribed : Bool
  deferred : Bool
  serverErrors : Nat
  broken : Fin n → Bool
  undefined : Bool

/-- The result of a transport build, the task of the selection, an error or data from the
subscribed stream, a call of `Restream`, and the task of `DeferServerError`. -/
inductive Event where
  | built (ok : Bool)
  | selectTask
  | linkError
  | read
  | restream
  | errorTask
deriving DecidableEq

namespace ServerConnection

variable {n : Nat} (s : ServerConnection n)

/-- `TopChannel`: the first entry that has not failed. -/
def firstChannel : Option (Fin n) := Fin.find? fun c => !s.failed c

def deferServerError : ServerConnection n :=
  { s with isWritable := false, deferred := true }

def selectChannel : ServerConnection n :=
  if s.selection = .idle then
    match s.firstChannel with
    | none => s.deferServerError
    | some c =>
      { s with linkState := .unlinked, isWritable := false, selection := .building c }
  else s

def channelUpdated (channel : Fin n) : ServerConnection n :=
  { s with
    topChannel := some channel
    subscribed := true
    linkState := .linked
    isWritable := true }

def serverError : ServerConnection n :=
  { s with
    subscribed := false
    linkState := .linkError
    isWritable := false
    serverErrors := s.serverErrors + 1 }

/-- The beginning of `ChannelError`. A pointer without a value is taken for null. -/
def markTop : ServerConnection n :=
  match s.topChannel with
  | some c =>
    { s with subscribed := false, isWritable := false, failed := update s.failed c true }
  | none => { s with subscribed := false, isWritable := false, undefined := true }

def channelError : ServerConnection n :=
  if s.fullConnected then s.markTop.serverError else s.markTop.selectChannel

/-- The linked channel fails, or `Restream` tells that something is wrong with it. -/
def breakCurrent : ServerConnection n :=
  match s.topChannel with
  | some c => if s.subscribed then { s with broken := update s.broken c true } else s
  | none => s

def finish : ServerConnection n := { s with selection := .idle }

def onBuilt (ok : Bool) : ServerConnection n :=
  match s.selection with
  | .building c =>
    { s with
      selection := .reporting c ok
      broken := if ok then s.broken else update s.broken c true }
  | _ => s

/-- The task emits the result first and finishes the action afterwards. -/
def onSelectTask : ServerConnection n :=
  match s.selection with
  | .reporting c true => (s.channelUpdated c).finish
  | .reporting _ false => s.channelError.finish
  | _ => s

def step : Event → ServerConnection n
  | .built ok => s.onBuilt ok
  | .selectTask => s.onSelectTask
  | .linkError => if s.subscribed then s.breakCurrent.channelError else s
  | .read => if s.subscribed then { s with fullConnected := true } else s
  | .restream => s.breakCurrent.channelError
  | .errorTask => if s.deferred then { s with deferred := false }.serverError else s

def start (n : Nat) : ServerConnection n :=
  selectChannel
    { failed := fun _ => false
      fullConnected := false
      topChannel := none
      selection := .idle
      linkState := .unlinked
      isWritable := false
      subscribed := false
      deferred := false
      serverErrors := 0
      broken := fun _ => false
      undefined := false }

end ServerConnection

open ServerConnection

inductive StreamState where
  | linked
  | linkError
deriving DecidableEq

structure ConnectedStreams (n : Nat) where
  connection : ServerConnection n
  streams : Fin n → Option StreamState

/-- As for the connection alone, but each stream can report an error, subscribed to or not. -/
inductive StreamEvent (n : Nat) where
  | built (ok : Bool)
  | selectTask
  | linkError (channel : Fin n)
  | read
  | restream
  | errorTask
deriving DecidableEq

namespace ConnectedStreams

variable {n : Nat}

def start (n : Nat) : ConnectedStreams n := ⟨.start n, fun _ => none⟩

variable (s : ConnectedStreams n)

/-- `BuildTransport` ends: a new stream takes the place of the channel's old one. -/
def onBuilt (ok : Bool) : ConnectedStreams n :=
  ⟨s.connection.step (.built ok), match s.connection.selection, ok with
    | .building c, true => update s.streams c (some .linked)
    | _, _ => s.streams⟩

/-- The connection hears of the error through the subscription to the stream of its top
channel. -/
def onLinkError (c : Fin n) : ConnectedStreams n :=
  ⟨if s.connection.topChannel = some c then s.connection.step .linkError else s.connection,
    if (s.streams c).isSome then update s.streams c (some .linkError) else s.streams⟩

def step : StreamEvent n → ConnectedStreams n
  | .built ok => s.onBuilt ok
  | .selectTask => { s with connection := s.connection.step .selectTask }
  | .linkError c => s.onLinkError c
  | .read => { s with connection := s.connection.step .read }
  | .restream => { s with connection := s.connection.step .restream }
  | .errorTask => { s with connection := s.connection.step .errorTask }

end ConnectedStreams

section

variable {n : Nat}

def Settled (s : ServerConnection n) : Prop :=
  s.deferred = false ∧ ∀ c ok, s.selection ≠ .reporting c ok

/-- The channel of a selection in progress is the first that is not marked; once the tasks have
run, the marked channels are those whose build or link failed, and the connection is linked, or
selects a channel, or has reported a server error. -/
structure FailsOver (s : ConnectedStreams n) : Prop where
  defined : s.connection.undefined = false
  first : ∀ c, s.connection.selection = .building c → s.connection.failed c = false ∧
    ∀ j : Fin n, j.val < c.val → s.connection.failed j = true
  marks : Settled s.connection → ∀ c, s.connection.failed c = true ↔
    s.connection.broken c = true ∨ s.streams c = some .linkError
  alive : Settled s.connection → s.connection.linkState = .linked ∨
    (∃ c, s.connection.selection = .building c) ∨
    s.connection.linkState = .linkError ∧ 0 < s.connection.serverErrors

/-- What the selection's task reports is a channel that was built and whose stream has not failed
since, and `Restream` is called only after the first link. -/
def Builds (s : ConnectedStreams n) : StreamEvent n → Prop
  | .selectTask => ∀ c ok, s.connection.selection = .reporting c ok →
    ok = true ∧ s.streams c ≠ some .linkError
  | .restream => s.connection.topChannel ≠ none
  | _ => True

end

section

variable {n : Nat} {s : ServerConnection n}

def First (s : ServerConnection n) (c : Fin n) : Prop :=
  s.failed c = false ∧ ∀ j : Fin n, j.val < c.val → s.failed j = true

/-- What the handlers rely on. A failed build is known before its task would mark it. -/
structure Core (s : ServerConnection n) : Prop where
  defined : s.undefined = false
  marks : ∀ c, s.broken c = true ↔ s.failed c = true ∨ s.selection = .reporting c false
  building : ∀ c, s.selection = .building c → First s c
  reporting : ∀ c ok, s.selection = .reporting c ok → First s c
  selecting : s.selection ≠ .idle →
    s.subscribed = false ∧ s.deferred = false ∧ s.fullConnected = false
  current : s.subscribed = true → s.topChannel ≠ none
  stale : s.subscribed = false → ∀ c, s.topChannel = some c → s.failed c = true
  exhausted : s.deferred = true → ∀ c, s.failed c = true

structure Sound (s : ServerConnection n) : Prop extends Core s where
  alive : s.linkState = .linked ∨ s.deferred = true ∨ s.selection ≠ .idle ∨
    s.linkState = .linkError ∧ 0 < s.serverErrors

variable {c : Fin n}

theorem firstChannel_some (hf : s.firstChannel = some c) : First s c := by
  obtain ⟨hfr, hb⟩ := Fin.find?_eq_some_iff.mp hf
  refine ⟨by simpa using hfr, fun j he => ?_⟩
  simpa using hb j (Fin.lt_def.mpr he)

theorem firstChannel_none (none : s.firstChannel = none) (c : Fin n) : s.failed c = true := by
  simpa using Fin.find?_eq_none_iff.mp none c

theorem Core.serverError (hc : Core s) (hm : ∀ c, s.topChannel = some c → s.failed c = true) :
    Sound s.serverError where
  defined := hc.defined
  marks := hc.marks
  building := hc.building
  reporting := hc.reporting
  selecting := fun selecting => ⟨rfl, (hc.selecting selecting).2⟩
  current := nofun
  stale := fun _ => hm
  exhausted := hc.exhausted
  alive := .inr (.inr (.inr ⟨rfl, Nat.succ_pos _⟩))

theorem Core.selectChannel (hc : Core s) (hu : s.subscribed = false)
    (hp : s.fullConnected = false) : Sound s.selectChannel := by
  rw [ServerConnection.selectChannel]
  split
  · next hi =>
    have hun : ∀ c, s.broken c = true ↔ s.failed c = true := by
      intro c
      rw [hc.marks c, hi]
      exact or_iff_left (by simp)
    split
    · next hn =>
      have hd : Core s.deferServerError :=
        { hc with
          selecting := fun selecting => absurd hi selecting
          exhausted := fun _ => firstChannel_none hn }
      exact { hd with alive := .inr (.inl rfl) }
    · next c found =>
      have h1 : First s c := firstChannel_some found
      have hs : s.deferred = false := by
        refine eq_false_of_ne_true fun hd => ?_
        exact absurd (hc.exhausted hd c) (ne_true_of_eq_false h1.1)
      exact
        { defined := hc.defined
          marks := fun d => (hun d).trans (or_iff_left (by simp)).symm
          building := by
            intro d he
            cases he
            exact h1
          reporting := nofun
          selecting := fun _ => ⟨hu, hs, hp⟩
          current := hc.current
          stale := hc.stale
          exhausted := hc.exhausted
          alive := .inr (.inr (.inl (by simp))) }
  · next selecting => exact { hc with alive := .inr (.inr (.inl selecting)) }

theorem markTop_frame : s.markTop.selection = s.selection ∧ s.markTop.deferred = s.deferred ∧
    s.markTop.broken = s.broken ∧ s.markTop.fullConnected = s.fullConnected := by
  rw [markTop]
  split <;> exact ⟨rfl, rfl, rfl, rfl⟩

theorem breakCurrent_markTop (ht : s.topChannel = some c) :
    s.breakCurrent.markTop =
      { s with
        subscribed := false
        isWritable := false
        failed := update s.failed c true
        broken := if s.subscribed then update s.broken c true else s.broken } := by
  rw [breakCurrent, ht]
  dsimp only
  split
  · rw [markTop]
  · rw [markTop]
    simp only [ht]

theorem update_true_mono {f : Fin n → Bool} {c j : Fin n} (hm : f j = true) :
    update f c true j = true := by
  by_cases same : j = c
  · rw [same, update_self]
  · rw [update_of_ne same]
    exact hm

theorem Core.first_markTop (hc : Core s) {c d : Fin n} (ht : s.topChannel = some c)
    (hs : s.selection ≠ .idle) (h1 : First s d) : First s.breakCurrent.markTop d := by
  have hst := hc.stale (hc.selecting hs).1 c ht
  have hn : d ≠ c := by
    rintro rfl
    exact absurd hst (ne_true_of_eq_false h1.1)
  rw [breakCurrent_markTop ht]
  refine ⟨?_, fun j he => update_true_mono (h1.2 j he)⟩
  exact (update_of_ne hn ..).trans h1.1

theorem Core.marks_markTop (hc : Core s) (ht : s.topChannel = some c) (d : Fin n) :
    s.breakCurrent.markTop.broken d = true ↔
      s.breakCurrent.markTop.failed d = true ∨ s.selection = .reporting d false := by
  rw [breakCurrent_markTop ht]
  dsimp only
  by_cases same : d = c
  · rw [same, update_self]
    refine iff_of_true ?_ (.inl rfl)
    split
    · exact update_self ..
    · next hu =>
      have hs := hc.stale (eq_false_of_ne_true hu) c ht
      exact (hc.marks c).mpr (.inl hs)
  · rw [update_of_ne same, ← hc.marks d]
    split
    · rw [update_of_ne same]
    · exact .rfl

theorem Core.markTop (hc : Core s) (ht : s.topChannel = some c) : Core s.breakCurrent.markTop := by
  have hs : s.breakCurrent.markTop.selection = s.selection := by
    rw [breakCurrent_markTop ht]
  refine ⟨?_, ?_, ?_, ?_, ?_, ?_, ?_, ?_⟩
  · rw [breakCurrent_markTop ht]
    exact hc.defined
  · rw [hs]
    exact hc.marks_markTop ht
  · intro d hb
    rw [hs] at hb
    exact hc.first_markTop ht (by simp [hb]) (hc.building d hb)
  · intro d ok hr
    rw [hs] at hr
    exact hc.first_markTop ht (by simp [hr]) (hc.reporting d ok hr)
  · intro hsl
    rw [hs] at hsl
    rw [breakCurrent_markTop ht]
    exact ⟨rfl, (hc.selecting hsl).2⟩
  · rw [breakCurrent_markTop ht]
    exact nofun
  · rw [breakCurrent_markTop ht]
    intro _ d he
    cases ht.symm.trans he
    exact update_self ..
  · rw [breakCurrent_markTop ht]
    exact fun hd d => update_true_mono (hc.exhausted hd d)

theorem Core.channelError (hc : Core s) (hl : s.topChannel ≠ none) :
    Sound s.breakCurrent.channelError := by
  obtain ⟨c, ht⟩ := Option.ne_none_iff_exists'.mp hl
  have hm := hc.markTop ht
  have hu : s.breakCurrent.markTop.subscribed = false := by
    rw [breakCurrent_markTop ht]
  obtain ⟨-, -, -, hf⟩ := markTop_frame (s := s.breakCurrent)
  rw [ServerConnection.channelError]
  split
  · exact hm.serverError (hm.stale hu)
  · next hp =>
    exact hm.selectChannel hu (hf.trans (eq_false_of_ne_true hp))

theorem Sound.onBuilt (hs : Sound s) (ok : Bool) : Sound (s.onBuilt ok) := by
  rw [ServerConnection.onBuilt]
  split
  · next c building =>
    have hu : ∀ d, s.broken d = true ↔ s.failed d = true := by
      intro d
      rw [hs.marks d, building]
      exact or_iff_left (by simp)
    exact
      { defined := hs.defined
        marks := by
          intro d
          cases ok with
          | true => exact (hu d).trans (or_iff_left (by simp)).symm
          | false =>
            -- The failed build is known from here on and waits for its task.
            by_cases he : d = c
            · rw [he]
              exact iff_of_true (update_self ..) (.inr rfl)
            · have hn : update s.broken c true d = s.broken d :=
                update_of_ne he ..
              have hel : Selection.reporting c false ≠ .reporting d false := by
                rintro ⟨⟩
                exact he rfl
              exact (iff_of_eq (congrArg (· = true) hn)).trans
                ((hu d).trans (or_iff_left hel).symm)
        building := nofun
        reporting := by
          intro d _ he
          cases he
          exact hs.building c building
        selecting := fun _ => hs.selecting (by simp [building])
        current := hs.current
        stale := hs.stale
        exhausted := hs.exhausted
        alive := .inr (.inr (.inl (by simp))) }
  · exact hs

theorem Sound.channelUpdated (hs : Sound s) (reporting : s.selection = .reporting c true) :
    Sound (s.channelUpdated c).finish where
  defined := hs.defined
  marks := by
    intro d
    have hk := hs.marks d
    rw [reporting] at hk
    exact hk.trans (or_congr_right (iff_of_false (by simp) (by simp [finish])))
  building := nofun
  reporting := nofun
  selecting := fun selecting => absurd rfl selecting
  current := nofun
  stale := nofun
  exhausted := hs.exhausted
  alive := .inl rfl

theorem Sound.errorTask (hs : Sound s) (deferred : s.deferred = true) :
    Sound { s with deferred := false }.serverError := by
  have hi : s.selection = .idle := by
    by_contra selecting
    exact absurd deferred (ne_true_of_eq_false (hs.selecting selecting).2.1)
  have hc : Core { s with deferred := false } :=
    { hs.toCore with
      selecting := fun selecting => absurd hi selecting
      exhausted := nofun }
  exact hc.serverError fun c _ => hs.exhausted deferred c

theorem Sound.read (hs : Sound s) : Sound (s.step .read) := by
  rw [step]
  split
  · next subscribed =>
    have idle : s.selection = .idle := by
      by_contra selecting
      exact absurd subscribed (ne_true_of_eq_false (hs.selecting selecting).1)
    exact { hs with selecting := fun selecting => absurd idle selecting }
  · exact hs

theorem channelError_failed (top : s.topChannel = some c) :
    s.breakCurrent.channelError.failed = update s.failed c true := by
  have marked : s.breakCurrent.markTop.failed = update s.failed c true := by
    rw [breakCurrent_markTop top]
  rw [← marked, channelError, selectChannel]
  split
  · rfl
  · split
    · split <;> rfl
    · rfl

theorem channelError_selection (selecting : s.selection ≠ .idle) :
    s.channelError.selection = s.selection := by
  obtain ⟨same, -, -, -⟩ := markTop_frame (s := s)
  rw [channelError]
  split
  · exact same
  · rw [selectChannel, if_neg (by rw [same]; exact selecting)]
    exact same

theorem breakCurrent_selection : s.breakCurrent.selection = s.selection := by
  rw [breakCurrent]
  split
  · split <;> rfl
  · rfl

/-- A reported failure of a build stays unmarked: the mark goes to the channel linked before. -/
theorem Sound.failed_build (hs : Sound s) (reporting : s.selection = .reporting c false) :
    Settled (s.step .selectTask) ∧ (s.step .selectTask).failed c = false ∧
      (s.step .selectTask).broken c = true := by
  have selecting : s.selection ≠ .idle := by simp [reporting]
  obtain ⟨unsubscribed, idle, partially⟩ := hs.selecting selecting
  obtain ⟨selection, deferred, broken, -⟩ := markTop_frame (s := s)
  have unmarked := (hs.reporting c false reporting).1
  have same : s.step .selectTask = s.markTop.finish := by
    have error : s.channelError = s.markTop := by
      rw [channelError, if_neg (ne_true_of_eq_false partially), selectChannel,
        if_neg (by rw [selection]; exact selecting)]
    rw [step, onSelectTask, reporting, ← error]
  rw [same]
  refine ⟨⟨deferred.trans idle, nofun⟩, ?_, ?_⟩
  · change s.markTop.failed c = false
    rw [markTop]
    split
    · next d top =>
      have other : c ≠ d := by
        rintro rfl
        exact absurd (hs.stale unsubscribed c top) (ne_true_of_eq_false unmarked)
      exact (update_of_ne other ..).trans unmarked
    · exact unmarked
  · exact (congrFun broken c).trans ((hs.marks c).mpr (.inr reporting))

theorem undefined_restream (unset : s.topChannel = none) : (s.step .restream).undefined = true := by
  have read : s.breakCurrent.markTop.undefined = true := by
    rw [breakCurrent, unset]
    dsimp only
    rw [markTop, unset]
  rw [step, channelError, selectChannel]
  split
  · exact read
  · split
    · split <;> exact read
    · exact read

theorem Sound.start (n : Nat) : Sound (.start n : ServerConnection n) :=
  Core.selectChannel
    { defined := rfl
      marks := fun c => by simp
      building := nofun
      reporting := nofun
      selecting := fun selecting => absurd rfl selecting
      current := nofun
      stale := nofun
      exhausted := nofun } rfl rfl

end

section

variable {n : Nat} {s : ConnectedStreams n}

/-- Where the streams are heard: one that was built is marked, or about to be reported, or the
subscribed one, and one that failed is no longer the subscribed one. -/
structure Heard (s : ConnectedStreams n) : Prop where
  sound : Sound s.connection
  built : ∀ c, s.streams c ≠ none → s.connection.failed c = true ∨
    s.connection.selection = .reporting c true ∨
    s.connection.topChannel = some c ∧ s.connection.subscribed = true
  errors : ∀ c, s.streams c = some .linkError → s.connection.failed c = true ∨
    s.connection.selection = .reporting c true

theorem Heard.failsOver (h : Heard s) : FailsOver s where
  defined := h.sound.defined
  first := h.sound.building
  marks := by
    intro settled c
    have marks := h.sound.marks c
    rw [or_iff_left (settled.2 c false)] at marks
    rw [marks]
    refine (or_iff_left_of_imp fun error => ?_).symm
    exact (h.errors c error).resolve_right (settled.2 c true)
  alive := by
    intro settled
    rcases h.sound.alive with linked | deferred | selecting | error
    · exact .inl linked
    · exact absurd deferred (ne_true_of_eq_false settled.1)
    · cases selection : s.connection.selection with
      | idle => exact absurd selection selecting
      | building c => exact .inr (.inl ⟨c, rfl⟩)
      | reporting c ok => exact absurd selection (settled.2 c ok)
    · exact .inr (.inr error)

theorem Heard.marked_of_building (h : Heard s) {c : Fin n}
    (building : s.connection.selection = .building c) {d : Fin n} (built : s.streams d ≠ none) :
    s.connection.failed d = true := by
  have unsubscribed := (h.sound.selecting (by simp [building])).1
  rcases h.built d built with marked | reporting | ⟨-, subscribed⟩
  · exact marked
  · cases building.symm.trans reporting
  · exact absurd subscribed (ne_true_of_eq_false unsubscribed)

theorem Heard.onBuilt (h : Heard s) (ok : Bool) : Heard (s.onBuilt ok) := by
  have sound : Sound (s.connection.step (.built ok)) := h.sound.onBuilt ok
  cases selection : s.connection.selection with
  | building c =>
    have marked : ∀ d, s.streams d ≠ none → s.connection.failed d = true :=
      fun d => h.marked_of_building selection
    cases ok with
    | false =>
      have same : s.onBuilt false = ⟨s.connection.step (.built false), s.streams⟩ := by
        simp [ConnectedStreams.onBuilt, selection]
      have failed : (s.connection.step (.built false)).failed = s.connection.failed := by
        rw [ServerConnection.step, ServerConnection.onBuilt, selection]
      rw [same]
      refine ⟨sound, fun d built => .inl ?_, fun d error => .inl ?_⟩
      · exact (congrFun failed d).trans (marked d built)
      · exact (congrFun failed d).trans (marked d (by simp [show s.streams d = _ from error]))
    | true =>
      have same : s.onBuilt true = ⟨s.connection.step (.built true),
          update s.streams c (some .linked)⟩ := by
        simp [ConnectedStreams.onBuilt, selection]
      have reported : (s.connection.step (.built true)).selection = .reporting c true ∧
          (s.connection.step (.built true)).failed = s.connection.failed := by
        rw [ServerConnection.step, ServerConnection.onBuilt, selection]
        exact ⟨rfl, rfl⟩
      rw [same]
      refine ⟨sound, fun d built => ?_, fun d error => ?_⟩
      · by_cases new : d = c
        · exact .inr (.inl (new ▸ reported.1))
        · simp only [update_of_ne new] at built
          exact .inl ((congrFun reported.2 d).trans (marked d built))
      · have old : d ≠ c := by
          rintro rfl
          simp at error
        simp only [update_of_ne old] at error
        exact .inl ((congrFun reported.2 d).trans (marked d (by simp [error])))
  | idle | reporting d reported =>
    have same : s.onBuilt ok = s := by
      simp [ConnectedStreams.onBuilt, ServerConnection.step, ServerConnection.onBuilt, selection]
    rw [same]
    exact h

theorem Heard.selectTask (h : Heard s) (live : Builds s .selectTask) :
    Heard (s.step .selectTask) := by
  rw [ConnectedStreams.step, step, onSelectTask]
  split
  · next c reporting =>
    have unsubscribed := (h.sound.selecting (by simp [reporting])).1
    have other : ∀ d, d ≠ c → s.connection.selection ≠ .reporting d true := by
      rintro d old eq
      cases reporting.symm.trans eq
      exact old rfl
    refine ⟨h.sound.channelUpdated reporting, fun d built => ?_, fun d error => .inl ?_⟩
    · by_cases new : d = c
      · exact .inr (.inr ⟨new ▸ rfl, rfl⟩)
      · rcases h.built d built with marked | eq | ⟨-, subscribed⟩
        · exact .inl marked
        · exact absurd eq (other d new)
        · exact absurd subscribed (ne_true_of_eq_false unsubscribed)
    · have old : d ≠ c := by
        rintro rfl
        exact (live d true reporting).2 error
      exact (h.errors d error).resolve_right (other d old)
  · next c reporting => cases (live c false reporting).1
  · exact h

/-- After an error of the current channel every stream that was built is marked or reported. -/
theorem Heard.channelError (h : Heard s) (linked : s.connection.topChannel ≠ none) (d : Fin n)
    (built : s.streams d ≠ none) : s.connection.breakCurrent.channelError.failed d = true ∨
      s.connection.breakCurrent.channelError.selection = .reporting d true := by
  obtain ⟨c, top⟩ := Option.ne_none_iff_exists'.mp linked
  rw [channelError_failed top]
  rcases h.built d built with marked | reporting | ⟨same, -⟩
  · exact .inl (update_true_mono marked)
  · have selection := breakCurrent_selection (s := s.connection)
    refine .inr ((channelError_selection ?_).trans (selection.trans reporting))
    simp [selection, reporting]
  · cases top.symm.trans same
    exact .inl (update_self ..)

theorem Heard.restream (h : Heard s) (linked : s.connection.topChannel ≠ none) :
    Heard (s.step .restream) where
  sound := h.sound.toCore.channelError linked
  built d built := (h.channelError linked d built).imp_right .inl
  errors d error := h.channelError linked d (by simp [show s.streams d = _ from error])

theorem Heard.onLinkError (h : Heard s) (c : Fin n) : Heard (s.onLinkError c) := by
  have built : ∀ d, (s.onLinkError c).streams d ≠ none → s.streams d ≠ none := by
    intro d
    rw [ConnectedStreams.onLinkError]
    dsimp only
    split
    · next some =>
      by_cases same : d = c
      · exact fun _ => same ▸ Option.isSome_iff_ne_none.mp some
      · rw [update_of_ne same]
        exact id
    · exact id
  have old : ∀ d, d ≠ c → (s.onLinkError c).streams d = s.streams d := by
    intro d other
    rw [ConnectedStreams.onLinkError]
    dsimp only
    split
    · exact update_of_ne other ..
    · rfl
  by_cases heard : s.connection.topChannel = some c ∧ s.connection.subscribed = true
  · have linked : s.connection.topChannel ≠ none := by simp [heard.1]
    have same : (s.onLinkError c).connection = s.connection.breakCurrent.channelError := by
      simp [ConnectedStreams.onLinkError, heard, step]
    refine ⟨?_, fun d some => ?_, fun d error => ?_⟩
    · rw [same]
      exact h.sound.toCore.channelError linked
    · rw [same]
      exact (h.channelError linked d (built d some)).imp_right .inl
    · rw [same]
      exact h.channelError linked d (built d (by simp [error]))
  · have same : (s.onLinkError c).connection = s.connection := by
      rw [ConnectedStreams.onLinkError]
      dsimp only
      split
      · next top => rw [step, if_neg fun subscribed => heard ⟨top, subscribed⟩]
      · rfl
    refine ⟨?_, fun d some => ?_, fun d error => ?_⟩
    · rw [same]
      exact h.sound
    · rw [same]
      exact h.built d (built d some)
    · rw [same]
      by_cases failed : d = c
      · subst failed
        rcases h.built d (built d (by simp [error])) with marked | reporting | top
        · exact .inl marked
        · exact .inr reporting
        · exact absurd top heard
      · exact h.errors d (old d failed ▸ error)

theorem Heard.step (h : Heard s) {e : StreamEvent n} (builds : Builds s e) : Heard (s.step e) := by
  cases e with
  | built ok => exact h.onBuilt ok
  | selectTask => exact h.selectTask builds
  | linkError c => exact h.onLinkError c
  | read =>
    have sound : Sound (s.connection.step .read) := h.sound.read
    rw [ConnectedStreams.step, ServerConnection.step]
    rw [ServerConnection.step] at sound
    split at sound
    · next subscribed =>
      rw [if_pos subscribed]
      exact ⟨sound, h.built, h.errors⟩
    · next unsubscribed =>
      rw [if_neg unsubscribed]
      exact h
  | restream => exact h.restream builds
  | errorTask =>
    rw [ConnectedStreams.step, ServerConnection.step]
    split
    · next deferred =>
      exact ⟨h.sound.errorTask deferred, fun d _ => .inl (h.sound.exhausted deferred d), h.errors⟩
    · exact h

theorem Heard.failsOver_step_iff (h : Heard s) (e : StreamEvent n) :
    FailsOver (s.step e) ↔ Builds s e := by
  refine ⟨fun after => ?_, fun builds => (h.step builds).failsOver⟩
  cases e with
  | selectTask =>
    intro c ok reporting
    cases ok with
    | false =>
      obtain ⟨settled, unmarked, broken⟩ := h.sound.failed_build reporting
      exact absurd ((after.marks settled c).mpr (.inl broken)) (ne_true_of_eq_false unmarked)
    | true =>
      refine ⟨rfl, fun error => ?_⟩
      have updated : s.connection.step .selectTask = (s.connection.channelUpdated c).finish := by
        rw [ServerConnection.step, onSelectTask, reporting]
      have settled : Settled (s.connection.step .selectTask) := by
        rw [updated]
        exact ⟨(h.sound.selecting (by simp [reporting])).2.1, nofun⟩
      have marked := (after.marks settled c).mpr (.inr error)
      have unmarked := (h.sound.reporting c true reporting).1
      rw [ConnectedStreams.step, updated] at marked
      exact absurd marked (ne_true_of_eq_false unmarked)
  | restream =>
    intro unset
    exact absurd (undefined_restream unset) (ne_true_of_eq_false after.defined)
  | built ok | linkError c | read | errorTask => trivial

end

/-- A connection fails over in every state of a run exactly when no build fails in it, no stream
fails before it is reported, and `Restream` is not called before the first link. -/
theorem fails_over_iff_builds (n : Nat) (events : List (StreamEvent n)) :
    Always ConnectedStreams.step FailsOver (.start n) events ↔
      Along ConnectedStreams.step Builds (.start n) events := by
  have heard : Heard (ConnectedStreams.start n) :=
    ⟨Sound.start n, fun _ built => absurd rfl built, nofun⟩
  rw [always_iff_after, and_iff_right heard.failsOver]
  exact along_iff_of_invariant (I := Heard) (fun s e h builds => h.step builds)
    (fun s e h => h.failsOver_step_iff e) heard

def firstOfTwo : Fin 2 := ⟨0, Nat.two_pos⟩

def secondBuildFails : List (StreamEvent 2) :=
  [.built true, .selectTask, .linkError firstOfTwo, .built false, .selectTask]

/-- The connection is unlinked with nothing pending, the second channel is not marked, and no
server error was emitted. A stream that fails before its channel is reported is not marked. -/
theorem failed_build_leaves_unlinked :
    let s := run ConnectedStreams.step (.start 2) secondBuildFails
    s.connection.linkState = .unlinked ∧ s.connection.selection = .idle ∧
      s.connection.deferred = false ∧ s.connection.serverErrors = 0 ∧
      s.connection.failed 1 = false ∧ s.connection.broken 1 = true ∧
      ¬ Always ConnectedStreams.step FailsOver (.start 2) secondBuildFails ∧
      ¬ Always ConnectedStreams.step FailsOver (.start 2)
        [.built true, .linkError firstOfTwo, .selectTask] := by
  refine ⟨by decide, by decide, by decide, by decide, by decide, by decide, ?_, ?_⟩
  · rintro ⟨-, -, -, -, -, after⟩
    exact absurd ((after.marks ⟨rfl, nofun⟩ 1).mpr (.inl (by decide))) (by decide)
  · rintro ⟨-, -, -, after⟩
    exact absurd ((after.marks ⟨rfl, nofun⟩ 0).mpr (.inr rfl)) (by decide)

end Ae.ServerConnections.Failover
