/- source: server_connections/{server_connection,channel_connection}.cpp
   digest: A link error between the build and the task of the selection is not noticed. -/

import Ae.ServerConnections.Failover

set_option autoImplicit false

namespace Ae.ServerConnections.Writability
open Function Lib.EventRun Failover ServerConnection

section

variable {n : Nat}

/-- A writable connection is linked through the stream of its top channel, which exists and has
reported no error, and no pointer was read before it had a value. -/
def Connected (s : ConnectedStreams n) : Prop :=
  s.connection.isWritable = true → s.connection.undefined = false ∧
    s.connection.linkState = .linked ∧
    ∃ c, s.connection.topChannel = some c ∧ s.streams c = some .linked

/-- A selected channel is reported while its stream is still linked, and no pointer was read
before it had a value. -/
def SelectsLive (s : ConnectedStreams n) : StreamEvent n → Prop
  | .selectTask => ∀ c, s.connection.selection = .reporting c true →
    s.connection.undefined = false ∧ s.streams c ≠ some .linkError
  | _ => True

end

section

variable {n : Nat} {s : ServerConnection n}

structure Flags (s : ServerConnection n) : Prop where
  writable : s.isWritable = true → s.subscribed = true ∧ s.linkState = .linked ∧ s.topChannel ≠ none
  idle : s.subscribed = true → s.selection = .idle

theorem markTop_closed : s.markTop.isWritable = false ∧ s.markTop.subscribed = false := by
  rw [markTop]
  split <;> exact ⟨rfl, rfl⟩

theorem selectChannel_closed (hun : s.isWritable = false) (hu : s.subscribed = false) :
    s.selectChannel.isWritable = false ∧ s.selectChannel.subscribed = false := by
  rw [selectChannel]
  split
  · split
    · exact ⟨rfl, hu⟩
    · exact ⟨rfl, hu⟩
  · exact ⟨hun, hu⟩

variable (s) in
theorem channelError_closed :
    s.channelError.isWritable = false ∧ s.channelError.subscribed = false := by
  rw [channelError]
  split
  · exact ⟨rfl, rfl⟩
  · exact selectChannel_closed markTop_closed.1 markTop_closed.2

theorem flags_of_closed (hc : s.isWritable = false ∧ s.subscribed = false) : Flags s where
  writable := fun ho => absurd (hc.1.symm.trans ho) Bool.false_ne_true
  idle := fun hs => absurd (hc.2.symm.trans hs) Bool.false_ne_true

theorem Flags.onBuilt (hf : Flags s) (ok : Bool) : Flags (s.onBuilt ok) := by
  rw [ServerConnection.onBuilt]
  split
  · next c hb =>
    have hu : s.subscribed = false := by
      refine eq_false_of_ne_true fun hs => ?_
      cases (hf.idle hs).symm.trans hb
    refine ⟨hf.writable, fun hs => ?_⟩
    exact absurd (hu.symm.trans hs) Bool.false_ne_true
  · exact hf

theorem Flags.step (hf : Flags s) (e : Event) : Flags (s.step e) := by
  cases e with
  | built ok => exact hf.onBuilt ok
  | selectTask =>
    rw [ServerConnection.step, ServerConnection.onSelectTask]
    split
    · exact ⟨fun _ => ⟨rfl, rfl, Option.some_ne_none _⟩, fun _ => rfl⟩
    · exact flags_of_closed (channelError_closed s)
    · exact hf
  | linkError =>
    rw [ServerConnection.step]
    split
    · exact flags_of_closed (channelError_closed _)
    · exact hf
  | read =>
    rw [ServerConnection.step]
    split
    · exact ⟨hf.writable, hf.idle⟩
    · exact hf
  | restream => exact flags_of_closed (channelError_closed _)
  | errorTask =>
    rw [ServerConnection.step]
    split
    · exact flags_of_closed ⟨rfl, rfl⟩
    · exact hf

theorem start_closed (n : Nat) : (start n).isWritable = false ∧ (start n).subscribed = false :=
  selectChannel_closed rfl rfl

theorem selectChannel_reporting {c : Fin n} {ok : Bool}
    (hr : s.selectChannel.selection = .reporting c ok) : s.selection = .reporting c ok := by
  rw [selectChannel] at hr
  split at hr
  · split at hr
    · exact hr
    · cases hr
  · exact hr

theorem channelError_reporting {c : Fin n} {ok : Bool}
    (hr : s.channelError.selection = .reporting c ok) : s.selection = .reporting c ok := by
  obtain ⟨hs, -, -, -⟩ := markTop_frame (s := s)
  rw [channelError] at hr
  split at hr
  · exact hs ▸ hr
  · exact hs ▸ selectChannel_reporting hr

theorem step_reporting {e : Event} {c : Fin n} (hk : ∀ ok, e ≠ .built ok) {ok : Bool}
    (hr : (s.step e).selection = .reporting c ok) : s.selection = .reporting c ok := by
  cases e with
  | built ok => exact absurd rfl (hk ok)
  | selectTask =>
    rw [step, onSelectTask] at hr
    split at hr
    · cases hr
    · cases hr
    · exact hr
  | linkError =>
    rw [step] at hr
    split at hr
    · exact breakCurrent_selection ▸ channelError_reporting hr
    · exact hr
  | read =>
    rw [step] at hr
    split at hr <;> exact hr
  | restream => exact breakCurrent_selection ▸ channelError_reporting hr
  | errorTask =>
    rw [step] at hr
    split at hr <;> exact hr

end

section

variable {n : Nat} {s : ConnectedStreams n}

structure Wired (s : ConnectedStreams n) : Prop where
  flags : Flags s.connection
  built : ∀ c, s.connection.selection = .reporting c true → s.streams c ≠ none

theorem Wired.onBuilt (hw : Wired s) (ok : Bool) : Wired (s.onBuilt ok) := by
  refine ⟨hw.flags.step (.built ok), fun c reporting => ?_⟩
  have ha : (s.connection.onBuilt ok).selection = .reporting c true := reporting
  unfold ServerConnection.onBuilt at ha
  unfold ConnectedStreams.onBuilt
  cases selection : s.connection.selection with
  | building d =>
    rw [selection] at ha
    cases ha
    simp
  | idle =>
    rw [selection] at ha
    cases selection.symm.trans ha
  | reporting d t =>
    rw [selection] at ha
    exact hw.built c ha

theorem onLinkError_streams (c d : Fin n) (he : s.streams d ≠ none) :
    (s.onLinkError c).streams d ≠ none := by
  rw [ConnectedStreams.onLinkError]
  dsimp only
  split
  · by_cases same : d = c
    · rw [same, update_self]
      exact Option.some_ne_none _
    · rw [update_of_ne same]
      exact he
  · exact he

theorem Wired.connection_step (hw : Wired s) {e : Event} (hk : ∀ ok, e ≠ .built ok) :
    Wired { s with connection := s.connection.step e } :=
  ⟨hw.flags.step e, fun c hr => hw.built c (step_reporting hk hr)⟩

theorem Wired.onLinkError (hw : Wired s) (c : Fin n) : Wired (s.onLinkError c) := by
  have connection : Wired { s with connection := (s.onLinkError c).connection } := by
    rw [ConnectedStreams.onLinkError]
    dsimp only
    split
    · exact hw.connection_step (by simp)
    · exact hw
  exact ⟨connection.flags, fun d hr =>
    onLinkError_streams c d (connection.built d hr)⟩

theorem Wired.step (hw : Wired s) (e : StreamEvent n) : Wired (s.step e) := by
  cases e with
  | built ok => exact hw.onBuilt ok
  | linkError c => exact hw.onLinkError c
  | selectTask | read | restream | errorTask => exact hw.connection_step (by simp)

theorem connected_of_closed (hc : s.connection.isWritable = false) : Connected s :=
  fun hw => absurd (hc.symm.trans hw) Bool.false_ne_true

theorem selectTask_idle (hc : Connected s) (hs : ∀ c ok, s.connection.selection ≠ .reporting c ok) :
    Connected (s.step .selectTask) ↔ SelectsLive s .selectTask := by
  have he : s.connection.step .selectTask = s.connection := by
    rw [step, onSelectTask]
    split
    · next hr => exact absurd hr (hs _ _)
    · next hr => exact absurd hr (hs _ _)
    · rfl
  rw [ConnectedStreams.step, he]
  exact iff_of_true hc fun c hr => absurd hr (hs c true)

theorem Wired.selectTask_iff (hw : Wired s) (hc : Connected s) :
    Connected (s.step .selectTask) ↔ SelectsLive s .selectTask := by
  cases hs : s.connection.selection with
  | reporting c ok =>
    cases ok with
    | true =>
      have ho : s.connection.step .selectTask = (s.connection.channelUpdated c).finish := by
        rw [ServerConnection.step, ServerConnection.onSelectTask, hs]
      rw [ConnectedStreams.step, ho]
      constructor
      · intro ha d reporting
        obtain ⟨hd, -, top, he, hl⟩ := ha rfl
        obtain rfl : c = top := Option.some.inj he
        cases hs.symm.trans reporting
        exact ⟨hd, fun hb => by cases hl.symm.trans hb⟩
      · intro hl _
        obtain ⟨hd, hu⟩ := hl c hs
        refine ⟨hd, rfl, c, rfl, ?_⟩
        cases state : s.streams c with
        | none => exact absurd state (hw.built c hs)
        | some r =>
          cases r with
          | linked => rfl
          | linkError => exact absurd state hu
    | false =>
      refine iff_of_true (connected_of_closed ?_) fun d reporting => ?_
      · have hf : s.connection.step .selectTask = s.connection.channelError.finish := by
          rw [ServerConnection.step, ServerConnection.onSelectTask, hs]
        rw [ConnectedStreams.step, hf]
        exact (channelError_closed s.connection).1
      · cases hs.symm.trans reporting
  | idle | building c => exact selectTask_idle hc (by simp [hs])

theorem Wired.onBuilt_connected (hwr : Wired s) (hc : Connected s) (ok : Bool) :
    Connected (s.onBuilt ok) := by
  cases hw : s.connection.isWritable with
  | false =>
    refine connected_of_closed ?_
    change (s.connection.onBuilt ok).isWritable = false
    unfold ServerConnection.onBuilt
    split <;> exact hw
  | true =>
    -- a writable connection selects nothing, so no stream is replaced
    have hi := hwr.flags.idle (hwr.flags.writable hw).1
    have he : s.onBuilt ok = s := by
      have hu : s.connection.step (.built ok) = s.connection := by
        rw [ServerConnection.step, ServerConnection.onBuilt, hi]
      unfold ConnectedStreams.onBuilt
      rw [hu, hi]
    rw [he]
    exact hc

theorem Wired.onLinkError_connected (hwr : Wired s) (hc : Connected s) (c : Fin n) :
    Connected (s.onLinkError c) := by
  by_cases top : s.connection.topChannel = some c
  · -- the error is heard when subscribed, and nothing is writable when not
    refine connected_of_closed ?_
    rw [ConnectedStreams.onLinkError]
    dsimp only
    rw [if_pos top, ServerConnection.step]
    split
    · exact (channelError_closed _).1
    · next hu =>
      exact Bool.eq_false_iff.mpr fun hw =>
        hu (hwr.flags.writable hw).1
  · intro hw
    rw [ConnectedStreams.onLinkError, if_neg top] at hw ⊢
    obtain ⟨hd, hln, d, ha, hl⟩ := hc hw
    refine ⟨hd, hln, d, ha, ?_⟩
    have hap : d ≠ c := fun he => top (he ▸ ha)
    dsimp only
    split
    · rw [update_of_ne hap]
      exact hl
    · exact hl

theorem Wired.connected_iff (hw : Wired s) (hc : Connected s) (e : StreamEvent n) :
    Connected (s.step e) ↔ SelectsLive s e := by
  cases e with
  | built ok => exact iff_of_true (hw.onBuilt_connected hc ok) trivial
  | selectTask => exact hw.selectTask_iff hc
  | linkError c => exact iff_of_true (hw.onLinkError_connected hc c) trivial
  | read =>
    refine iff_of_true ?_ trivial
    rw [ConnectedStreams.step, ServerConnection.step]
    split
    · exact hc
    · exact hc
  | restream =>
    exact iff_of_true (connected_of_closed (channelError_closed _).1) trivial
  | errorTask =>
    refine iff_of_true ?_ trivial
    rw [ConnectedStreams.step, ServerConnection.step]
    split
    · exact connected_of_closed rfl
    · exact hc

theorem wired_start (n : Nat) : Wired (ConnectedStreams.start n) := by
  refine ⟨flags_of_closed (start_closed n), fun c hr => ?_⟩
  cases selectChannel_reporting hr

end

/-- Whatever happens, a writable connection is linked through a live stream exactly when every
channel is reported before its stream fails and after the pointer to the top channel is set. -/
theorem writable_connected_iff_selects_live (n : Nat) (events : List (StreamEvent n)) :
    Always ConnectedStreams.step Connected (.start n) events ↔
      Along ConnectedStreams.step SelectsLive (.start n) events :=
  always_iff_along (fun _ e hc hw => hw.connected_iff hc e) (connected_of_closed (start_closed n).1)
    (along_invariant (fun _ e hw => hw.step e) (wired_start n))

def onlyChannel : Fin 1 := ⟨0, Nat.one_pos⟩

def failsBeforeTask : List (StreamEvent 1) := [.built true, .linkError onlyChannel, .selectTask]

/-- The connection is opened on the failed stream, with nothing left to select. A restart before
the first link makes `ChannelError` read a pointer that the constructor has not set. -/
theorem opened_on_failed_stream :
    (run ConnectedStreams.step (.start 1) failsBeforeTask).connection.isWritable = true ∧
      (run ConnectedStreams.step (.start 1) failsBeforeTask).connection.topChannel =
        some onlyChannel ∧
      (run ConnectedStreams.step (.start 1) failsBeforeTask).streams onlyChannel = some .linkError ∧
      ¬ Always ConnectedStreams.step Connected (.start 1) failsBeforeTask ∧
      (run ConnectedStreams.step (.start 1)
        [.restream, .built true, .selectTask]).connection.undefined = true := by
  refine ⟨by decide, by decide, by decide, fun ha => ?_, by decide⟩
  obtain ⟨-, -, c, -, hl⟩ := ha.2.2.2 rfl
  obtain rfl : c = onlyChannel := Subsingleton.elim _ _
  cases hl

end Ae.ServerConnections.Writability
