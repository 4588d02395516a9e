/- source: safe_stream/details/safe_stream_send_action.h
   digest: Which calls keep the next position to send inside the buffer and the window. -/

import Ae.SafeStream.SendAction

set_option autoImplicit false

namespace Ae.SafeStream.SendPosition
open Types.Ring Lib.EventRun Circular Message SendingChunks
open SendAction SafeStreamSendAction RingIndex CircularBuffer

variable {cap : Nat}

/-- `last_sent_` is met from the begin before or at the end, and inside the window. -/
structure Positioned (s : SafeStreamSendAction cap) : Prop where
  before_end : s.onTheGoDataSize ≤ s.sendingBuffer.size
  in_window : s.onTheGoDataSize ≤ s.config.windowSize

/-- What `GetNextChunk` relies on: the position, the subtraction and the read. -/
structure GetsNextChunk (s : SafeStreamSendAction cap) : Prop extends Positioned s where
  no_underflow : subSize s.config.windowSize s.onTheGoDataSize =
    s.config.windowSize - s.onTheGoDataSize
  in_range : ∀ n, s.sendingBuffer.read s.lastSent n ≠ .error .kIndexOutOfRange

theorem getsNextChunk_iff (s : SafeStreamSendAction cap) : GetsNextChunk s ↔ Positioned s := by
  constructor
  · intro h
    exact h.toPositioned
  · intro h
    refine ⟨h, s.subSize_window h.in_window, ?_⟩
    intro n hr
    obtain ⟨-, ho⟩ := read_error_iff.mp hr
    exact absurd h.before_end (Nat.not_le.mpr ho)

theorem reads_le {s : SafeStreamSendAction cap} {n : Nat} (hp : Positioned s) (hr : Reads s n) :
    s.onTheGoDataSize + n ≤ s.sendingBuffer.size ∧ s.onTheGoDataSize + n ≤ s.config.windowSize := by
  have he := hp.before_end
  have hw := hp.in_window
  rcases hr with ⟨-, rfl⟩ | ⟨-, hl, rfl⟩
  · exact ⟨he, hw⟩
  · have hpl := s.payloadSize_eq hw
    omega

theorem positioned_iff {s s' : SafeStreamSendAction cap} {bu : CircularBuffer cap}
    {cs : SendingChunkList cap} {ls : RingIndex cap}
    (b : Becomes s s' bu cs ls) :
    Positioned s' ↔ bu.begin_.distance ls ≤ bu.size ∧
      bu.begin_.distance ls ≤ s.config.windowSize := by
  rw [← b.onTheGo, ← b.sendingBuffer, ← b.config]
  exact ⟨fun h => ⟨h.before_end, h.in_window⟩, fun h => ⟨h.1, h.2⟩⟩

variable [NeZero cap]

def step (s : SafeStreamSendAction cap) (op : SendOp cap) : SafeStreamSendAction cap :=
  (s.runOp op).1

/-- No `Stop`, and no acknowledgement of the index one past the last accepted byte. -/
def Admitted (s : SafeStreamSendAction cap) : SendOp cap → Prop
  | .acknowledge offset =>
    s.sendingBuffer.begin_.distance (.ofNat offset.toNat) ≠ s.sendingBuffer.size
  | .stop _ => False
  | _ => True

instance (s : SafeStreamSendAction cap) : (op : SendOp cap) → Decidable (Admitted s op)
  | .acknowledge _ => inferInstanceAs (Decidable (_ ≠ _))
  | .stop _ => inferInstanceAs (Decidable False)
  | .sendData _ | .requestRepeat _ | .setMaxPayload _ | .sendTask | .repeatTimeout
  | .writeStatus _ _ => inferInstanceAs (Decidable True)

/-- The range of a firing timer, if it starts in the window, starts before the end. -/
def TimerKept (s : SafeStreamSendAction cap) : Option (RingIndexRange cap) → Prop
  | none => True
  | some range => s.sendingChunks.empty = false →
    s.sendingBuffer.begin_.distance range.left ≤ s.config.windowSize →
    s.sendingBuffer.begin_.distance range.left ≤ s.sendingBuffer.size

instance (s : SafeStreamSendAction cap) :
    (timer : Option (RingIndexRange cap)) → Decidable (TimerKept s timer)
  | none => inferInstanceAs (Decidable True)
  | some _ => inferInstanceAs (Decidable (_ → _ → _))

/-- An acknowledgement in range does not name `last_sent_` itself, a repeat request in
range stays in the window, and a timer whose chunk starts in the window finds the chunk
still before the end. -/
def KeepsPosition (s : SafeStreamSendAction cap) : SendOp cap → Prop
  | .acknowledge offset =>
    s.sendingBuffer.begin_.distance (.ofNat offset.toNat) ≤ s.sendingBuffer.size →
      .ofNat offset.toNat ≠ s.lastSent
  | .requestRepeat offset =>
    s.sendingBuffer.begin_.distance (.ofNat offset.toNat) ≤ s.sendingBuffer.size →
      s.sendingBuffer.begin_.distance (.ofNat offset.toNat) ≤ s.config.windowSize
  | .repeatTimeout => TimerKept s s.repeatTimer
  | _ => True

instance (s : SafeStreamSendAction cap) : (op : SendOp cap) → Decidable (KeepsPosition s op)
  | .acknowledge _ => inferInstanceAs (Decidable (_ → _ ≠ _))
  | .requestRepeat _ => inferInstanceAs (Decidable (_ → _))
  | .repeatTimeout => inferInstanceAs (Decidable (TimerKept s s.repeatTimer))
  | .sendData _ | .setMaxPayload _ | .sendTask | .writeStatus _ _ | .stop _ =>
    inferInstanceAs (Decidable True)

variable {s s' : SafeStreamSendAction cap}

theorem keepsPosition_of_inert {op : SendOp cap} (hi : Inert s op) :
    KeepsPosition s op := by
  cases op with
  | acknowledge o | requestRepeat o => exact fun h => absurd h (Nat.not_le.mpr hi)
  | repeatTimeout =>
    change TimerKept s s.repeatTimer
    cases timer : s.repeatTimer with
    | none => trivial
    | some r =>
      intro hh
      rw [hi r timer] at hh
      cases hh
  | sendData data | setMaxPayload n | sendTask | writeStatus k st | stop r => trivial

theorem positioned_retargeted {op : SendOp cap} {t : RingIndex cap}
    (hp : Positioned s) (hr : Retargets s t op)
    (b : Becomes s s' s.sendingBuffer s.sendingChunks t) :
    Positioned s' ↔ KeepsPosition s op := by
  rw [positioned_iff b]
  cases op with
  | requestRepeat o =>
    obtain ⟨rfl, hi⟩ := hr
    exact ⟨fun h _ => h.2, fun h => ⟨hi, h hi⟩⟩
  | repeatTimeout =>
    obtain ⟨hc, r, ht, rfl⟩ := hr
    simp only [KeepsPosition, ht, TimerKept]
    split_ifs with hb
    · simp only [distance_self]
      exact ⟨fun _ _ h => absurd h (by omega), fun _ => ⟨Nat.zero_le _, Nat.zero_le _⟩⟩
    · exact ⟨fun h _ _ => h.1, fun h => ⟨h hc (by omega), by omega⟩⟩
  | writeStatus k st =>
    obtain ⟨-, hl⟩ := hr
    have he := hp.before_end
    have hw := hp.in_window
    exact ⟨fun _ => trivial, fun _ => ⟨by omega, by omega⟩⟩
  | sendData data | acknowledge o | setMaxPayload n | sendTask | stop r =>
    exact absurd hr id

theorem positioned_acknowledged {o : UInt16} {c : RingIndex cap}
    (hp : Positioned s) (hc : c = .ofNat o.toNat)
    (hi : s.sendingBuffer.begin_.distance c < s.sendingBuffer.size)
    (b : Becomes s s' (s.sendingBuffer.erase (c.add 1))
      (forgotten s.sendingBuffer s.sendingChunks c)
      (if s.onTheGoDataSize < s.sendingBuffer.begin_.distance c then c.add 1
        else s.lastSent)) : Positioned s' ↔ KeepsPosition s (.acknowledge o) := by
  have hsz := size_lt s.sendingBuffer
  have hw := s.config.two_windows
  obtain ⟨hn, hb, hs'⟩ := erase_through hi
  have he := hp.before_end
  have hwn := hp.in_window
  rw [positioned_iff b, hs', hb]
  unfold onTheGoDataSize at he hwn ⊢
  subst hc
  rcases lt_trichotomy (s.sendingBuffer.begin_.distance s.lastSent)
    (s.sendingBuffer.begin_.distance (.ofNat o.toNat)) with hl | heq | hgt
  · -- past what is on the go: both positions become the next index
    rw [if_pos hl, distance_self]
    refine ⟨fun _ _ hs => ?_, fun _ => ⟨Nat.zero_le _, Nat.zero_le _⟩⟩
    rw [hs] at hl
    exact absurd hl (Nat.lt_irrefl _)
  · -- exactly `last_sent_`: the begin moves past it
    have hs : (ofNat o.toNat : RingIndex cap) = s.lastSent :=
      distance_inj.mp heq.symm
    rw [if_neg (by omega), distance_of_lt (a := s.sendingBuffer.begin_) (by omega)]
    exact ⟨fun h => absurd h.2 (by omega), fun h => absurd hs (h (by omega))⟩
  · rw [if_neg (by omega), distance_of_le (a := s.sendingBuffer.begin_) (by omega), hn]
    refine ⟨fun _ _ hs => ?_, fun _ => ⟨by omega, by omega⟩⟩
    rw [hs] at hgt
    exact absurd hgt (Nat.lt_irrefl _)

theorem positioned_step_iff (s : SafeStreamSendAction cap) (op : SendOp cap)
    (pos : Positioned s) (ha : Admitted s op) : Positioned (step s op) ↔ KeepsPosition s op := by
  have he := pos.before_end
  have hw := pos.in_window
  have hs := size_lt s.sendingBuffer
  unfold step
  generalize houts : (s.runOp op).2 = outs
  have ho := s.runOp_outcome op
  rw [houts] at ho
  cases ho with
  | @stored data _ b =>
    obtain ⟨hb, hg⟩ := s.sendingBuffer.push_bounds data
    rw [positioned_iff b, hb]
    exact ⟨fun _ => trivial, fun _ => ⟨le_trans he hg, hw⟩⟩
  | ignored hin b =>
    rw [positioned_iff b]
    exact ⟨fun _ => keepsPosition_of_inert hin, fun _ => ⟨he, hw⟩⟩
  | retargeted hrs b => exact positioned_retargeted pos hrs b
  | acknowledged hc hi b =>
    subst hc
    exact positioned_acknowledged pos rfl (lt_of_le_of_ne hi ha) b
  | waiting hp hfl b =>
    rw [positioned_iff b]
    exact ⟨fun _ => trivial, fun _ => ⟨he, hw⟩⟩
  | @sent _ n hp hr hn b =>
    obtain ⟨hf, hrm⟩ := reads_le pos hr
    have hof : s.sendingBuffer.begin_.distance (s.lastSent.add n) = s.onTheGoDataSize + n := by
      unfold onTheGoDataSize at hf ⊢
      exact distance_add_right (by omega)
    rw [positioned_iff b, hof]
    exact ⟨fun _ => trivial, fun _ => ⟨hf, hrm⟩⟩
  | exhausted hp hr hm b =>
    rw [positioned_iff b, distance_self]
    exact ⟨fun _ => trivial, fun _ => ⟨Nat.zero_le _, Nat.zero_le _⟩⟩
  | misplaced hp hps hs hot b => exact absurd hot (by omega)
  | stopped hsl b => exact absurd ha id

/-- In every state of an admitted run `last_sent_` is inside the buffer and the window, so
that the subtraction of `GetNextChunk` does not wrap and its read finds its start, exactly
when every call of the run keeps the position. -/
theorem position_invariant_iff (config : SafeStreamConfig cap) (randomOffset : Nat)
    (memory : RingIndex cap → UInt8) (ops : List (SendOp cap))
    (admitted : Along step Admitted (.init config randomOffset memory) ops) :
    Always step GetsNextChunk (.init config randomOffset memory) ops ↔
      Along step KeepsPosition (.init config randomOffset memory) ops := by
  have hs : Positioned (.init config randomOffset memory : SafeStreamSendAction cap) := by
    constructor
    · simp [onTheGoDataSize, init]
    · simp [onTheGoDataSize, init]
  refine always_iff_along ?_ ((getsNextChunk_iff _).mpr hs) admitted
  intro s op hp hh
  rw [getsNextChunk_iff] at hp ⊢
  exact positioned_step_iff s op hp hh

theorem position_invariant_iff_repeat :
    Always step GetsNextChunk (.init smallConfig 6 (fun _ => 0))
      [.setMaxPayload 2, .sendData [1, 2, 3, 4], .sendTask, .sendTask, .requestRepeat 0,
        .repeatTimeout, .acknowledge 7, .sendTask] :=
  (position_invariant_iff smallConfig 6 (fun _ => 0) _ (by decide)).mpr (by decide)

/-- A repeat request for index 1 followed by its acknowledgement leaves `last_sent_` behind
the begin, and a repeat request past the window puts it there at once. -/
theorem ack_of_last_sent_breaks_position :
    (Along step Admitted (.init smallConfig 0 (fun _ => 0))
        [.setMaxPayload 2, .sendData [1, 2, 3], .sendTask, .requestRepeat 1, .acknowledge 1] ∧
      ¬ Always step GetsNextChunk (.init smallConfig 0 (fun _ => 0))
        [.setMaxPayload 2, .sendData [1, 2, 3], .sendTask, .requestRepeat 1, .acknowledge 1]) ∧
    (Along step Admitted (.init smallConfig 0 (fun _ => 0))
        [.sendData [1, 2, 3, 4, 5], .requestRepeat 4] ∧
      ¬ Always step GetsNextChunk (.init smallConfig 0 (fun _ => 0))
        [.sendData [1, 2, 3, 4, 5], .requestRepeat 4]) := by
  refine ⟨⟨by decide, ?_⟩, by decide, ?_⟩
  · rintro ⟨-, -, -, -, -, h⟩
    exact absurd h.in_window (by decide)
  · rintro ⟨-, -, h⟩
    exact absurd h.in_window (by decide)

end Ae.SafeStream.SendPosition
