/- source: safe_stream/details/safe_stream_send_action.h, safe_stream_recv_action.h
   digest: A sender and a receiver over a lossy wire, and when a rejection leaves a permanent gap. -/

import Ae.SafeStream.RecvSoundness
import Ae.SafeStream.SendAction

/-!
The wire keeps every message that was pushed. A message may be delivered at any later
moment, any number of times or never, so loss, reordering and duplication are all runs.
An acknowledgement reaches the sender only for a byte that the receiver has emitted.
-/

set_option autoImplicit false

namespace Ae.SafeStream.Resync
open List Types.Ring Lib.EventRun Circular Message QueueRefinement
open RecvAction RecvSoundness SendAction SafeStreamRecvAction

structure WireMessage where
  index : UInt16
  message : DataMessage
  base : Nat

/-- Both sides with the wire between them, the stream position of the receiver's begin, the
position to which `RejectSend` last moved the sender's begin, and the ring indices of all
bytes that the receiver has emitted. -/
structure JointState (cap : Nat) where
  sends : SendHistory cap
  recvs : RecvHistory cap
  wire : List WireMessage
  receiverBase : Nat
  rejectedTo : Nat
  emittedAt : List (RingIndex cap)

inductive JointOp (cap : Nat) where
  | sender (op : SendOp cap)
  | deliver (k : Nat)
  | recvTask
  | ackTask
  | missingTask

variable {cap : Nat}

def isPush : SendOutput cap → Bool
  | .pushData _ _ => true
  | _ => false

def isFailure : SendOutput cap → Bool
  | .sendFailed _ _ => true
  | _ => false

namespace JointState

def init [NeZero cap] (sending receiving : SafeStreamConfig cap) (randomOffset : Nat)
    (memory : RingIndex cap → UInt8) : JointState cap :=
  ⟨.init sending randomOffset memory, .init receiving memory, [], 0, 0, []⟩

variable (j : JointState cap)

/-- Only bytes that the receiver emitted are acknowledged. -/
def permits : SendOp cap → Bool
  | .acknowledge offset => j.emittedAt.any (fun q => UInt16.ofNat q.value == offset)
  | _ => true

def transmit : SendOutput cap → Option WireMessage
  | .pushData index message => some ⟨index, message, j.sends.base⟩
  | _ => none

def runSender [NeZero cap] (j : JointState cap) (op : SendOp cap) : JointState cap :=
  let outputs := (j.sends.action.runOp op).2
  let sends := j.sends.step op
  { j with
    sends
    wire := j.wire ++ outputs.filterMap j.transmit
    rejectedTo :=
      if outputs.any isFailure = true ∧ j.sends.base < sends.base then sends.base
      else j.rejectedTo }

/-- A delivered message that starts a session places the receiver at the begin that the
sender had when it pushed the message. -/
def runDelivery [NeZero cap] (j : JointState cap) (m : WireMessage) : JointState cap :=
  { j with
    recvs := j.recvs.step (.pushData m.index m.message)
    receiverBase := if j.recvs.action.resets m.index m.message then m.base else j.receiverBase }

def runReceiver [NeZero cap] (j : JointState cap) (task : RecvOp) : JointState cap :=
  let recvs := j.recvs.step task
  let n := recvs.emitted.length - j.recvs.emitted.length
  { j with
    recvs
    receiverBase := j.receiverBase + n
    emittedAt := j.emittedAt ++ j.recvs.nextIndices n }

def step [NeZero cap] (j : JointState cap) : JointOp cap → JointState cap
  | .sender op => if j.permits op then j.runSender op else j
  | .deliver k =>
    match j.wire[k]? with
    | none => j
    | some m => j.runDelivery m
  | .recvTask => j.runReceiver .recvTask
  | .ackTask => j.runReceiver .ackTask
  | .missingTask => j.runReceiver .missingTask

def Gap : Prop := j.receiverBase < j.rejectedTo

instance (j : JointState cap) : Decidable j.Gap := inferInstanceAs (Decidable (_ < _))

def nextIndex : UInt16 :=
  UInt16.ofNat j.sends.action.sendingBuffer.begin_.value

end JointState

variable [NeZero cap]

/-- A message pushed over a gap is handled and moves the receiver's begin to its index. -/
def ResyncsOnPush (j : JointState cap) : JointOp cap → Prop
  | .sender op => ∀ index message, .pushData index message ∈ (j.sends.action.runOp op).2 →
    j.Gap → ∃ r, j.recvs.action.pushData index message = some r ∧
      r.buffer.begin_ = .ofNat index.toNat
  | _ => True

/-- When the sender pushes over a gap, the receiver has no session yet, or the sender still
announces a new session whose offset differs from the receiver's, or the two begins have
the same ring index. -/
def CanResync (j : JointState cap) : JointOp cap → Prop
  | .sender op => (j.sends.action.runOp op).2.any isPush = true → j.Gap →
    j.recvs.action.chunks.isNone = true ∨
    (j.sends.action.initState = true ∧ j.recvs.action.sessionOffset ≠ j.nextIndex.toNat) ∨
    j.recvs.action.buffer.begin_ = .ofNat j.nextIndex.toNat
  | _ => True

instance (j : JointState cap) : (op : JointOp cap) → Decidable (CanResync j op)
  | .sender _ => inferInstanceAs (Decidable (_ → _ → _ ∨ _ ∨ _))
  | .deliver _ | .recvTask | .ackTask | .missingTask => inferInstanceAs (Decidable True)

structure Working (j : JointState cap) : Prop where
  nofault : j.recvs.fault = false
  live : j.recvs.action.chunks = none ∨ Live j.recvs.action (fun _ _ => True)
  carried : ∀ m ∈ j.wire, m.message.data ≠ [] ∧ m.message.data.length < cap

variable {j : JointState cap} {message : DataMessage}

theorem push_fields {s : SafeStreamSendAction cap} {op : SendOp cap} {i : UInt16}
    (h : .pushData i message ∈ (s.runOp op).2) :
    i = UInt16.ofNat s.sendingBuffer.begin_.value ∧ message.reset = s.initState ∧
      message.data ≠ [] ∧ message.data.length < cap := by
  generalize houts : (s.runOp op).2 = outs at h
  have ho := s.runOp_outcome op
  rw [houts] at ho
  cases ho with
  | @sent _ n payload reads hn b =>
    obtain ⟨rfl, rfl⟩ := SendOutput.pushData.inj (mem_singleton.mp h)
    have hs := CircularBuffer.size_lt s.sendingBuffer
    have hl := reads.length
    refine ⟨rfl, rfl, ?_, ?_⟩
    · intro hnl
      rw [length_eq_zero_iff.mpr hnl] at hl
      omega
    · simp only [length_take, length_drop, contents_length]
      omega
  | _ => simp at h

omit [NeZero cap] in
theorem sound_of_carried {s : SafeStreamRecvAction cap} {l : RingIndex cap}
    {data : List UInt8} (hn : data ≠ []) (hl : data.length < cap) : Sound s l data :=
  ⟨fun h => hn h.1, fun _ => hl.le⟩

variable {r : SafeStreamRecvAction cap}

theorem synced_works (i : UInt16) (message : DataMessage)
    (hl : r.chunks = none ∨ Live r (fun _ _ => True)) :
    Live (r.synced i message) (fun _ _ => True) :=
  (synced_live i message hl).mono (fun _ _ _ _ => trivial)

theorem working_sender {op : SendOp cap} (hi : Working j) : Working (j.runSender op) := by
  refine ⟨hi.nofault, hi.live, ?_⟩
  intro m hm
  rcases mem_append.mp hm with hh | hnew
  · exact hi.carried m hh
  · obtain ⟨o, ho, hm⟩ := mem_filterMap.mp hnew
    cases o with
    | pushData i message =>
      obtain rfl := Option.some.inj hm
      obtain ⟨-, -, hd⟩ := push_fields ho
      exact hd
    | acknowledged b e | sendFailed b e | stopped b e => cases hm

theorem working_delivery {m : WireMessage} (hi : Working j) (hm : m ∈ j.wire) :
    Working (j.runDelivery m) := by
  obtain ⟨hn, hlt⟩ := hi.carried m hm
  obtain ⟨a, hs, -, hl⟩ := step_push hi.nofault
    (synced_works m.index m.message hi.live) (sound_of_carried hn hlt)
    (fun _ i v k _ _ _ => trivial)
  refine ⟨?_, ?_, hi.carried⟩
  · simp only [JointState.runDelivery, hs]
    exact hi.nofault
  · simp only [JointState.runDelivery, hs]
    exact .inr hl

theorem working_receiver {t : RecvOp} (hi : Working j)
    (ht : t = .recvTask ∨ t = .ackTask ∨ t = .missingTask) :
    Working (j.runReceiver t) := by
  have hk : (j.recvs.step t).fault = false ∧
      ((j.recvs.step t).action.chunks = none ∨
        Live (j.recvs.step t).action (fun _ _ => True)) := by
    rcases ht with rfl | hquiet
    · rcases step_recv hi.nofault hi.live with ⟨a, hs, hq⟩ | ⟨n, a, hs, hh⟩
      · rw [hs]
        exact ⟨hi.nofault, hq.live hi.live⟩
      · rw [hs]
        exact ⟨hi.nofault, .inr hh.live⟩
    · obtain ⟨hs, hq⟩ := step_quiet hi.nofault hquiet
      rw [hs]
      exact ⟨hi.nofault, hq.live hi.live⟩
  exact ⟨hk.1, hk.2, hi.carried⟩

theorem working_step (j : JointState cap) (op : JointOp cap) (hi : Working j) :
    Working (j.step op) := by
  cases op with
  | sender op =>
    simp only [JointState.step]
    split_ifs
    · exact working_sender hi
    · exact hi
  | deliver k =>
    simp only [JointState.step]
    cases hm : j.wire[k]? with
    | none => exact hi
    | some m => exact working_delivery hi (mem_of_getElem? hm)
  | recvTask => exact working_receiver hi (.inl rfl)
  | ackTask => exact working_receiver hi (.inr (.inl rfl))
  | missingTask => exact working_receiver hi (.inr (.inr rfl))

theorem begin_after_push {ix : UInt16}
    (hl : r.chunks = none ∨ Live r (fun _ _ => True)) (hn : message.data ≠ [])
    (hlt : message.data.length < cap) :
    (∃ r', r.pushData ix message = some r' ∧ r'.buffer.begin_ = .ofNat ix.toNat) ↔
      r.resets ix message = true ∨ r.buffer.begin_ = .ofNat ix.toNat := by
  obtain ⟨r', hp, hps, -⟩ := handleData_live message.repeatCount (synced_works ix message hl)
    (show Sound _ (receivedIndex ix message) message.data from sound_of_carried hn hlt)
    (fun _ i v k _ _ _ => trivial)
  have hh : r.pushData ix message = some r' := hp
  have hs : (r.synced ix message).buffer.begin_ = .ofNat ix.toNat ↔
      r.resets ix message = true ∨ r.buffer.begin_ = .ofNat ix.toNat := by
    unfold synced
    split_ifs with hr
    · exact ⟨fun _ => .inl hr, fun _ => rfl⟩
    · exact ⟨.inr, fun h => h.resolve_left hr⟩
  rw [← hs, ← hps.begin_]
  constructor
  · rintro ⟨r'', hsm, hb⟩
    obtain rfl := Option.some.inj (hh.symm.trans hsm)
    exact hb
  · exact fun hb => ⟨r', hh, hb⟩

omit [NeZero cap] in
theorem resets_iff {i : UInt16} :
    r.resets i message = true ↔
      r.chunks.isNone = true ∨ (message.reset = true ∧ r.sessionOffset ≠ i.toNat) := by
  cases hchunks : r.chunks with
  | none | some l => simp [resets, hchunks]

theorem resyncsOnPush_iff (j : JointState cap) (op : JointOp cap) (inv : Working j) :
    ResyncsOnPush j op ↔ CanResync j op := by
  cases op with
  | sender op =>
    have ha : ∀ i message, .pushData i message ∈ (j.sends.action.runOp op).2 →
        ((∃ r, j.recvs.action.pushData i message = some r ∧
          r.buffer.begin_ = .ofNat i.toNat) ↔
        j.recvs.action.chunks.isNone = true ∨
        (j.sends.action.initState = true ∧
          j.recvs.action.sessionOffset ≠ j.nextIndex.toNat) ∨
        j.recvs.action.buffer.begin_ = .ofNat j.nextIndex.toNat) := by
      intro i message hm
      obtain ⟨hi, hr, hn, hl⟩ := push_fields hm
      rw [begin_after_push inv.live hn hl, resets_iff, hr, or_assoc]
      subst hi
      exact .rfl
    constructor
    · intro h hp hg
      obtain ⟨o, hm, his⟩ := any_eq_true.mp hp
      cases o with
      | pushData i message => exact (ha i message hm).mp (h i message hm hg)
      | acknowledged b e | sendFailed b e | stopped b e => cases his
    · intro h i message hm hg
      exact (ha i message hm).mpr (h (any_eq_true.mpr ⟨_, hm, rfl⟩) hg)
  | deliver k | recvTask | ackTask | missingTask => exact .rfl

/-- In a run of the joint system every message pushed over a gap resynchronises the receiver
exactly when, at every such push, the receiver has no session, a new session is still
announced, or the begins coincide in the ring. -/
theorem resyncs_iff_can_resync (sending receiving : SafeStreamConfig cap) (randomOffset : Nat)
    (memory : RingIndex cap → UInt8) (ops : List (JointOp cap)) :
    Along JointState.step ResyncsOnPush (.init sending receiving randomOffset memory) ops ↔
      Along JointState.step CanResync (.init sending receiving randomOffset memory) ops := by
  have hs : Working (.init sending receiving randomOffset memory : JointState cap) :=
    ⟨rfl, .inl rfl, fun m hm => absurd hm (by simp [JointState.init])⟩
  refine along_iff_of_invariant (fun j op hi _ => working_step j op hi) ?_ hs
  exact fun j op hi => resyncsOnPush_iff j op hi

/-- The first two bytes arrive but are never acknowledged, and are rejected; the next message
still announces a new session, at the offset behind them. -/
theorem resyncs_iff_can_resync_unacknowledged :
    Along JointState.step ResyncsOnPush (.init smallConfig smallConfig 6 (fun _ => 0))
      [.sender (.setMaxPayload 2), .sender (.sendData [1, 2]), .sender .sendTask, .deliver 0,
        .sender .repeatTimeout, .sender .sendTask, .sender .repeatTimeout, .sender .sendTask,
        .sender (.sendData [3, 4]), .sender .sendTask, .deliver 2, .recvTask] :=
  (resyncs_iff_can_resync smallConfig smallConfig 6 (fun _ => 0) _).mpr (by decide)

/-- The first two bytes are acknowledged, the next two are lost until they are rejected, and
the message with the byte behind them leaves the receiver waiting for the lost ones. -/
theorem rejection_after_ack_leaves_gap :
    ¬ Along JointState.step ResyncsOnPush (.init smallConfig smallConfig 0 (fun _ => 0))
      [.sender (.setMaxPayload 2), .sender (.sendData [1, 2]), .sender .sendTask, .deliver 0,
        .recvTask, .sender (.acknowledge 1), .sender (.sendData [3, 4]), .sender .sendTask,
        .sender .repeatTimeout, .sender .sendTask, .sender .repeatTimeout, .sender .sendTask,
        .sender (.sendData [5]), .sender .sendTask] := by
  rintro ⟨-, -, -, -, -, -, -, -, -, -, -, -, -, h, -⟩
  obtain ⟨r, hp, hb⟩ := h 4 ⟨false, 0, 0, [5]⟩ (by decide) (by decide)
  have hs := congrArg (Option.map (fun r => r.buffer.begin_)) hp
  rw [Option.map_some, hb] at hs
  exact absurd hs (by decide)

end Ae.SafeStream.Resync
