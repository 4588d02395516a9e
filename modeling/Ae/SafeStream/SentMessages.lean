/- source: safe_stream/details/safe_stream_send_action.h
   digest: A pushed message carries accepted bytes at its offset and stays in the window. -/

import Ae.SafeStream.SendAction

set_option autoImplicit false

namespace Ae.SafeStream.SentMessages
open List Types.Ring Lib.EventRun Circular Message QueueRefinement
open SendAction

variable {cap : Nat}

structure HoldsStream (h : SendHistory cap) : Prop where
  base_le : h.base ≤ h.stream.length
  held : contents h.action.sendingBuffer = h.stream.drop h.base

theorem HoldsStream.size {h : SendHistory cap} (hi : HoldsStream h) :
    h.action.sendingBuffer.size = h.stream.length - h.base := by
  rw [← contents_length, hi.held, length_drop]

variable [NeZero cap]

/-- The index is the begin, the data are accepted bytes at the offset, their number is
positive and at most the payload size, and the offset and the data fit the window. -/
structure MessageFaithful (h : SendHistory cap) (index : UInt16) (message : DataMessage) :
    Prop where
  index_eq : index.toNat = h.action.sendingBuffer.begin_.value
  data_eq : message.data =
    (h.stream.drop (h.base + message.deltaOffset.toNat)).take message.data.length
  nonempty : 1 ≤ message.data.length
  payload : message.data.length ≤ h.action.maxPayloadSize
  in_window : message.deltaOffset.toNat + message.data.length ≤ h.action.config.windowSize

def SendsFaithfully (h : SendHistory cap) (op : SendOp cap) : Prop :=
  ∀ index message, .pushData index message ∈ (h.action.runOp op).2 → MessageFaithful h index message

/-- Accepted data do not fill the ring exactly, and `SendChunk` does not run with
`last_sent_` past the window but before the end. -/
def Orderly (h : SendHistory cap) : SendOp cap → Prop
  | .sendData data => h.action.sendingBuffer.size + data.length ≠ cap
  | .sendTask => h.action.config.windowSize < h.action.onTheGoDataSize →
    h.action.sendingBuffer.size ≤ h.action.onTheGoDataSize
  | .stop _ => False
  | _ => True

instance (h : SendHistory cap) : (op : SendOp cap) → Decidable (Orderly h op)
  | .sendData _ => inferInstanceAs (Decidable (_ ≠ _))
  | .sendTask => inferInstanceAs (Decidable (_ → _))
  | .stop _ => inferInstanceAs (Decidable False)
  | .acknowledge _ | .requestRepeat _ | .setMaxPayload _ | .repeatTimeout | .writeStatus _ _ =>
    inferInstanceAs (Decidable True)

variable {h : SendHistory cap}

theorem holdsStream_store {data : List UInt8} (inv : HoldsStream h)
    (hi : h.action.sendingBuffer.size + data.length ≠ cap)
    (hb : (h.action.runOp (.sendData data)).1.sendingBuffer =
      (h.action.sendingBuffer.push data).2) : HoldsStream (h.step (.sendData data)) := by
  obtain ⟨hbs, hh⟩ := inv
  have hbg := (h.action.sendingBuffer.push_bounds data).1
  have hst : (h.step (.sendData data)).base = h.base :=
    SendHistory.step_base_of_same (by rw [hb, hbg])
  have hs : (h.step (.sendData data)).stream =
      h.stream ++ h.action.accepted (.sendData data) := rfl
  have ha : (h.step (.sendData data)).action.sendingBuffer =
      (h.action.sendingBuffer.push data).2 := hb
  refine ⟨?_, ?_⟩
  · rw [hst, hs, length_append]
    omega
  · rw [hst, hs, ha, drop_append_of_le_length hbs, ← hh]
    rcases Nat.lt_or_gt_of_ne hi with hrm | hfull
    · rw [SafeStreamSendAction.accepted_of_le hrm.le, contents_push hrm]
    · rw [SafeStreamSendAction.accepted_of_gt hfull, append_nil]
      have hr : h.action.sendingBuffer.push data = _ := CircularBuffer.insert_overflow hfull
      rw [hr]

theorem holdsStream_erase {op : SendOp cap} {to_ : RingIndex cap} (hi : HoldsStream h)
    (hn : h.action.accepted op = [])
    (hb : (h.action.runOp op).1.sendingBuffer = h.action.sendingBuffer.erase to_) :
    HoldsStream (h.step op) := by
  have hsz := hi.size
  obtain ⟨hbs, hhl⟩ := hi
  have hs : (h.step op).stream = h.stream := by
    simp [SendHistory.step, hn]
  rcases lt_or_ge h.action.sendingBuffer.size
    (h.action.sendingBuffer.begin_.distance to_) with ho | hin
  · obtain ⟨hst, hsm⟩ := SendHistory.step_base_of_refused hb ho
    refine ⟨?_, ?_⟩
    · rw [hst, hs]
      exact hbs
    · rw [hst, hs, hsm]
      exact hhl
  · obtain ⟨hh, -, -⟩ := SendHistory.step_base_of_erase hb hin
    have ha : (h.step op).action.sendingBuffer = h.action.sendingBuffer.erase to_ := hb
    refine ⟨?_, ?_⟩
    · rw [hh, hs]
      omega
    · rw [hh, hs, ha, contents_erase hin, hhl, drop_drop]

theorem holdsStream_same {op : SendOp cap} (hi : HoldsStream h) (hn : h.action.accepted op = [])
    (hb : (h.action.runOp op).1.sendingBuffer = h.action.sendingBuffer) :
    HoldsStream (h.step op) := by
  refine @holdsStream_erase cap _ h op h.action.sendingBuffer.begin_ hi hn ?_
  rw [hb, CircularBuffer.erase_of_le (by simp)]

theorem holdsStream_step (h : SendHistory cap) (op : SendOp cap) (hi : HoldsStream h)
    (hor : Orderly h op) : HoldsStream (h.step op) := by
  generalize houts : (h.action.runOp op).2 = outs
  have ho := h.action.runOp_outcome op
  rw [houts] at ho
  cases ho with
  | stored b => exact holdsStream_store hi hor b.sendingBuffer
  | ignored hin b =>
    refine holdsStream_same hi ?_ b.sendingBuffer
    cases op with
    | sendData data => exact absurd hin id
    | _ => rfl
  | retargeted hr b =>
    refine holdsStream_same hi ?_ b.sendingBuffer
    cases op with
    | sendData data => exact absurd hr id
    | _ => rfl
  | acknowledged hc his b => exact holdsStream_erase hi rfl b.sendingBuffer
  | waiting hp hf b | sent hp hrd hn b =>
    exact holdsStream_same hi rfl b.sendingBuffer
  | exhausted hp hrd hm b => exact holdsStream_erase hi rfl b.sendingBuffer
  | misplaced hp hps hsz hot b => exact holdsStream_same hi rfl b.sendingBuffer
  | stopped hs b => exact absurd hor id

omit [NeZero cap] in
theorem message_faithful {n : Nat} (hf : cap ≤ UInt16.size) (hi : HoldsStream h)
    (ho : Orderly h .sendTask) (hr : Reads h.action n) (hn : 0 < n) :
    MessageFaithful h (UInt16.ofNat h.action.sendingBuffer.begin_.value)
      ⟨h.action.initState, nextCount h.action - 1, UInt16.ofNat h.action.onTheGoDataSize,
        ((contents h.action.sendingBuffer).drop h.action.onTheGoDataSize).take n⟩ := by
  have hv := h.action.sendingBuffer.begin_.value_lt
  have hg : h.action.onTheGoDataSize < cap := RingIndex.distance_lt _ _
  have hd := UInt16.toNat_ofNat_of_lt' (lt_of_lt_of_le hg hf)
  have hl := hr.length
  rcases hr with ⟨-, rfl⟩ | ⟨-, hlt, hrd⟩
  · exact absurd hn (lt_irrefl 0)
  -- the read starts before the end, so an orderly task starts it inside the window
  have hw : h.action.onTheGoDataSize ≤ h.action.config.windowSize := by
    by_contra hp
    have := ho (Nat.not_le.mp hp)
    omega
  have hpl := h.action.payloadSize_eq hw
  refine ⟨UInt16.toNat_ofNat_of_lt' (lt_of_lt_of_le hv hf), ?_, ?_, ?_, ?_⟩
  · simp only [hl, hd]
    rw [hi.held, drop_drop]
  · simp only [hl]
    exact hn
  · simp only [hl]
    omega
  · simp only [hl, hd]
    omega

theorem sendsFaithfully_of_orderly (hf : cap ≤ UInt16.size) (h : SendHistory cap)
    (op : SendOp cap) (hi : HoldsStream h) (hor : Orderly h op) : SendsFaithfully h op := by
  intro i m hm
  generalize houts : (h.action.runOp op).2 = outs at hm
  have ho := h.action.runOp_outcome op
  rw [houts] at ho
  cases ho with
  | sent hp hr hn b =>
    obtain ⟨rfl, rfl⟩ := SendOutput.pushData.inj (mem_singleton.mp hm)
    exact message_faithful hf hi hor hr hn
  | _ => simp at hm

/-- In every orderly run of a sender whose indices fit the message fields, every message
that is pushed is faithful to the accepted stream and respects the window. -/
theorem messages_faithful_of_orderly (fits : cap ≤ UInt16.size) (config : SafeStreamConfig cap)
    (randomOffset : Nat) (memory : RingIndex cap → UInt8) (ops : List (SendOp cap))
    (orderly : Along SendHistory.step Orderly (.init config randomOffset memory) ops) :
    Along SendHistory.step SendsFaithfully (.init config randomOffset memory) ops := by
  have hs : HoldsStream (.init config randomOffset memory : SendHistory cap) := by
    refine ⟨le_refl 0, contents_eq_nil ?_⟩
    exact RingIndex.distance_self _
  exact Along.of_invariant holdsStream_step (sendsFaithfully_of_orderly fits) hs orderly

theorem messages_faithful_of_orderly_wrapped :
    Along SendHistory.step SendsFaithfully (.init smallConfig 6 (fun _ => 0))
      [.setMaxPayload 2, .sendData [1, 2, 3, 4], .sendTask, .acknowledge 7, .sendTask,
        .requestRepeat 0, .sendTask] :=
  messages_faithful_of_orderly (by decide) smallConfig 6 (fun _ => 0) _ (by decide)

/-- A repeat request past the window is answered past the window; and eight bytes accepted
into an empty ring of eight are lost, so the next byte is sent in their place. -/
theorem repeat_past_window_is_sent :
    ¬ Along SendHistory.step SendsFaithfully (.init smallConfig 0 (fun _ => 0))
      [.setMaxPayload 2, .sendData [1, 2, 3, 4, 5], .requestRepeat 4, .sendTask] ∧
    ¬ Along SendHistory.step SendsFaithfully (.init smallConfig 0 (fun _ => 0))
      [.setMaxPayload 2, .sendData [1, 2, 3, 4, 5, 6, 7, 8], .sendData [9], .sendTask] := by
  constructor
  · rintro ⟨-, -, -, h, -⟩
    have hf := h 0 ⟨true, 0, 4, [5]⟩ (by decide)
    exact absurd hf.in_window (by decide)
  · rintro ⟨-, -, -, h, -⟩
    have hf := h 0 ⟨true, 0, 0, [9]⟩ (by decide)
    exact absurd hf.data_eq (by decide)

end Ae.SafeStream.SentMessages
