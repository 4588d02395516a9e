/- source: safe_stream/details/safe_stream_send_action.h
   digest: The sending side of a safe stream, what each of its calls and tasks can do, and its history. -/

import Ae.SafeStream.Message
import Ae.SafeStream.QueueRefinement
import Ae.SafeStream.SendingChunks

/-!
The two task subscriptions are a flag and the range that the timer captured, and a
subscription to the status of a transport write is the end index it captured. Time is
left out: a scheduled task or timer may run at any moment. The events are outputs.
-/

set_option autoImplicit false

namespace Ae.SafeStream.SendAction
open List Types.Ring Circular Message QueueRefinement
open SendingChunks CircularBuffer

structure SafeStreamSendAction (cap : Nat) where
  config : SafeStreamConfig cap
  maxPayloadSize : Nat
  sendingBuffer : CircularBuffer cap
  sendingChunks : SendingChunkList cap
  lastSent : RingIndex cap
  initState : Bool
  sendSubs : List (RingIndex cap)
  repeatTimer : Option (RingIndexRange cap)
  sendEnqueued : Bool

inductive SendOutput (cap : Nat) where
  | pushData (index : UInt16) (message : DataMessage)
  | acknowledged (bufferBegin end_ : RingIndex cap)
  | sendFailed (bufferBegin end_ : RingIndex cap)
  | stopped (bufferBegin end_ : RingIndex cap)
  deriving DecidableEq

inductive WriteStatus where
  | kSuccess
  | kFail
  | kStop
  deriving DecidableEq

variable {cap : Nat}

namespace SafeStreamSendAction

def init [NeZero cap] (config : SafeStreamConfig cap) (randomOffset : Nat)
    (memory : RingIndex cap → UInt8) : SafeStreamSendAction cap :=
  let buffer := ofOffset randomOffset memory
  ⟨config, 0, buffer, ⟨buffer.begin_, []⟩, buffer.begin_, true, [], none, false⟩

variable (s : SafeStreamSendAction cap)

def enqueueSend : SafeStreamSendAction cap :=
  if s.sendEnqueued then s else { s with sendEnqueued := true }

def enqueueRepeatTimeout : SafeStreamSendAction cap :=
  if s.repeatTimer.isSome then s else
    match s.sendingChunks.front with
    | none => s
    | some selected => { s with repeatTimer := some selected.range }

def sendData (data : List UInt8) : Except Nat (RingIndexRange cap) × SafeStreamSendAction cap :=
  match s.sendingBuffer.push data with
  | (.error _, buffer) => (.error 1, { s with sendingBuffer := buffer })
  | (.ok range, buffer) => (.ok range, { s with sendingBuffer := buffer }.enqueueSend)

def stop (range : RingIndexRange cap) : SafeStreamSendAction cap × List (SendOutput cap) :=
  match s.sendingChunks.select range with
  | some _ => (s, [])
  | none => ({ s with sendingBuffer := s.sendingBuffer.eraseFrom range.left },
      [.stopped s.sendingBuffer.begin_ range.right])

/-- `IndexRangeType{begin, end}.InRange(index, begin)`: the test includes `end`. -/
def inSendingRange (index : RingIndex cap) : Bool :=
  (RingIndexRange.mk s.sendingBuffer.begin_ s.sendingBuffer.end_).inRange index
    s.sendingBuffer.begin_

variable (s : SafeStreamSendAction cap)

def acknowledge [NeZero cap] (confirmOffset : UInt16) :
    SafeStreamSendAction cap × List (SendOutput cap) :=
  let confirmIndex := .ofNat confirmOffset.toNat
  if !s.inSendingRange confirmIndex then (s, []) else
    let lastSent :=
      if (IndexComparable.mk s.lastSent s.sendingBuffer.begin_).lt confirmIndex then
        confirmIndex.add 1
      else s.lastSent
    let buffer := s.sendingBuffer.erase (confirmIndex.add 1)
    let chunks := (s.sendingChunks.removeUpTo confirmIndex).setBufferBegin buffer.begin_
    let s' := { s with
      initState := false, lastSent, sendingBuffer := buffer, sendingChunks := chunks }.enqueueSend
    ({ s' with repeatTimer := none }.enqueueRepeatTimeout,
      [.acknowledged s.sendingBuffer.begin_ confirmIndex])

def requestRepeat [NeZero cap] (requestOffset : UInt16) : SafeStreamSendAction cap :=
  let requestIndex := .ofNat requestOffset.toNat
  if !s.inSendingRange requestIndex then s else
    { s with lastSent := requestIndex }.enqueueSend

def setMaxPayload (maxPayloadSize : Nat) : SafeStreamSendAction cap :=
  { s with maxPayloadSize }.enqueueSend

def processRepeat (range : RingIndexRange cap) : SafeStreamSendAction cap :=
  if s.sendingChunks.empty then s else
    if s.sendingBuffer.begin_.distance range.left > s.config.windowSize then
      { s with lastSent := s.sendingBuffer.begin_ }.enqueueSend
    else
      { s with lastSent := range.left }.enqueueSend

def onTheGoDataSize : Nat :=
  s.sendingBuffer.begin_.distance s.lastSent

/-- The subtraction is the one of `std::size_t`: past the window it wraps. -/
def payloadSize : Nat :=
  min s.maxPayloadSize (subSize s.config.windowSize s.onTheGoDataSize)

def getNextChunk : Except Nat DSpan :=
  if s.payloadSize = 0 then .ok ⟨[], []⟩ else
    match s.sendingBuffer.read s.lastSent s.payloadSize with
    | .ok dspan => .ok dspan
    | .error .kEmptyBuffer => .error 0
    | .error _ => .error 1

def registerChunk (dspan : DSpan) (chunkRange : RingIndexRange cap) :
    SafeStreamSendAction cap × Except Nat (DSpan × Chunk cap) :=
  let (chunks, registered) := s.sendingChunks.register chunkRange
  let sendChunk := { registered with repeatCount := registered.repeatCount + 1 }
  let s := { s with sendingChunks := chunks.setBack sendChunk }
  if sendChunk.repeatCount > s.config.maxRepeatCount then (s, .error 2)
  else (s, .ok (dspan, sendChunk))

def rejectSend (endIndex : RingIndex cap) : SafeStreamSendAction cap × List (SendOutput cap) :=
  let buffer := s.sendingBuffer.erase (endIndex.add 1)
  let chunks := (s.sendingChunks.removeUpTo endIndex).setBufferBegin buffer.begin_
  ({ s with
    sendingBuffer := buffer, sendingChunks := chunks, lastSent := buffer.begin_ }.enqueueSend,
    [.sendFailed s.sendingBuffer.begin_ endIndex])

def pushData (dspan : DSpan) (dataIndex : RingIndex cap) (repeatCount : UInt8) : SendOutput cap :=
  .pushData (UInt16.ofNat s.sendingBuffer.begin_.value)
    ⟨s.initState, repeatCount, UInt16.ofNat (s.sendingBuffer.begin_.distance dataIndex),
      dspan.bytes⟩

/-- `GetNextChunk().Then(...)` of `SendChunk`: an error of the read leaves `last_sent_`. -/
def nextChunk : SafeStreamSendAction cap × Except Nat (DSpan × Chunk cap) :=
  match s.getNextChunk with
  | .error code => (s, .error code)
  | .ok dspan =>
    let chunkIndexRange := ⟨s.lastSent, (s.lastSent.add dspan.size).sub 1⟩
    { s with lastSent := s.lastSent.add dspan.size }.registerChunk dspan chunkIndexRange

def sendChunk : SafeStreamSendAction cap × List (SendOutput cap) :=
  if s.maxPayloadSize = 0 then (s, []) else
    match s.nextChunk with
    | (s, .error code) => if code ≠ 0 then s.rejectSend (s.lastSent.sub 1) else (s, [])
    | (s, .ok (dspan, sendChunk)) =>
      if dspan.size = 0 then (s, []) else
        let subscribed := { s with sendSubs := s.sendSubs ++ [sendChunk.range.right] }
        (subscribed.enqueueSend.enqueueRepeatTimeout,
          [s.pushData dspan sendChunk.range.left (sendChunk.repeatCount - 1)])

/-- The subscription to the status of a transport write whose last byte is `endIndex`. -/
def writeStatus (endIndex : RingIndex cap) :
    WriteStatus → SafeStreamSendAction cap
  | .kSuccess => s
  | .kFail | .kStop =>
    if (IndexComparable.mk s.lastSent s.sendingBuffer.begin_).gt endIndex then
      { s with lastSent := endIndex }.enqueueSend
    else s.enqueueSend

end SafeStreamSendAction

inductive SendOp (cap : Nat) where
  | sendData (data : List UInt8)
  | acknowledge (confirmOffset : UInt16)
  | requestRepeat (requestOffset : UInt16)
  | setMaxPayload (maxPayloadSize : Nat)
  | sendTask
  | repeatTimeout
  | writeStatus (subscription : Nat) (status : WriteStatus)
  | stop (range : RingIndexRange cap)
  deriving DecidableEq

namespace SafeStreamSendAction

/-- A task or a timer runs only when it is scheduled, a status arrives only for a write
that was made. -/
def runOp [NeZero cap] (s : SafeStreamSendAction cap) :
    SendOp cap → SafeStreamSendAction cap × List (SendOutput cap)
  | .sendData data => ((s.sendData data).2, [])
  | .acknowledge confirmOffset => s.acknowledge confirmOffset
  | .requestRepeat requestOffset => (s.requestRepeat requestOffset, [])
  | .setMaxPayload maxPayloadSize => (s.setMaxPayload maxPayloadSize, [])
  | .sendTask =>
    if s.sendEnqueued then { s with sendEnqueued := false }.sendChunk else (s, [])
  | .repeatTimeout =>
    match s.repeatTimer with
    | none => (s, [])
    | some range => ({ s with repeatTimer := none }.processRepeat range, [])
  | .writeStatus subscription status =>
    match s.sendSubs[subscription]? with
    | none => (s, [])
    | some endIndex => (s.writeStatus endIndex status, [])
  | .stop range => s.stop range

@[simp] theorem enqueueSend_fields (s : SafeStreamSendAction cap) :
    s.enqueueSend.config = s.config ∧ s.enqueueSend.sendingBuffer = s.sendingBuffer ∧
      s.enqueueSend.sendingChunks = s.sendingChunks ∧ s.enqueueSend.lastSent = s.lastSent ∧
      s.enqueueSend.initState = s.initState := by
  unfold enqueueSend
  split_ifs
  · exact ⟨rfl, rfl, rfl, rfl, rfl⟩
  · exact ⟨rfl, rfl, rfl, rfl, rfl⟩

@[simp] theorem enqueueRepeatTimeout_fields (s : SafeStreamSendAction cap) :
    s.enqueueRepeatTimeout.config = s.config ∧
      s.enqueueRepeatTimeout.sendingBuffer = s.sendingBuffer ∧
      s.enqueueRepeatTimeout.sendingChunks = s.sendingChunks ∧
      s.enqueueRepeatTimeout.lastSent = s.lastSent ∧
      s.enqueueRepeatTimeout.initState = s.initState := by
  unfold enqueueRepeatTimeout
  split_ifs
  · exact ⟨rfl, rfl, rfl, rfl, rfl⟩
  · split
    · exact ⟨rfl, rfl, rfl, rfl, rfl⟩
    · exact ⟨rfl, rfl, rfl, rfl, rfl⟩

end SafeStreamSendAction

structure Becomes (s s' : SafeStreamSendAction cap) (buffer : CircularBuffer cap)
    (chunks : SendingChunkList cap) (lastSent : RingIndex cap) : Prop where
  config : s'.config = s.config
  sendingBuffer : s'.sendingBuffer = buffer
  sendingChunks : s'.sendingChunks = chunks
  lastSent : s'.lastSent = lastSent

theorem Becomes.onTheGo {s s' : SafeStreamSendAction cap} {bu : CircularBuffer cap}
    {cs : SendingChunkList cap} {lastSent : RingIndex cap}
    (b : Becomes s s' bu cs lastSent) :
    s'.onTheGoDataSize = bu.begin_.distance lastSent := by
  rw [SafeStreamSendAction.onTheGoDataSize, b.sendingBuffer, b.lastSent]

def forgotten (b : CircularBuffer cap) (chunks : SendingChunkList cap) (to_ : RingIndex cap) :
    SendingChunkList cap :=
  (chunks.removeUpTo to_).setBufferBegin (b.erase (to_.add 1)).begin_

variable (s : SafeStreamSendAction cap)

/-- `GetNextChunk` succeeds with `n` bytes; with none when the window is full. -/
def Reads (n : Nat) : Prop :=
  (s.payloadSize = 0 ∧ n = 0) ∨
  (0 < s.payloadSize ∧ s.onTheGoDataSize < s.sendingBuffer.size ∧
    n = min s.payloadSize (s.sendingBuffer.size - s.onTheGoDataSize))

theorem Reads.length {s : SafeStreamSendAction cap} {n : Nat} (hr : Reads s n) :
    (((contents s.sendingBuffer).drop s.onTheGoDataSize).take n).length = n := by
  rcases hr with ⟨-, rfl⟩ | ⟨-, hl, hrd⟩
  · simp
  · simp only [length_take, length_drop, contents_length]
    omega

def nextRange (n : Nat) : RingIndexRange cap :=
  ⟨s.lastSent, (s.lastSent.add n).sub 1⟩

def nextCount : UInt8 :=
  s.sendingChunks.repeatCountOf s.lastSent + 1

def Inert [NeZero cap] : SendOp cap → Prop
  | .sendData _ => False
  | .acknowledge offset =>
    s.sendingBuffer.size < s.sendingBuffer.begin_.distance (.ofNat offset.toNat)
  | .requestRepeat offset =>
    s.sendingBuffer.size < s.sendingBuffer.begin_.distance (.ofNat offset.toNat)
  | .repeatTimeout => ∀ range, s.repeatTimer = some range → s.sendingChunks.empty = true
  | .sendTask => s.sendEnqueued = true → s.maxPayloadSize ≠ 0 →
    0 < s.payloadSize ∧ (s.sendingBuffer.size = 0 ∨ s.onTheGoDataSize = s.sendingBuffer.size)
  | .setMaxPayload _ | .writeStatus _ _ | .stop _ => True

def Retargets [NeZero cap] (target : RingIndex cap) : SendOp cap → Prop
  | .requestRepeat offset => target = .ofNat offset.toNat ∧
    s.sendingBuffer.begin_.distance target ≤ s.sendingBuffer.size
  | .repeatTimeout => s.sendingChunks.empty = false ∧ ∃ range, s.repeatTimer = some range ∧
    target = if s.sendingBuffer.begin_.distance range.left > s.config.windowSize
      then s.sendingBuffer.begin_ else range.left
  | .writeStatus _ _ => target ∈ s.sendSubs ∧
    s.sendingBuffer.begin_.distance target < s.onTheGoDataSize
  | _ => False

inductive Outcome [NeZero cap] (s : SafeStreamSendAction cap) :
    SendOp cap → SafeStreamSendAction cap → List (SendOutput cap) → Prop where
  | stored {data s'} : Becomes s s' (s.sendingBuffer.push data).2 s.sendingChunks s.lastSent →
      Outcome s (.sendData data) s' []
  | ignored {op s'} : Inert s op →
      Becomes s s' s.sendingBuffer s.sendingChunks s.lastSent → Outcome s op s' []
  | retargeted {op s' target} : Retargets s target op →
      Becomes s s' s.sendingBuffer s.sendingChunks target → Outcome s op s' []
  | acknowledged {offset s' confirm} : confirm = .ofNat offset.toNat →
      s.sendingBuffer.begin_.distance confirm ≤ s.sendingBuffer.size →
      Becomes s s' (s.sendingBuffer.erase (confirm.add 1))
        (forgotten s.sendingBuffer s.sendingChunks confirm)
        (if s.onTheGoDataSize < s.sendingBuffer.begin_.distance confirm then confirm.add 1
          else s.lastSent) →
      Outcome s (.acknowledge offset) s' [.acknowledged s.sendingBuffer.begin_ confirm]
  | waiting {s'} : s.maxPayloadSize ≠ 0 → s.payloadSize = 0 →
      Becomes s s' s.sendingBuffer (s.sendingChunks.counted (nextRange s 0)) s.lastSent →
      Outcome s .sendTask s' []
  | sent {s' n} : s.maxPayloadSize ≠ 0 → Reads s n → 0 < n →
      Becomes s s' s.sendingBuffer (s.sendingChunks.counted (nextRange s n)) (s.lastSent.add n) →
      Outcome s .sendTask s' [.pushData (UInt16.ofNat s.sendingBuffer.begin_.value)
        ⟨s.initState, nextCount s - 1, UInt16.ofNat s.onTheGoDataSize,
          ((contents s.sendingBuffer).drop s.onTheGoDataSize).take n⟩]
  | exhausted {s' n} : s.maxPayloadSize ≠ 0 → Reads s n → s.config.maxRepeatCount < nextCount s →
      Becomes s s' (s.sendingBuffer.erase (s.lastSent.add n))
        (forgotten s.sendingBuffer (s.sendingChunks.counted (nextRange s n))
          ((s.lastSent.add n).sub 1))
        (s.sendingBuffer.erase (s.lastSent.add n)).begin_ →
      Outcome s .sendTask s' [.sendFailed s.sendingBuffer.begin_ ((s.lastSent.add n).sub 1)]
  | misplaced {s'} : s.maxPayloadSize ≠ 0 → 0 < s.payloadSize → 0 < s.sendingBuffer.size →
      s.sendingBuffer.size < s.onTheGoDataSize →
      Becomes s s' s.sendingBuffer (forgotten s.sendingBuffer s.sendingChunks (s.lastSent.sub 1))
        s.sendingBuffer.begin_ →
      Outcome s .sendTask s' [.sendFailed s.sendingBuffer.begin_ (s.lastSent.sub 1)]
  | stopped {range s'} : s.sendingChunks.select range = none →
      Becomes s s' (s.sendingBuffer.eraseFrom range.left) s.sendingChunks s.lastSent →
      Outcome s (.stop range) s' [.stopped s.sendingBuffer.begin_ range.right]

namespace SafeStreamSendAction

variable (s : SafeStreamSendAction cap)

theorem inSendingRange_iff (i : RingIndex cap) :
    s.inSendingRange i = true ↔ s.sendingBuffer.begin_.distance i ≤ s.sendingBuffer.size :=
  RingIndexRange.inRange_begin_iff _ _ _

theorem subSize_window (h : s.onTheGoDataSize ≤ s.config.windowSize) :
    subSize s.config.windowSize s.onTheGoDataSize = s.config.windowSize - s.onTheGoDataSize := by
  have hw := s.config.two_windows
  have hc := s.config.cap_lt
  exact subSize_of_le h (by omega)

theorem payloadSize_eq (h : s.onTheGoDataSize ≤ s.config.windowSize) :
    s.payloadSize = min s.maxPayloadSize (s.config.windowSize - s.onTheGoDataSize) := by
  rw [payloadSize, s.subSize_window h]

theorem registerChunk_eq (d : DSpan) (r : RingIndexRange cap) :
    s.registerChunk d r = ({ s with sendingChunks := s.sendingChunks.counted r },
        if s.config.maxRepeatCount < s.sendingChunks.repeatCountOf r.left + 1 then .error 2
        else .ok (d, ⟨r, s.sendingChunks.repeatCountOf r.left + 1⟩)) := by
  simp only [registerChunk, SendingChunkList.register_setBack]
  simp only [SendingChunkList.register, gt_iff_lt]
  split_ifs <;> rfl

theorem getNextChunk_cases :
    (∃ ds, s.getNextChunk = .ok ds ∧ Reads s ds.size ∧
      ds.bytes = ((contents s.sendingBuffer).drop s.onTheGoDataSize).take ds.size) ∨
    (s.getNextChunk = .error 0 ∧ 0 < s.payloadSize ∧
      (s.sendingBuffer.size = 0 ∨ s.onTheGoDataSize = s.sendingBuffer.size)) ∨
    (s.getNextChunk = .error 1 ∧ 0 < s.payloadSize ∧ 0 < s.sendingBuffer.size ∧
      s.sendingBuffer.size < s.onTheGoDataSize) := by
  unfold getNextChunk
  by_cases full : s.payloadSize = 0
  · rw [if_pos full]
    exact Or.inl ⟨⟨[], []⟩, rfl, Or.inl ⟨full, rfl⟩, by simp [DSpan.bytes, DSpan.size]⟩
  · rw [if_neg full]
    have hp : 0 < s.payloadSize := Nat.pos_of_ne_zero full
    rcases Nat.lt_or_ge s.onTheGoDataSize s.sendingBuffer.size with hl | hge
    · obtain ⟨d, hr, hb⟩ := read_contents s.payloadSize hl
      have hs : d.size = min s.payloadSize (s.sendingBuffer.size - s.onTheGoDataSize) := by
        rw [← DSpan.bytes_length, hb]
        simp [onTheGoDataSize]
      refine Or.inl ⟨d, by rw [hr], Or.inr ⟨hp, hl, hs⟩, ?_⟩
      rw [hb, take_eq_take_min, hs]
      simp [onTheGoDataSize]
    · by_cases hh : s.sendingBuffer.size = 0 ∨ s.onTheGoDataSize = s.sendingBuffer.size
      · refine Or.inr (Or.inl ⟨?_, hp, hh⟩)
        rw [read_empty_iff.mpr hh]
      · have ho : 0 < s.sendingBuffer.size ∧ s.sendingBuffer.size < s.onTheGoDataSize := by
          omega
        refine Or.inr (Or.inr ⟨?_, hp, ho⟩)
        rw [read_error_iff.mpr ho]

variable {s : SafeStreamSendAction cap}

theorem sendChunk_of_error {code : Nat} (hp : s.maxPayloadSize ≠ 0)
    (h : s.getNextChunk = .error code) :
    s.sendChunk = if code ≠ 0 then s.rejectSend (s.lastSent.sub 1) else (s, []) := by
  simp only [sendChunk, if_neg hp, nextChunk, h]

def advanced (s : SafeStreamSendAction cap) (n : Nat) : SafeStreamSendAction cap :=
  { s with
    lastSent := s.lastSent.add n
    sendingChunks := s.sendingChunks.counted (nextRange s n) }

theorem nextChunk_of_ok {d : DSpan} (h : s.getNextChunk = .ok d) :
    s.nextChunk = (s.advanced d.size, if s.config.maxRepeatCount < nextCount s then .error 2
      else .ok (d, ⟨nextRange s d.size, nextCount s⟩)) := by
  simp only [nextChunk, h]
  exact registerChunk_eq _ _ _

theorem sendChunk_of_ok {d : DSpan} (hp : s.maxPayloadSize ≠ 0)
    (h : s.getNextChunk = .ok d) :
    s.sendChunk =
      if s.config.maxRepeatCount < nextCount s then
        (s.advanced d.size).rejectSend ((s.lastSent.add d.size).sub 1)
      else if d.size = 0 then (s.advanced d.size, [])
      else
        ({ s.advanced d.size with
            sendSubs := s.sendSubs ++ [(nextRange s d.size).right]
            }.enqueueSend.enqueueRepeatTimeout,
          [(s.advanced d.size).pushData d s.lastSent (nextCount s - 1)]) := by
  simp only [sendChunk, if_neg hp, nextChunk_of_ok h]
  by_cases more : s.config.maxRepeatCount < nextCount s
  · rw [if_pos more, if_pos more]
    rfl
  · rw [if_neg more, if_neg more]
    rfl

theorem sendChunk_outcome [NeZero cap] {s t : SafeStreamSendAction cap}
    (ht : t = { s with sendEnqueued := false }) (hp : t.maxPayloadSize ≠ 0) :
    Outcome s .sendTask t.sendChunk.1 t.sendChunk.2 := by
  rcases t.getNextChunk_cases with
    ⟨d, hget, hr, hbytes⟩ | ⟨hget, hidle⟩ | ⟨hget, hps, hsize, hout⟩
  · rw [sendChunk_of_ok hp hget]
    by_cases more : t.config.maxRepeatCount < nextCount t
    · rw [if_pos more]
      subst ht
      refine .exhausted hp hr more ⟨?_, ?_, ?_, ?_⟩
      all_goals simp [rejectSend, advanced, forgotten, nextRange]
    rw [if_neg more]
    by_cases he : d.size = 0
    · rw [if_pos he]
      rw [he] at hr ⊢
      have hfl : t.payloadSize = 0 := by
        rcases hr with ⟨hf, -⟩ | ⟨hps, hl, hn⟩
        · exact hf
        · omega
      subst ht
      exact .waiting hp hfl ⟨rfl, rfl, rfl, RingIndex.add_zero _⟩
    · rw [if_neg he]
      have hph : (t.advanced d.size).pushData d t.lastSent (nextCount t - 1) =
          .pushData (UInt16.ofNat t.sendingBuffer.begin_.value)
            ⟨t.initState, nextCount t - 1, UInt16.ofNat t.onTheGoDataSize,
              ((contents t.sendingBuffer).drop t.onTheGoDataSize).take d.size⟩ := by
        rw [← hbytes]
        rfl
      rw [hph]
      subst ht
      refine .sent hp hr (Nat.pos_of_ne_zero he) ⟨?_, ?_, ?_, ?_⟩
      all_goals simp [advanced, nextRange]
  · rw [sendChunk_of_error hp hget]
    subst ht
    exact .ignored (fun _ _ => hidle) ⟨rfl, rfl, rfl, rfl⟩
  · rw [sendChunk_of_error hp hget]
    have hu : t.sendingBuffer.erase t.lastSent = t.sendingBuffer :=
      erase_of_gt hout
    subst ht
    refine .misplaced hp hps hsize hout ⟨?_, ?_, ?_, ?_⟩
    all_goals simp [rejectSend, forgotten, hu]

theorem runOp_outcome [NeZero cap] (s : SafeStreamSendAction cap) (op : SendOp cap) :
    Outcome s op (s.runOp op).1 (s.runOp op).2 := by
  have he : Becomes s s s.sendingBuffer s.sendingChunks s.lastSent := ⟨rfl, rfl, rfl, rfl⟩
  cases op with
  | sendData data =>
    apply Outcome.stored
    simp only [runOp, sendData]
    generalize s.sendingBuffer.push data = pushed
    obtain ⟨res, b⟩ := pushed
    cases res with
    | error e => exact ⟨rfl, rfl, rfl, rfl⟩
    | ok r => exact ⟨by simp, by simp, by simp, by simp⟩
  | acknowledge o =>
    simp only [runOp, acknowledge]
    by_cases hi : s.inSendingRange (.ofNat o.toNat) = true
    · rw [hi]
      refine .acknowledged rfl ((s.inSendingRange_iff _).mp hi) ⟨?_, ?_, ?_, ?_⟩
      all_goals simp [forgotten, onTheGoDataSize]
    · rw [Bool.eq_false_iff.mpr hi]
      exact .ignored (Nat.not_le.mp (fun h => hi ((s.inSendingRange_iff _).mpr h))) he
  | requestRepeat o =>
    simp only [runOp, requestRepeat]
    by_cases hi : s.inSendingRange (.ofNat o.toNat) = true
    · rw [hi]
      refine .retargeted ⟨rfl, (s.inSendingRange_iff _).mp hi⟩ ⟨?_, ?_, ?_, ?_⟩
      all_goals simp
    · rw [Bool.eq_false_iff.mpr hi]
      exact .ignored (Nat.not_le.mp (fun h => hi ((s.inSendingRange_iff _).mpr h))) he
  | setMaxPayload mps =>
    exact .ignored trivial ⟨by simp [runOp, setMaxPayload], by simp [runOp, setMaxPayload],
      by simp [runOp, setMaxPayload], by simp [runOp, setMaxPayload]⟩
  | sendTask =>
    by_cases enqueued : s.sendEnqueued = true
    · have hr : s.runOp .sendTask = { s with sendEnqueued := false }.sendChunk :=
        if_pos enqueued
      rw [hr]
      by_cases payload : s.maxPayloadSize = 0
      · have hs : { s with sendEnqueued := false }.sendChunk =
            ({ s with sendEnqueued := false }, []) := if_pos payload
        rw [hs]
        exact .ignored (fun _ hn => absurd payload hn) ⟨rfl, rfl, rfl, rfl⟩
      · exact sendChunk_outcome rfl payload
    · have hr : s.runOp .sendTask = (s, []) := if_neg enqueued
      rw [hr]
      exact .ignored (fun h => absurd h enqueued) he
  | repeatTimeout =>
    simp only [runOp]
    cases timer : s.repeatTimer with
    | none => exact .ignored (fun r h => by simp [timer] at h) he
    | some r =>
      simp only [processRepeat]
      cases hempty : s.sendingChunks.empty with
      | true => exact .ignored (fun _ _ => hempty) ⟨rfl, rfl, rfl, rfl⟩
      | false =>
        refine .retargeted ⟨hempty, r, timer, rfl⟩ ?_
        simp only [Bool.false_eq_true, if_false]
        split_ifs with hb
        · exact ⟨by simp, by simp, by simp, by simp⟩
        · exact ⟨by simp, by simp, by simp, by simp⟩
  | writeStatus su st =>
    simp only [runOp]
    cases hsub : s.sendSubs[su]? with
    | none => exact .ignored trivial he
    | some ei =>
      have hm : ei ∈ s.sendSubs := mem_of_getElem? hsub
      have hrp : Outcome s (.writeStatus su st)
          (if (IndexComparable.mk s.lastSent s.sendingBuffer.begin_).gt ei then
            { s with lastSent := ei }.enqueueSend
          else s.enqueueSend) [] := by
        split_ifs with hl
        · exact .retargeted ⟨hm, (IndexComparable.gt_iff _ _ _).mp hl⟩
            ⟨by simp, by simp, by simp, by simp⟩
        · exact .ignored trivial ⟨by simp, by simp, by simp, by simp⟩
      cases st with
      | kSuccess => exact .ignored trivial he
      | kFail | kStop => exact hrp
  | stop r =>
    simp only [runOp, stop]
    cases hselect : s.sendingChunks.select r with
    | some c => exact .ignored trivial he
    | none => exact .stopped hselect ⟨rfl, rfl, rfl, rfl⟩

def accepted (s : SafeStreamSendAction cap) : SendOp cap → List UInt8
  | .sendData data =>
    match (s.sendData data).1 with
    | .ok _ => data
    | .error _ => []
  | _ => []

variable {data : List UInt8}

theorem sendData_of_le (h : s.sendingBuffer.size + data.length ≤ cap) :
    s.sendData data = (.ok ⟨s.sendingBuffer.end_, (s.sendingBuffer.end_.add data.length).sub 1⟩,
        { s with sendingBuffer := (s.sendingBuffer.push data).2 }.enqueueSend) := by
  have hh : (s.sendingBuffer.push data).1 = _ := (insert_spec h).1
  simp only [sendData]
  generalize s.sendingBuffer.push data = pushed at hh
  obtain ⟨res, b⟩ := pushed
  simp only at hh
  subst hh
  rfl

theorem sendData_of_gt (h : cap < s.sendingBuffer.size + data.length) :
    s.sendData data = (.error 1, s) := by
  have hp : s.sendingBuffer.push data = _ := insert_overflow h
  simp only [sendData, hp]

theorem accepted_of_le (h : s.sendingBuffer.size + data.length ≤ cap) :
    s.accepted (.sendData data) = data := by
  simp only [accepted, sendData_of_le h]

theorem accepted_of_gt (h : cap < s.sendingBuffer.size + data.length) :
    s.accepted (.sendData data) = [] := by
  simp only [accepted, sendData_of_gt h]

end SafeStreamSendAction

/-- The action together with the stream position of its buffer begin, the accepted bytes,
for every `PushData` the stream position of its first byte and its length, and once more
the first positions of those pushes that no acknowledgement has covered since. -/
structure SendHistory (cap : Nat) where
  action : SafeStreamSendAction cap
  base : Nat
  stream : List UInt8
  pushes : List (Nat × Nat)
  unacked : List Nat

namespace SendHistory

def init [NeZero cap] (config : SafeStreamConfig cap) (randomOffset : Nat)
    (memory : RingIndex cap → UInt8) : SendHistory cap :=
  ⟨.init config randomOffset memory, 0, [], [], []⟩

variable (h : SendHistory cap)

def pushOf : SendOutput cap → Option (Nat × Nat)
  | .pushData _ message => some (h.base + h.action.onTheGoDataSize, message.data.length)
  | _ => none

def recordUnacked (unacked : List Nat) : SendOutput cap → List Nat
  | .pushData _ _ => unacked ++ [h.base + h.action.onTheGoDataSize]
  | .acknowledged b e => unacked.filter (fun p => h.base + b.distance e < p)
  | _ => unacked

def step [NeZero cap] (h : SendHistory cap) (op : SendOp cap) : SendHistory cap :=
  { action := (h.action.runOp op).1
    base := h.base + h.action.sendingBuffer.begin_.distance
      (h.action.runOp op).1.sendingBuffer.begin_
    stream := h.stream ++ h.action.accepted op
    pushes := h.pushes ++ (h.action.runOp op).2.filterMap h.pushOf
    unacked := (h.action.runOp op).2.foldl h.recordUnacked h.unacked }

def Pushed (p : Nat) : Prop :=
  ∃ push ∈ h.pushes, push.1 ≤ p ∧ p < push.1 + push.2

instance (h : SendHistory cap) (p : Nat) : Decidable (h.Pushed p) :=
  inferInstanceAs (Decidable (∃ push ∈ h.pushes, _))

section

variable [NeZero cap] {h : SendHistory cap} {op : SendOp cap}

theorem step_base_of_same (he : (h.action.runOp op).1.sendingBuffer.begin_ =
    h.action.sendingBuffer.begin_) : (h.step op).base = h.base := by
  simp [step, he]

theorem step_base_of_erase {to_ : RingIndex cap}
    (he : (h.action.runOp op).1.sendingBuffer = h.action.sendingBuffer.erase to_)
    (hi : h.action.sendingBuffer.begin_.distance to_ ≤ h.action.sendingBuffer.size) :
    (h.step op).base = h.base + h.action.sendingBuffer.begin_.distance to_ ∧
      (h.step op).action.sendingBuffer.begin_ = to_ ∧
      (h.step op).action.sendingBuffer.size =
        h.action.sendingBuffer.size - h.action.sendingBuffer.begin_.distance to_ := by
  have hb : (h.action.runOp op).1.sendingBuffer.begin_ = to_ := by
    rw [he, erase_of_le hi]
  refine ⟨by simp [step, hb], hb, ?_⟩
  change (h.action.runOp op).1.sendingBuffer.size = _
  rw [he, erase_size hi]

theorem step_base_of_refused {to_ : RingIndex cap}
    (he : (h.action.runOp op).1.sendingBuffer = h.action.sendingBuffer.erase to_)
    (ho : h.action.sendingBuffer.size < h.action.sendingBuffer.begin_.distance to_) :
    (h.step op).base = h.base ∧ (h.step op).action.sendingBuffer = h.action.sendingBuffer := by
  rw [erase_of_gt ho] at he
  exact ⟨step_base_of_same (by rw [he]), he⟩

theorem Pushed.mono {p : Nat} (hp : h.Pushed p) : (h.step op).Pushed p := by
  obtain ⟨pu, hm, hi⟩ := hp
  exact ⟨pu, mem_append_left _ hm, hi⟩

theorem step_pushed_iff (hq : (h.action.runOp op).2.filterMap h.pushOf = []) (p : Nat) :
    (h.step op).Pushed p ↔ h.Pushed p := by
  unfold Pushed step
  rw [hq, append_nil]

end

end SendHistory

end Ae.SafeStream.SendAction
