/- source: safe_stream/safe_stream.h
   digest: The writing half of a safe stream: its pending writes and the statuses they receive. -/

import Ae.SafeStream.SendAction

/-!
A write action is known by the number of its `Write`. The stream subscribes to the
acknowledgements and to the failures of its sender, not to `stopped_event`, so
`WriteStopped` is never called.
-/

set_option autoImplicit false
set_option linter.dupNamespace false

namespace Ae.SafeStream.Stream
open List Types.Ring Circular Message SendAction

structure SSWriteAction (cap : Nat) where
  id : Nat
  indexRange : RingIndexRange cap
  deriving DecidableEq

/-- `SafeStream<Capacity>` without its receiver; `nextId` numbers the accepted writes. -/
structure SafeStream (cap : Nat) where
  sender : SafeStreamSendAction cap
  sswas : List (RingIndex cap × SSWriteAction cap)
  nextId : Nat

/-- A call of the application, of the peer's api or of the transport, or a task of the
sender. -/
inductive StreamOp where
  | write (data : List UInt8)
  | stopWrite (id : Nat)
  | ackImpl (index : UInt16)
  | requestRepeatImpl (index : UInt16)
  | onStreamUpdate (recElementSize : Nat)
  | sendTask
  | repeatTimeout
  | writeStatus (subscription : Nat) (status : WriteStatus)
  deriving DecidableEq

def kSendOverhead : Nat := 1 + 2 + 2 + 1 + 2

variable {cap : Nat}

namespace SafeStream

def init [NeZero cap] (config : SafeStreamConfig cap) (randomOffset : Nat)
    (memory : RingIndex cap → UInt8) : SafeStream cap :=
  ⟨.init config randomOffset memory, [], 0⟩

variable (s : SafeStream cap)

def write (data : List UInt8) : SafeStream cap :=
  match s.sender.sendData data with
  | (.error _, sender) => { s with sender }
  | (.ok range, sender) =>
    { sender
      sswas := s.sswas ++ [(range.right, ⟨s.nextId, range⟩)]
      nextId := s.nextId + 1 }

/-- The loop of `WriteAcknowledged` and `WriteFailed`: the writes whose last index is not
after `index` get the status, and the finished ones are erased. No handler of a status calls
back into the stream. -/
def finishWrites (status : WriteStatus) (s : SafeStream cap) (bufferBegin index : RingIndex cap) :
    SafeStream cap × List (Nat × WriteStatus) :=
  ({ s with sswas := s.sswas.filter (fun w => !(IndexComparable.mk w.1 bufferBegin).le index) },
    (s.sswas.filter (fun w => (IndexComparable.mk w.1 bufferBegin).le index)).map
      (fun w => (w.2.id, status)))

def writeAcknowledged (bufferBegin ackIndex : RingIndex cap) :
    SafeStream cap × List (Nat × WriteStatus) :=
  finishWrites .kSuccess s bufferBegin ackIndex

def writeFailed (bufferBegin failedIndex : RingIndex cap) :
    SafeStream cap × List (Nat × WriteStatus) :=
  finishWrites .kFail s bufferBegin failedIndex

def onEvent : SendOutput cap → SafeStream cap × List (Nat × WriteStatus)
  | .acknowledged bufferBegin index => s.writeAcknowledged bufferBegin index
  | .sendFailed bufferBegin index => s.writeFailed bufferBegin index
  | .pushData _ _ | .stopped _ _ => (s, [])

def handle (s : SafeStream cap) :
    List (SendOutput cap) → SafeStream cap × List (Nat × WriteStatus)
  | [] => (s, [])
  | event :: events =>
    let (next, given) := s.onEvent event
    let (last, later) := next.handle events
    (last, given ++ later)

def call : StreamOp → Option (SendOp cap)
  | .write data => some (.sendData data)
  | .stopWrite id =>
    (s.sswas.find? (fun w => w.2.id == id)).map (fun w => .stop w.2.indexRange)
  | .ackImpl index => some (.acknowledge index)
  | .requestRepeatImpl index => some (.requestRepeat index)
  | .onStreamUpdate recElementSize =>
    some (.setMaxPayload (if recElementSize > 0 then subSize recElementSize kSendOverhead else 0))
  | .sendTask => some .sendTask
  | .repeatTimeout => some .repeatTimeout
  | .writeStatus subscription status => some (.writeStatus subscription status)

def events [NeZero cap] (op : StreamOp) : List (SendOutput cap) :=
  match s.call op with
  | none => []
  | some call => (s.sender.runOp call).2

/-- The next state and the statuses that write actions receive on the way. -/
def runOp [NeZero cap] (op : StreamOp) : SafeStream cap × List (Nat × WriteStatus) :=
  match op with
  | .write data => (s.write data, [])
  | op =>
    match s.call op with
    | none => (s, [])
    | some call => { s with sender := (s.sender.runOp call).1 }.handle (s.sender.runOp call).2

def acceptedLength : StreamOp → Option Nat
  | .write data =>
    match (s.sender.sendData data).1 with
    | .ok _ => some data.length
    | .error _ => none
  | _ => none

theorem mem_finishWrites_pending {st : WriteStatus} {s : SafeStream cap}
    {b e : RingIndex cap} {en : RingIndex cap × SSWriteAction cap} :
    en ∈ (finishWrites st s b e).1.sswas ↔ en ∈ s.sswas ∧ b.distance e < b.distance en.1 := by
  simp only [finishWrites, mem_filter, Bool.not_eq_true', ← Bool.not_eq_true,
    IndexComparable.le_iff, not_le]

theorem mem_finishWrites_given {st g : WriteStatus} {s : SafeStream cap}
    {b e : RingIndex cap} {id : Nat} :
    (id, g) ∈ (finishWrites st s b e).2 ↔
      g = st ∧ ∃ en ∈ s.sswas, en.2.id = id ∧ b.distance en.1 ≤ b.distance e := by
  simp only [finishWrites, mem_map, mem_filter, IndexComparable.le_iff, Prod.mk.injEq]
  constructor
  · rintro ⟨en, ⟨hm, hl⟩, hi, rfl⟩
    exact ⟨rfl, en, hm, hi, hl⟩
  · rintro ⟨rfl, en, hm, hi, hl⟩
    exact ⟨en, ⟨hm, hl⟩, hi, rfl⟩

end SafeStream

structure Keeps (s' : SafeStream cap) (buffer : CircularBuffer cap)
    (sswas : List (RingIndex cap × SSWriteAction cap)) (nextId : Nat) : Prop where
  buffer : s'.sender.sendingBuffer = buffer
  sswas : s'.sswas = sswas
  nextId : s'.nextId = nextId

def eventOf : WriteStatus → RingIndex cap → RingIndex cap → SendOutput cap
  | .kSuccess => .acknowledged
  | .kFail => .sendFailed
  | .kStop => .stopped

/-- Everything an operation can do to the pending writes: the next state, what the sender
hands out and the statuses that are given. -/
inductive StreamOutcome (s : SafeStream cap) :
    StreamOp → SafeStream cap → List (SendOutput cap) → List (Nat × WriteStatus) → Prop where
  | accepted {data s'} : s.sender.sendingBuffer.size + data.length ≤ cap →
      s.acceptedLength (.write data) = some data.length →
      Keeps s' (s.sender.sendingBuffer.push data).2
        (s.sswas ++ [((s.sender.sendingBuffer.end_.add data.length).sub 1, ⟨s.nextId,
          ⟨s.sender.sendingBuffer.end_, (s.sender.sendingBuffer.end_.add data.length).sub 1⟩⟩)])
        (s.nextId + 1) →
      StreamOutcome s (.write data) s' [] []
  | quiet {op s' events} : s.acceptedLength op = none →
      (∀ status b e, status ≠ .kStop → eventOf status b e ∉ events) →
      Keeps s' s.sender.sendingBuffer s.sswas s.nextId → StreamOutcome s op s' events []
  | finished {op s' status index} : s.acceptedLength op = none → status ≠ .kStop →
      Keeps s' (s.sender.sendingBuffer.erase (index.add 1))
        (SafeStream.finishWrites status s s.sender.sendingBuffer.begin_ index).1.sswas s.nextId →
      StreamOutcome s op s' [eventOf status s.sender.sendingBuffer.begin_ index]
        (SafeStream.finishWrites status s s.sender.sendingBuffer.begin_ index).2
  | stopped {id s' entry} : entry ∈ s.sswas → entry.2.id = id →
      s.sender.sendingChunks.select entry.2.indexRange = none →
      Keeps s' (s.sender.sendingBuffer.eraseFrom entry.2.indexRange.left) s.sswas s.nextId →
      StreamOutcome s (.stopWrite id) s'
        [.stopped s.sender.sendingBuffer.begin_ entry.2.indexRange.right] []

namespace SafeStream

variable [NeZero cap]

theorem handle_outcome {s : SafeStream cap} {op : StreamOp} {c : SendOp cap}
    (hn : s.acceptedLength op = none) (hnD : ∀ data, c ≠ .sendData data)
    (hnS : ∀ r, c ≠ .stop r) :
    StreamOutcome s op ({ s with sender := (s.sender.runOp c).1 }.handle
        (s.sender.runOp c).2).1 (s.sender.runOp c).2
      ({ s with sender := (s.sender.runOp c).1 }.handle (s.sender.runOp c).2).2 := by
  have ho := s.sender.runOp_outcome c
  generalize (s.sender.runOp c).2 = outs at ho
  generalize (s.sender.runOp c).1 = next at ho
  cases ho with
  | stored => exact absurd rfl (hnD _)
  | ignored _ b | retargeted _ b => exact .quiet hn (by simp) ⟨b.sendingBuffer, rfl, rfl⟩
  | acknowledged _ _ b =>
    simp only [handle, onEvent, append_nil]
    exact @StreamOutcome.finished _ s op _ .kSuccess _ hn (by simp) ⟨b.sendingBuffer, rfl, rfl⟩
  | waiting _ _ b => exact .quiet hn (by simp) ⟨b.sendingBuffer, rfl, rfl⟩
  | sent _ _ _ b =>
    refine .quiet hn ?_ ⟨b.sendingBuffer, rfl, rfl⟩
    intro st
    cases st <;> simp [eventOf]
  | exhausted _ _ _ b =>
    simp only [handle, onEvent, append_nil]
    refine @StreamOutcome.finished _ s op _ .kFail _ hn (by simp) ⟨?_, rfl, rfl⟩
    rw [RingIndex.sub_one_add_one]
    exact b.sendingBuffer
  | misplaced _ _ _ hot b =>
    simp only [handle, onEvent, append_nil]
    refine @StreamOutcome.finished _ s op _ .kFail _ hn (by simp) ⟨?_, rfl, rfl⟩
    rw [RingIndex.sub_one_add_one, CircularBuffer.erase_of_gt hot]
    exact b.sendingBuffer
  | stopped => exact absurd rfl (hnS _)

omit [NeZero cap] in
theorem write_outcome (s : SafeStream cap) (data : List UInt8) :
    StreamOutcome s (.write data) (s.write data) [] [] := by
  rcases lt_or_ge cap (s.sender.sendingBuffer.size + data.length) with he | fits
  · have hs := SafeStreamSendAction.sendData_of_gt he
    refine .quiet (by simp only [acceptedLength, hs]) (by simp) ?_
    simp only [write, hs]
    exact ⟨rfl, rfl, rfl⟩
  · have hs := SafeStreamSendAction.sendData_of_le fits
    refine .accepted fits (by simp only [acceptedLength, hs]) ?_
    simp only [write, hs]
    exact ⟨by simp, rfl, rfl⟩

theorem stop_outcome (s : SafeStream cap) (id : Nat) :
    StreamOutcome s (.stopWrite id) (s.runOp (.stopWrite id)).1 (s.events (.stopWrite id))
      (s.runOp (.stopWrite id)).2 := by
  simp only [runOp, events, call]
  cases hfind : s.sswas.find? (fun w => w.2.id == id) with
  | none => exact .quiet rfl (by simp) ⟨rfl, rfl, rfl⟩
  | some e =>
    have hm := mem_of_find?_eq_some hfind
    have hi : e.2.id = id := by simpa using find?_some hfind
    simp only [Option.map_some, SafeStreamSendAction.runOp, SafeStreamSendAction.stop]
    cases hselect : s.sender.sendingChunks.select e.2.indexRange with
    | some c => exact .quiet rfl (by simp) ⟨rfl, rfl, rfl⟩
    | none => exact .stopped hm hi hselect ⟨rfl, rfl, rfl⟩

theorem streamOp_outcome (s : SafeStream cap) (op : StreamOp) :
    StreamOutcome s op (s.runOp op).1 (s.events op) (s.runOp op).2 := by
  cases op with
  | write data => exact write_outcome s data
  | stopWrite id => exact stop_outcome s id
  | ackImpl i | requestRepeatImpl i | onStreamUpdate res | sendTask
  | repeatTimeout | writeStatus su st => exact handle_outcome rfl (by simp) (by simp)

end SafeStream

end Ae.SafeStream.Stream
