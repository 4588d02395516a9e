/- source: safe_stream/details/safe_stream_recv_action.h
   digest: The receiving side of a safe stream and its history of emitted and carried bytes. -/

import Ae.SafeStream.Circular
import Ae.SafeStream.Message
import Ae.SafeStream.ReceivingChunks

/-!
The three task subscriptions are flags: a scheduled task is a set flag, and the
task clears it when it has run. Scheduling is assumed to succeed. A call whose
precondition fails (`subspan` past the end of the span) has no result.
-/

set_option autoImplicit false

namespace Ae.SafeStream.RecvAction
open Types.Ring Circular Message ReceivingChunks

structure SafeStreamRecvAction (cap : Nat) where
  config : SafeStreamConfig cap
  buffer : CircularBuffer cap
  chunks : Option (ReceiveChunkList cap)
  sessionOffset : Nat
  lastEmitted : RingIndex cap
  recvEnqueued : Bool
  ackTimer : Bool
  missingTimer : Bool

inductive RecvOutput where
  | receive (data : List UInt8)
  | sendAck (index : UInt16)
  | sendRepeatRequest (index : UInt16)
  deriving DecidableEq

variable {cap : Nat}

/-- `std::span::subspan`, defined only for an offset inside the span. -/
def subspan (data : List UInt8) (offset : Nat) : Option (List UInt8) :=
  if offset ≤ data.length then some (data.drop offset) else none

namespace SafeStreamRecvAction

def init [NeZero cap] (config : SafeStreamConfig cap) (memory : RingIndex cap → UInt8) :
    SafeStreamRecvAction cap :=
  ⟨config, .ofOffset 0 memory, none, 0, .ofNat 0, false, false, false⟩

variable (s : SafeStreamRecvAction cap)

def enqueueRecv : SafeStreamRecvAction cap :=
  if s.recvEnqueued then s else { s with recvEnqueued := true }

def enqueueAck : SafeStreamRecvAction cap :=
  if s.ackTimer then s else { s with ackTimer := true }

def enqueueMissing : SafeStreamRecvAction cap :=
  if s.missingTimer then s else { s with missingTimer := true }

/-- The part of a received range that is not before the buffer begin: the left end and
the span that starts there. -/
def clip (left : RingIndex cap) (data : List UInt8) : Option (RingIndex cap × List UInt8) :=
  if s.buffer.begin_.distance left > s.config.windowSize then
    (subspan data (left.distance s.buffer.begin_)).map (fun span => (s.buffer.begin_, span))
  else
    some (left, data)

def rightOf (left : RingIndex cap) (data : List UInt8) : RingIndex cap :=
  (left.add data.length).sub 1

def handleData (receivedIndex : RingIndex cap)
    (repeatCount : UInt8) (data : List UInt8) : Option (SafeStreamRecvAction cap) :=
  let right := rightOf receivedIndex data
  if s.buffer.begin_.distance right > s.config.windowSize then
    some s.enqueueAck
  else
    match s.clip receivedIndex data, s.chunks with
    | some (left, span), some list =>
      match list.addChunk ⟨left, right⟩ repeatCount with
      | (.kDuplicate, list) => some { s with chunks := some list }
      | (.kAddRepeated, list) => some { s with chunks := some list }.enqueueAck
      | (_, list) =>
        -- the error of a failed insertion is only logged
        some { s with chunks := some list, buffer := (s.buffer.insert left span).2 }.enqueueRecv
    | _, _ => none

/-- The first message, or a reset to a new offset, starts a session. -/
def resets (index : UInt16) (message : DataMessage) : Bool :=
  match s.chunks with
  | none => true
  | some _ => message.reset && decide (s.sessionOffset ≠ index.toNat)

def startSession [NeZero cap] (s : SafeStreamRecvAction cap) (index : UInt16) :
    SafeStreamRecvAction cap :=
  { s with
    sessionOffset := index.toNat
    buffer := s.buffer.reset index.toNat
    chunks := some (.ofBegin (s.buffer.reset index.toNat).begin_) }

def synced [NeZero cap] (s : SafeStreamRecvAction cap) (index : UInt16)
    (message : DataMessage) : SafeStreamRecvAction cap :=
  if s.resets index message then s.startSession index else s

def receivedIndex [NeZero cap] (index : UInt16) (message : DataMessage) : RingIndex cap :=
  .ofNat (index.toNat + message.deltaOffset.toNat)

def pushData [NeZero cap] (s : SafeStreamRecvAction cap) (index : UInt16)
    (message : DataMessage) : Option (SafeStreamRecvAction cap) :=
  (s.synced index message).handleData (receivedIndex index message) message.repeatCount message.data

def handleCompletedChains : SafeStreamRecvAction cap × List RecvOutput :=
  match s.chunks with
  | none => (s, [])
  | some list =>
    if list.empty then (s, []) else
      let recvRange := list.receiveChunk
      if recvRange.isEmpty then (s.enqueueMissing, []) else
        match s.buffer.read recvRange.left (recvRange.distance + 1) with
        | .error _ => (s.enqueueMissing, [])
        | .ok dspan =>
          let buffer := s.buffer.erase (recvRange.right.add 1)
          let list := (list.acknowledge recvRange.right).setBufferBegin buffer.begin_
          ({ s with lastEmitted := recvRange.right, chunks := some list, buffer }.enqueueAck,
            [.receive dspan.bytes])

def handleAcknowledgement : List RecvOutput :=
  [.sendAck (UInt16.ofNat s.lastEmitted.value)]

def handleMissing : SafeStreamRecvAction cap × List RecvOutput :=
  match s.chunks with
  | none => (s, [])
  | some list =>
    match list.findMissedChunk with
    | none => (s, [])
    | some missed =>
      ({ s with missingTimer := false }.enqueueMissing,
        [.sendRepeatRequest (UInt16.ofNat missed.left.value)])

end SafeStreamRecvAction

/-- A call from the peer, or one of the three tasks. `recvTask` may come at any moment. -/
inductive RecvOp where
  | pushData (index : UInt16) (message : DataMessage)
  | recvTask
  | ackTask
  | missingTask

namespace SafeStreamRecvAction

def runTask (s : SafeStreamRecvAction cap) : RecvOp → SafeStreamRecvAction cap × List RecvOutput
  | .pushData _ _ => (s, [])
  | .recvTask => { s with recvEnqueued := false }.handleCompletedChains
  | .ackTask =>
    if s.ackTimer then ({ s with ackTimer := false }, s.handleAcknowledgement) else (s, [])
  | .missingTask =>
    if s.missingTimer then { s with missingTimer := false }.handleMissing else (s, [])

end SafeStreamRecvAction

/-- The action together with what happened so far: whether a call had no result, the
bytes emitted, the ring indices emitted in the current session, and for each ring
position the bytes that messages of the session carried for it since the buffer begin
last passed it. -/
structure RecvHistory (cap : Nat) where
  action : SafeStreamRecvAction cap
  fault : Bool
  emitted : List UInt8
  session : List (RingIndex cap)
  carried : RingIndex cap → List UInt8

def carry (carried : RingIndex cap → List UInt8) (left : RingIndex cap) (data : List UInt8) :
    RingIndex cap → List UInt8 :=
  fun q => carried q ++
    (List.range data.length).filterMap (fun i => if left.add i = q then data[i]? else none)

namespace RecvHistory

def init [NeZero cap] (config : SafeStreamConfig cap) (memory : RingIndex cap → UInt8) :
    RecvHistory cap :=
  ⟨.init config memory, false, [], [], fun _ => []⟩

def nextIndices (h : RecvHistory cap) (n : Nat) : List (RingIndex cap) :=
  (List.range n).map h.action.buffer.begin_.add

def record (h : RecvHistory cap) : RecvOutput → RecvHistory cap
  | .receive data =>
    { h with
      emitted := h.emitted ++ data
      session := h.session ++ h.nextIndices data.length
      carried := fun q =>
        if h.action.buffer.begin_.distance q < data.length then [] else h.carried q }
  | _ => h

def step [NeZero cap] (h : RecvHistory cap) : RecvOp → RecvHistory cap
  | .pushData index message =>
    if h.fault then h else
      match h.action.pushData index message with
      | none => { h with fault := true }
      | some action =>
        let fresh := h.action.resets index message
        { h with
          action
          session := if fresh then [] else h.session
          carried := carry (if fresh then fun _ => [] else h.carried)
            (SafeStreamRecvAction.receivedIndex index message) message.data }
  | op =>
    if h.fault then h else
      { (h.action.runTask op).2.foldl record h with action := (h.action.runTask op).1 }

end RecvHistory

end Ae.SafeStream.RecvAction
