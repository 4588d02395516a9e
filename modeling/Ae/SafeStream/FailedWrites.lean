/- source: safe_stream/details/safe_stream_send_action.h, types/ring_index.h
   digest: A failed transport write is repeated from its last byte, not from its first one. -/

import Ae.SafeStream.SendAction

set_option autoImplicit false

namespace Ae.SafeStream.FailedWrites
open List Types.Ring Lib.EventRun Circular Message
open SendAction SafeStreamSendAction

/-- A chunk that was given to `PushData`, with the position of its last byte. -/
structure PushedChunk (cap : Nat) where
  range : RingIndexRange cap
  last : Nat
  deriving DecidableEq

/-- The sending history with its pushed chunks, in the order of their subscriptions; the positions
below `ackedTo` have been acknowledged. -/
structure ChunkHistory (cap : Nat) where
  sent : SendHistory cap
  chunks : List (PushedChunk cap)
  ackedTo : Nat

variable {cap : Nat}

def rangeOf (s : SafeStreamSendAction cap) : SendOutput cap → Option (RingIndexRange cap)
  | .pushData _ message => some (nextRange s message.data.length)
  | _ => none

namespace ChunkHistory

def init [NeZero cap] (config : SafeStreamConfig cap) (randomOffset : Nat)
    (memory : RingIndex cap → UInt8) : ChunkHistory cap :=
  ⟨.init config randomOffset memory, [], 0⟩

variable (h : ChunkHistory cap)

def action : SafeStreamSendAction cap := h.sent.action

def offset (index : RingIndex cap) : Nat :=
  h.action.sendingBuffer.begin_.distance index

def chunkOf (output : SendOutput cap) : Option (PushedChunk cap) :=
  (rangeOf h.action output).map fun range =>
    ⟨range, h.sent.base + h.action.onTheGoDataSize + range.left.distance range.right⟩

def ackedBy (ackedTo : Nat) : SendOutput cap → Nat
  | .acknowledged b e => max ackedTo (h.sent.base + b.distance e + 1)
  | _ => ackedTo

def step [NeZero cap] (h : ChunkHistory cap) (op : SendOp cap) : ChunkHistory cap :=
  { sent := h.sent.step op
    chunks := h.chunks ++ (h.action.runOp op).2.filterMap h.chunkOf
    ackedTo := (h.action.runOp op).2.foldl h.ackedBy h.ackedTo }

def Acknowledged (chunk : PushedChunk cap) : Prop :=
  chunk.last < h.ackedTo

instance (h : ChunkHistory cap) (chunk : PushedChunk cap) : Decidable (h.Acknowledged chunk) :=
  inferInstanceAs (Decidable (_ < _))

end ChunkHistory

open ChunkHistory

section

variable [NeZero cap]

/-- After a failed write of a chunk that nobody has acknowledged, `last_sent_` is at its first
byte or before it, and the next chunk starts there; for an acknowledged chunk it stays. -/
structure RetriesWrite (h : ChunkHistory cap) (k : Nat) (status : WriteStatus)
    (chunk : PushedChunk cap) : Prop where
  rewound : ¬ h.Acknowledged chunk →
    h.offset (h.step (.writeStatus k status)).action.lastSent ≤ h.offset chunk.range.left
  resent : ¬ h.Acknowledged chunk →
    ∀ next ∈ ((h.step (.writeStatus k status)).action.runOp .sendTask).2.filterMap
      (h.step (.writeStatus k status)).chunkOf,
      h.offset next.range.left ≤ h.offset chunk.range.left
  unchanged : h.Acknowledged chunk →
    (h.step (.writeStatus k status)).action.lastSent = h.action.lastSent

/-- An acknowledged chunk ends at `last_sent_` or behind it; of another one `last_sent_` has not
passed the first byte, or its last byte is not behind its first. -/
def CanRetry (h : ChunkHistory cap) (chunk : PushedChunk cap) : Prop :=
  if h.Acknowledged chunk then h.action.onTheGoDataSize ≤ h.offset chunk.range.right
  else h.action.onTheGoDataSize ≤ h.offset chunk.range.left ∨
    h.offset chunk.range.right ≤ h.offset chunk.range.left

omit [NeZero cap] in
instance (h : ChunkHistory cap) (chunk : PushedChunk cap) : Decidable (CanRetry h chunk) :=
  inferInstanceAs (Decidable (if h.Acknowledged chunk
    then h.action.onTheGoDataSize ≤ h.offset chunk.range.right
    else h.action.onTheGoDataSize ≤ h.offset chunk.range.left ∨
      h.offset chunk.range.right ≤ h.offset chunk.range.left))

end

section

variable (s : SafeStreamSendAction cap)

@[simp] theorem enqueueSend_sendSubs :
    s.enqueueSend.sendSubs = s.sendSubs := by
  rw [enqueueSend]
  split <;> rfl

@[simp] theorem enqueueRepeatTimeout_sendSubs :
    s.enqueueRepeatTimeout.sendSubs = s.sendSubs := by
  rw [enqueueRepeatTimeout]
  split
  · rfl
  · split <;> rfl

def Subscribes (s next : SafeStreamSendAction cap) (outputs : List (SendOutput cap)) : Prop :=
  next.sendSubs = s.sendSubs ++ (outputs.filterMap (rangeOf s)).map RingIndexRange.right

theorem subscribes_of_same {s n : SafeStreamSendAction cap} {outputs : List (SendOutput cap)}
    (he : n.sendSubs = s.sendSubs) (hq : outputs.filterMap (rangeOf s) = []) :
    Subscribes s n outputs := by
  rw [Subscribes, he, hq, map_nil, append_nil]

theorem sendChunk_subscribes :
    Subscribes s s.sendChunk.1 s.sendChunk.2 := by
  by_cases payload : s.maxPayloadSize = 0
  · rw [sendChunk, if_pos payload]
    exact subscribes_of_same rfl rfl
  · rcases s.getNextChunk_cases with ⟨d, hr, -, -⟩ | ⟨hr, -⟩ | ⟨hr, -⟩
    · rw [sendChunk_of_ok payload hr]
      split
      · exact subscribes_of_same (enqueueSend_sendSubs _) rfl
      · split
        · exact subscribes_of_same rfl rfl
        · rw [Subscribes, enqueueRepeatTimeout_sendSubs, enqueueSend_sendSubs]
          simp [rangeOf, pushData, DSpan.bytes_length]
    · rw [sendChunk_of_error payload hr]
      exact subscribes_of_same rfl rfl
    · rw [sendChunk_of_error payload hr]
      exact subscribes_of_same (enqueueSend_sendSubs _) rfl

theorem acknowledge_subscribes [NeZero cap] (s : SafeStreamSendAction cap)
    (co : UInt16) :
    Subscribes s (s.acknowledge co).1 (s.acknowledge co).2 := by
  rw [acknowledge]
  dsimp only
  split
  · exact subscribes_of_same rfl rfl
  · refine subscribes_of_same ?_ rfl
    rw [enqueueRepeatTimeout_sendSubs]
    exact enqueueSend_sendSubs _

theorem runOp_subscribes [NeZero cap] (s : SafeStreamSendAction cap) (op : SendOp cap) :
    Subscribes s (s.runOp op).1 (s.runOp op).2 := by
  cases op with
  | sendData data =>
    refine subscribes_of_same ?_ rfl
    rw [runOp, sendData]
    split
    · rfl
    · exact enqueueSend_sendSubs _
  | acknowledge co => exact acknowledge_subscribes s co
  | requestRepeat ro =>
    refine subscribes_of_same ?_ rfl
    rw [runOp, requestRepeat]
    dsimp only
    split
    · rfl
    · exact enqueueSend_sendSubs _
  | setMaxPayload mps => exact subscribes_of_same (enqueueSend_sendSubs _) rfl
  | sendTask =>
    rw [runOp]
    split
    · exact sendChunk_subscribes { s with sendEnqueued := false }
    · exact subscribes_of_same rfl rfl
  | repeatTimeout =>
    rw [runOp]
    split
    · exact subscribes_of_same rfl rfl
    · refine subscribes_of_same ?_ rfl
      rw [processRepeat]
      split
      · rfl
      · split
        · exact enqueueSend_sendSubs _
        · exact enqueueSend_sendSubs _
  | writeStatus su status =>
    rw [runOp]
    split
    · exact subscribes_of_same rfl rfl
    · refine subscribes_of_same ?_ rfl
      cases status with
      | kSuccess => rfl
      | _ =>
        rw [writeStatus]
        split
        · exact enqueueSend_sendSubs _
        · exact enqueueSend_sendSubs _
  | stop r =>
    rw [runOp, stop]
    split
    · exact subscribes_of_same rfl rfl
    · exact subscribes_of_same rfl rfl

end

section

variable [NeZero cap] {h : ChunkHistory cap}

def Subscribed (h : ChunkHistory cap) : Prop :=
  h.action.sendSubs = h.chunks.map fun chunk => chunk.range.right

theorem Subscribed.step (hs : Subscribed h) (op : SendOp cap) : Subscribed (h.step op) := by
  have hsb := runOp_subscribes h.action op
  have hr : ((h.action.runOp op).2.filterMap h.chunkOf).map (fun c => c.range.right) =
      ((h.action.runOp op).2.filterMap (rangeOf h.action)).map RingIndexRange.right := by
    rw [map_filterMap, map_filterMap]
    refine filterMap_congr fun o _ => ?_
    rw [chunkOf, Option.map_map]
    rfl
  rw [Subscribed, ChunkHistory.step, map_append, hr, ← hs]
  exact hsb

variable {status : WriteStatus}

omit [NeZero cap] in
theorem writeStatus_failed (s : SafeStreamSendAction cap) (ei : RingIndex cap)
    (hf : status ≠ .kSuccess) :
    (s.writeStatus ei status).lastSent =
      if s.sendingBuffer.begin_.distance ei < s.onTheGoDataSize then ei
      else s.lastSent := by
  have hr : (if (IndexComparable.mk s.lastSent s.sendingBuffer.begin_).gt ei then
        { s with lastSent := ei }.enqueueSend else s.enqueueSend).lastSent =
      if s.sendingBuffer.begin_.distance ei < s.onTheGoDataSize then ei
      else s.lastSent := by
    by_cases hl : s.sendingBuffer.begin_.distance ei < s.onTheGoDataSize
    · rw [if_pos ((IndexComparable.gt_iff _ _ _).mpr hl), if_pos hl]
      exact (enqueueSend_fields _).2.2.2.1
    · rw [if_neg (mt (IndexComparable.gt_iff _ _ _).mp hl), if_neg hl]
      exact (enqueueSend_fields _).2.2.2.1
  cases status with
  | kSuccess => exact absurd rfl hf
  | kFail | kStop => exact hr

theorem Subscribed.step_failed (hs : Subscribed h) {k : Nat} {c : PushedChunk cap}
    (hfn : h.chunks[k]? = some c) (hf : status ≠ .kSuccess) :
    (h.step (.writeStatus k status)).action.lastSent =
      if h.offset c.range.right < h.action.onTheGoDataSize then c.range.right
      else h.action.lastSent := by
  have sub : h.action.sendSubs[k]? = some c.range.right := by
    rw [hs, getElem?_map, hfn]
    rfl
  have hr : (h.action.runOp (.writeStatus k status)).1 =
      h.action.writeStatus c.range.right status := by
    rw [runOp]
    simp only [sub]
  change (h.action.runOp (.writeStatus k status)).1.lastSent = _
  rw [hr]
  exact writeStatus_failed h.action c.range.right hf

omit [NeZero cap] in
theorem chunkOf_left {o : SendOutput cap} {n : PushedChunk cap}
    (hp : h.chunkOf o = some n) : n.range.left = h.action.lastSent := by
  cases o with
  | pushData i m =>
    cases hp
    rfl
  | _ => cases hp

theorem Subscribed.retries_iff (hs : Subscribed h) {k : Nat} {chunk : PushedChunk cap}
    (hfn : h.chunks[k]? = some chunk) (hf : status ≠ .kSuccess) :
    RetriesWrite h k status chunk ↔ CanRetry h chunk := by
  have hl := hs.step_failed hfn hf
  have ho : h.offset h.action.lastSent = h.action.onTheGoDataSize := rfl
  by_cases acked : h.Acknowledged chunk
  · rw [CanRetry, if_pos acked]
    constructor
    · intro hr
      have he := hr.unchanged acked
      by_contra hp
      -- the chunk lies before `last_sent_` and becomes the new position
      rw [hl, if_pos (Nat.not_le.mp hp)] at he
      rw [he, ho] at hp
      exact hp le_rfl
    · intro hbh
      refine ⟨absurd acked, absurd acked, fun _ => ?_⟩
      rw [hl, if_neg (Nat.not_lt.mpr hbh)]
  · have hrw : h.offset (h.step (.writeStatus k status)).action.lastSent ≤
        h.offset chunk.range.left ↔ h.action.onTheGoDataSize ≤ h.offset chunk.range.left ∨
          h.offset chunk.range.right ≤ h.offset chunk.range.left := by
      rw [hl]
      split
      · omega
      · rw [ho]
        omega
    rw [CanRetry, if_neg acked, ← hrw]
    constructor
    · exact fun hr => hr.rewound acked
    · intro hb
      refine ⟨fun _ => hb, fun _ n hps => ?_, fun hy => absurd hy acked⟩
      obtain ⟨o, -, hc⟩ := mem_filterMap.mp hps
      rw [chunkOf_left hc]
      exact hb

def oneByteOps : List (SendOp 8) := [.setMaxPayload 1, .sendData [1, 2], .sendTask]

def twoBytesSent (config : SafeStreamConfig cap) : ChunkHistory cap :=
  run step (.init config 0 (fun _ => 0)) [.setMaxPayload 3, .sendData [1, 2], .sendTask]

/-- The same chunk, acknowledged, and in a ring of eight once around to its indices. -/
def indicesReused (config : SafeStreamConfig cap) : ChunkHistory cap :=
  run step (twoBytesSent config)
    [.acknowledge 1, .sendData [3, 4, 5], .sendTask, .acknowledge 4, .sendData [6, 7], .sendTask,
      .acknowledge 6, .sendData [8, 9, 10], .sendTask]

def firstTwo : PushedChunk cap := ⟨⟨.ofNat 0, .ofNat 1⟩, 1⟩

end

end Ae.SafeStream.FailedWrites
