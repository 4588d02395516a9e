/- source: safe_stream/details/{safe_stream_send_action,sending_chunk_list}.h,
     safe_stream/safe_stream.h
   digest: `Stop` takes back one write only when that write is alone at the end of the queue. -/

import Ae.SafeStream.SendAction

set_option autoImplicit false

namespace Ae.SafeStream.StopExactness
open List Types.Ring Lib.EventRun Circular Message QueueRefinement
open SendAction CircularBuffer SafeStreamSendAction

/-- The range that a `SendData` returned, and the stream positions of its bytes. -/
structure AcceptedWrite (cap : Nat) where
  range : RingIndexRange cap
  start : Nat
  length : Nat
  deriving DecidableEq

variable {cap : Nat}

def AcceptedWrite.Has (w : AcceptedWrite cap) (p : Nat) : Prop :=
  w.start ≤ p ∧ p < w.start + w.length

instance (w : AcceptedWrite cap) (p : Nat) : Decidable (w.Has p) :=
  inferInstanceAs (Decidable (_ ∧ _))

/-- The action together with the accepted bytes, the stream positions of those that its buffer
holds and of those that were given to `PushData`, and the accepted writes. -/
structure StopHistory (cap : Nat) where
  action : SafeStreamSendAction cap
  stream : List UInt8
  queued : List Nat
  pushed : List Nat
  writes : List (AcceptedWrite cap)

namespace StopHistory

def init [NeZero cap] (config : SafeStreamConfig cap) (randomOffset : Nat)
    (memory : RingIndex cap → UInt8) : StopHistory cap :=
  ⟨.init config randomOffset memory, [], [], [], []⟩

variable (h : StopHistory cap)

def pushedBy : SendOutput cap → List Nat
  | .pushData _ message =>
    (h.queued.drop h.action.onTheGoDataSize).take message.data.length
  | _ => []

def writeOf : SendOp cap → List (AcceptedWrite cap)
  | .sendData data =>
    match (h.action.sendData data).1 with
    | .ok range => [⟨range, h.stream.length, data.length⟩]
    | .error _ => []
  | _ => []

def step [NeZero cap] (h : StopHistory cap) (op : SendOp cap) : StopHistory cap :=
  let next := (h.action.runOp op).1
  { action := next
    stream := h.stream ++ h.action.accepted op
    queued := ((h.queued ++ List.range' h.stream.length (h.action.accepted op).length).drop
      (h.action.sendingBuffer.begin_.distance next.sendingBuffer.begin_)).take
        next.sendingBuffer.size
    pushed := h.pushed ++ (h.action.runOp op).2.flatMap h.pushedBy
    writes := h.writes ++ h.writeOf op }

def Queued (w : AcceptedWrite cap) : Prop := ∃ p ∈ h.queued, w.Has p

def PushedPart (w : AcceptedWrite cap) : Prop := ∃ p ∈ h.pushed, w.Has p

def offset (w : AcceptedWrite cap) : Nat :=
  h.action.sendingBuffer.begin_.distance w.range.left

instance (h : StopHistory cap) (w : AcceptedWrite cap) : Decidable (h.Queued w) :=
  inferInstanceAs (Decidable (∃ p ∈ h.queued, w.Has p))

instance (h : StopHistory cap) (w : AcceptedWrite cap) : Decidable (h.PushedPart w) :=
  inferInstanceAs (Decidable (∃ p ∈ h.pushed, w.Has p))

end StopHistory

def Concerns : SendOutput cap → AcceptedWrite cap → Prop
  | .stopped bufferBegin stopIndex, w =>
    (IndexComparable.mk w.range.right bufferBegin).le stopIndex = true
  | _, _ => False

/-- `Stop` has no effect on a write that was pushed, and takes exactly the bytes of another one
out of the queue. -/
structure StopsExactly [NeZero cap] (h : StopHistory cap) (w : AcceptedWrite cap) : Prop where
  refused : h.PushedPart w → h.action.stop w.range = (h.action, [])
  removed : ¬ h.PushedPart w →
    (h.step (.stop w.range)).queued = h.queued.filter (fun p => ¬ w.Has p)
  positioned : ¬ h.PushedPart w → (h.step (.stop w.range)).action.onTheGoDataSize ≤
      (h.step (.stop w.range)).action.sendingBuffer.size
  alone : ¬ h.PushedPart w → ∀ event ∈ (h.action.stop w.range).2, ∀ other ∈ h.writes,
    other ≠ w → h.Queued other → ¬ Concerns event other

def ChunkInside (h : StopHistory cap) (w : AcceptedWrite cap) : Prop :=
  ∃ c ∈ h.action.sendingChunks.chunks,
    w.range.inRange c.range.left h.action.sendingChunks.bufferBegin = true

/-- The queue ends with the write, `last_sent_` has not passed its begin, and the other writes
in the queue end behind it. -/
structure LastAndAlone (h : StopHistory cap) (w : AcceptedWrite cap) : Prop where
  last : ∀ i p, h.queued[i]? = some p → (w.Has p ↔ h.offset w ≤ i)
  unreached : h.action.onTheGoDataSize ≤ h.offset w
  inside : h.action.onTheGoDataSize ≤ h.action.sendingBuffer.size
  others : ∀ other ∈ h.writes, other ≠ w → h.Queued other →
    h.action.sendingBuffer.begin_.distance w.range.right <
      h.action.sendingBuffer.begin_.distance other.range.right

/-- With a chunk inside the range the write was pushed, or it has left the queue; without one it
was not pushed, and it is the last in the queue. -/
def CanStop (h : StopHistory cap) (w : AcceptedWrite cap) : Prop :=
  (ChunkInside h w ∧ (h.PushedPart w ∨
    ¬ h.Queued w ∧ h.action.onTheGoDataSize ≤ h.action.sendingBuffer.size)) ∨
  (¬ ChunkInside h w ∧ ¬ h.PushedPart w ∧ LastAndAlone h w)

section

def StopHistory.byteAt (h : StopHistory cap) (p : Nat) : UInt8 := h.stream.getD p 0

structure Held (h : StopHistory cap) : Prop where
  accepted : ∀ p ∈ h.queued, p < h.stream.length
  bytes : contents h.action.sendingBuffer = h.queued.map h.byteAt

theorem Held.length {h : StopHistory cap} (hh : Held h) :
    h.queued.length = h.action.sendingBuffer.size := by
  rw [← contents_length, hh.bytes, length_map]

theorem held_init [NeZero cap] (c : SafeStreamConfig cap) (ro : Nat)
    (m : RingIndex cap → UInt8) : Held (.init c ro m) where
  accepted _ mem := absurd mem not_mem_nil
  bytes := contents_eq_nil (RingIndex.distance_self _)

/-- What an accepted write adds to the buffer; one that fills the ring exactly is stored behind
the end, which does not move. -/
theorem contents_push_take {b : CircularBuffer cap} {data : List UInt8}
    (fits : b.size + data.length ≤ cap) :
    contents (b.push data).2 = (contents b ++ data).take (b.push data).2.size := by
  rcases lt_or_eq_of_le fits with room | exact_fill
  · rw [← contents_length (b.push data).2, contents_push room]
    exact take_length.symm
  · have closes : b.begin_.distance b.end_ + data.length = cap := exact_fill
    have size : (b.push data).2.size = b.size := by
      rw [size, (push_bounds b data).1, push, insert_exact closes]
      rfl
    rw [size, take_left' (contents_length b), contents, contents, size]
    refine map_congr_left fun j mem => ?_
    have before := mem_range.mp mem
    have below := size_lt b
    rw [push, insert_at closes.le (by omega)]
    exact if_neg (Nat.not_le.mpr before)

variable [NeZero cap] {h : StopHistory cap} {op : SendOp cap}

theorem runOp_shortens (s : SafeStreamSendAction cap) (hn : ∀ data, op ≠ .sendData data) :
    (∃ to_, (s.runOp op).1.sendingBuffer = s.sendingBuffer.erase to_) ∨
      ∃ from_, (s.runOp op).1.sendingBuffer = s.sendingBuffer.eraseFrom from_ := by
  have he : s.sendingBuffer.erase s.sendingBuffer.begin_ = s.sendingBuffer :=
    erase_of_le (by simp)
  have ho := s.runOp_outcome op
  generalize s.runOp op = result at ho ⊢
  obtain ⟨n, os⟩ := result
  cases ho with
  | stored b => exact absurd rfl (hn _)
  | ignored _ b | retargeted _ b => exact .inl ⟨_, b.sendingBuffer.trans he.symm⟩
  | acknowledged _ _ b => exact .inl ⟨_, b.sendingBuffer⟩
  | waiting _ _ b | sent _ _ _ b => exact .inl ⟨_, b.sendingBuffer.trans he.symm⟩
  | exhausted _ _ _ b => exact .inl ⟨_, b.sendingBuffer⟩
  | misplaced _ _ _ _ b => exact .inl ⟨_, b.sendingBuffer.trans he.symm⟩
  | stopped _ b => exact .inr ⟨_, b.sendingBuffer⟩

omit [NeZero cap] in
theorem accepted_of_other (s : SafeStreamSendAction cap) (hn : ∀ data, op ≠ .sendData data) :
    s.accepted op = [] := by
  cases op with
  | sendData data => exact absurd rfl (hn data)
  | _ => rfl

theorem Held.of_cut (hh : Held h) {k n : Nat} (hn : h.action.accepted op = [])
    (hm : h.action.sendingBuffer.begin_.distance (h.action.runOp op).1.sendingBuffer.begin_ = k)
    (hsz : (h.action.runOp op).1.sendingBuffer.size = n)
    (hbt : contents (h.action.runOp op).1.sendingBuffer =
      ((contents h.action.sendingBuffer).drop k).take n) : Held (h.step op) := by
  have queued : (h.step op).queued = (h.queued.drop k).take n := by
    simp only [StopHistory.step, hn, hm, hsz, length_nil, range'_zero, append_nil]
  have hs : (h.step op).stream = h.stream := by
    simp only [StopHistory.step, hn, append_nil]
  constructor
  · intro p mem
    rw [queued] at mem
    rw [hs]
    exact hh.accepted p (mem_of_mem_drop (mem_of_mem_take mem))
  · have hb : (h.step op).byteAt = h.byteAt := by
      funext p
      rw [StopHistory.byteAt, hs, StopHistory.byteAt]
    rw [queued, hb, map_take, map_drop, ← hh.bytes]
    exact hbt

theorem Held.of_same (hh : Held h) (hn : h.action.accepted op = [])
    (he : (h.action.runOp op).1.sendingBuffer = h.action.sendingBuffer) : Held (h.step op) := by
  refine hh.of_cut hn (k := 0) (by simp [he]) (by rw [he]) ?_
  rw [he, drop_zero]
  exact (take_of_length_le (le_of_eq (contents_length _))).symm

theorem Held.shortened (hh : Held h) (hot : ∀ data, op ≠ .sendData data) : Held (h.step op) := by
  have hn := accepted_of_other h.action hot
  rcases runOp_shortens h.action hot with ⟨to_, he⟩ | ⟨f, he⟩
  · rcases lt_or_ge h.action.sendingBuffer.size
        (h.action.sendingBuffer.begin_.distance to_) with ho | inside
    · exact hh.of_same hn (he.trans (erase_of_gt ho))
    · have hs := erase_size inside
      refine hh.of_cut hn (by rw [he, erase_of_le inside])
        (by rw [he, hs]) ?_
      rw [he, contents_erase inside]
      exact (take_of_length_le (by simp)).symm
  · rcases lt_or_ge h.action.sendingBuffer.size
        (h.action.sendingBuffer.begin_.distance f) with ho | inside
    · exact hh.of_same hn
        (he.trans (eraseFrom_past_end ho.le))
    · refine hh.of_cut hn (k := 0) (n := h.action.sendingBuffer.begin_.distance f)
        (by simp [he, eraseFrom_of_le inside])
        (by rw [he, eraseFrom_of_le inside]; rfl) ?_
      rw [he, contents_eraseFrom inside, drop_zero]

theorem map_range'_getD (s data : List UInt8) :
    (range' s.length data.length).map (fun p => (s ++ data).getD p 0) = data := by
  apply ext_getElem
  · simp
  · intro i _ hb
    rw [getElem_map, getElem_range', Nat.one_mul, getD_eq_getElem?_getD,
      getElem?_append_right (Nat.le_add_right ..), Nat.add_sub_cancel_left,
      getElem?_eq_getElem hb, Option.getD_some]

theorem Held.sendData (hh : Held h) (data : List UInt8) : Held (h.step (.sendData data)) := by
  have run : (h.action.runOp (.sendData data)).1 = (h.action.sendData data).2 := rfl
  rcases lt_or_ge cap (h.action.sendingBuffer.size + data.length) with hr | fits
  · refine hh.of_same (accepted_of_gt hr) ?_
    rw [run, sendData_of_gt hr]
  · have ha := accepted_of_le fits
    have hb : (h.action.runOp (.sendData data)).1.sendingBuffer =
        (h.action.sendingBuffer.push data).2 := by
      rw [run, sendData_of_le fits]
      exact (enqueueSend_fields _).2.1
    have hs : (h.step (.sendData data)).stream = h.stream ++ data := by
      rw [StopHistory.step, ha]
    have hq : (h.step (.sendData data)).queued =
        (h.queued ++ range' h.stream.length data.length).take
          (h.action.sendingBuffer.push data).2.size := by
      simp only [StopHistory.step, ha, hb, (push_bounds _ data).1,
        RingIndex.distance_self, drop_zero]
    constructor
    · intro p hm
      rw [hq] at hm
      rw [hs, length_append]
      rcases mem_append.mp (mem_of_mem_take hm) with ho | new
      · have := hh.accepted p ho
        omega
      · have := mem_range'_1.mp new
        omega
    · have hbt : (h.queued ++ range' h.stream.length data.length).map
          (h.step (.sendData data)).byteAt = contents h.action.sendingBuffer ++ data := by
        rw [map_append, hh.bytes]
        congr 1
        · refine map_congr_left fun p hm => ?_
          rw [StopHistory.byteAt, hs, getD_eq_getElem?_getD,
            getElem?_append_left (hh.accepted p hm), StopHistory.byteAt, getD_eq_getElem?_getD]
        · refine Eq.trans (map_congr_left fun p _ => ?_) (map_range'_getD h.stream data)
          rw [StopHistory.byteAt, hs]
      rw [hq, map_take, hbt, ← contents_push_take fits]
      exact congrArg contents hb

theorem Held.step (hh : Held h) (op : SendOp cap) : Held (h.step op) := by
  cases op with
  | sendData data => exact hh.sendData data
  | _ => exact hh.shortened (by simp)

end

section

theorem take_eq_filter_iff {α : Type} (P : α → Prop) [DecidablePred P] (l : List α) (k : Nat) :
    l.take k = l.filter (fun x => ¬ P x) ↔ ∀ i x, l[i]? = some x → (P x ↔ k ≤ i) := by
  induction l generalizing k with
  | nil => simp
  | cons a l ih =>
    cases k with
    | zero =>
      rw [take_zero, eq_comm, filter_eq_nil_iff]
      constructor
      · intro ha i x hf
        have hc := ha x (mem_of_getElem? hf)
        simpa using hc
      · intro ha x hm
        obtain ⟨i, hf⟩ := mem_iff_getElem?.mp hm
        simpa using ha i x hf
    | succ k =>
      rw [take_succ_cons]
      by_cases hc : P a
      · -- the first element is kept by the cut
        refine iff_of_false (fun he => ?_) fun ha => ?_
        · have hm : a ∈ (a :: l).filter (fun x => ¬ P x) := he ▸ mem_cons_self
          simp [hc] at hm
        · exact absurd ((ha 0 a rfl).mp hc) (Nat.not_succ_le_zero k)
      · have h1 : (a :: l).filter (fun x => ¬ P x) = a :: l.filter (fun x => ¬ P x) :=
          filter_cons_of_pos (by simpa using hc)
        rw [h1, cons_inj_right, ih]
        constructor
        · rintro hl (_ | i) x hf
          · cases hf
            exact iff_of_false hc (Nat.not_succ_le_zero k)
          · rw [hl i x hf, Nat.succ_le_succ_iff]
        · intro ha i x hf
          rw [ha (i + 1) x hf, Nat.succ_le_succ_iff]

variable {h : StopHistory cap} {w : AcceptedWrite cap}

theorem stop_of_inside (hi : ChunkInside h w) : h.action.stop w.range = (h.action, []) := by
  rw [stop]
  cases hs : h.action.sendingChunks.select w.range with
  | some c => rfl
  | none =>
    obtain ⟨c, hm, hf⟩ := hi
    exact absurd hf (find?_eq_none.mp hs c hm)

theorem stop_of_outside (ho : ¬ ChunkInside h w) :
    h.action.stop w.range =
      ({ h.action with sendingBuffer := h.action.sendingBuffer.eraseFrom w.range.left },
        [.stopped h.action.sendingBuffer.begin_ w.range.right]) := by
  rw [stop]
  cases selected : h.action.sendingChunks.select w.range with
  | none => rfl
  | some c =>
    have hf := find?_some selected
    exact absurd ⟨c, mem_of_find?_eq_some selected, hf⟩ ho

theorem eraseFrom_size (b : CircularBuffer cap) (f : RingIndex cap) :
    (b.eraseFrom f).begin_ = b.begin_ ∧
      (b.eraseFrom f).size = min (b.begin_.distance f) b.size := by
  rcases lt_or_ge b.size (b.begin_.distance f) with ho | inside
  · rw [eraseFrom_past_end ho.le]
    exact ⟨rfl, (min_eq_right ho.le).symm⟩
  · rw [eraseFrom_of_le inside, min_eq_left inside]
    exact ⟨rfl, rfl⟩

variable [NeZero cap]

theorem queued_of_inside (hh : Held h) (hi : ChunkInside h w) :
    (h.step (.stop w.range)).queued = h.queued := by
  have hr : h.action.runOp (.stop w.range) = (h.action, []) := stop_of_inside hi
  simp only [StopHistory.step, hr, accepted, RingIndex.distance_self,
    length_nil, range'_zero, append_nil, drop_zero]
  exact take_of_length_le hh.length.le

theorem queued_of_outside (hh : Held h) (ho : ¬ ChunkInside h w) :
    (h.step (.stop w.range)).queued = h.queued.take (h.offset w) := by
  have hr : h.action.runOp (.stop w.range) = _ := stop_of_outside ho
  obtain ⟨he, hs⟩ := eraseFrom_size h.action.sendingBuffer w.range.left
  simp only [StopHistory.step, hr, accepted, he, hs,
    RingIndex.distance_self, length_nil, range'_zero, append_nil, drop_zero]
  rw [← hh.length]
  exact take_eq_take_min.symm

theorem Held.stops_iff_of_inside (hhl : Held h) (hi : ChunkInside h w) :
    StopsExactly h w ↔ h.PushedPart w ∨
      ¬ h.Queued w ∧ h.action.onTheGoDataSize ≤ h.action.sendingBuffer.size := by
  have hs := stop_of_inside hi
  have hn : (h.step (.stop w.range)).action = h.action := congrArg Prod.fst hs
  have hq := queued_of_inside hhl hi
  constructor
  · intro hst
    by_cases hp : h.PushedPart w
    · exact .inl hp
    · refine .inr ⟨?_, hn ▸ hst.positioned hp⟩
      rintro ⟨p, hm, hh⟩
      have hr := hst.removed hp
      rw [hq] at hr
      rw [hr] at hm
      simp [hh] at hm
  · rintro (hp | ⟨hg, hpl⟩)
    · exact ⟨fun _ => hs, absurd hp, absurd hp, absurd hp⟩
    · refine ⟨fun _ => hs, fun _ => ?_, fun _ => hn ▸ hpl, fun _ e hm => ?_⟩
      · rw [hq, eq_comm, filter_eq_self]
        intro p hm
        simpa using fun hh => hg ⟨p, hm, hh⟩
      · rw [hs] at hm
        cases hm

theorem Held.stops_iff_of_outside (hh : Held h) (ho : ¬ ChunkInside h w) :
    StopsExactly h w ↔ ¬ h.PushedPart w ∧ LastAndAlone h w := by
  have hst := stop_of_outside ho
  have hq := queued_of_outside hh ho
  obtain ⟨hsm, hsz⟩ := eraseFrom_size h.action.sendingBuffer w.range.left
  have hnx : (h.step (.stop w.range)).action =
      { h.action with sendingBuffer := h.action.sendingBuffer.eraseFrom w.range.left } :=
    congrArg Prod.fst hst
  have hon : (h.step (.stop w.range)).action.onTheGoDataSize = h.action.onTheGoDataSize := by
    rw [hnx, onTheGoDataSize, hsm]
    rfl
  have hpl : (h.step (.stop w.range)).action.onTheGoDataSize ≤
      (h.step (.stop w.range)).action.sendingBuffer.size ↔
      h.action.onTheGoDataSize ≤ h.offset w ∧
        h.action.onTheGoDataSize ≤ h.action.sendingBuffer.size := by
    rw [hon, hnx, hsz]
    exact Nat.le_min
  have hc (o : AcceptedWrite cap) :
      (∀ e ∈ (h.action.stop w.range).2, ¬ Concerns e o) ↔
        h.action.sendingBuffer.begin_.distance w.range.right <
          h.action.sendingBuffer.begin_.distance o.range.right := by
    rw [hst, forall_mem_singleton, Concerns, IndexComparable.le_iff, not_le]
  constructor
  · intro hs
    have hu : ¬ h.PushedPart w := by
      intro hp
      have huh := congrArg Prod.snd (hst.symm.trans (hs.refused hp))
      cases huh
    obtain ⟨hun, hi⟩ := hpl.mp (hs.positioned hu)
    refine ⟨hu, ?_, hun, hi, fun o hm hn hho => ?_⟩
    · exact (take_eq_filter_iff w.Has _ _).mp (hq.symm.trans (hs.removed hu))
    · exact (hc o).mp fun e he =>
        hs.alone hu e he o hm hn hho
  · rintro ⟨hu, ha⟩
    refine ⟨fun hp => absurd hp hu, fun _ => ?_, fun _ => ?_, ?_⟩
    · exact hq.trans ((take_eq_filter_iff w.Has _ _).mpr ha.last)
    · exact hpl.mpr ⟨ha.unreached, ha.inside⟩
    · intro _ e he o hm hn hho
      exact (hc o).mpr (ha.others o hm hn hho) e he

theorem Held.stops_iff (hh : Held h) (w : AcceptedWrite cap) : StopsExactly h w ↔ CanStop h w := by
  by_cases inside : ChunkInside h w
  · rw [hh.stops_iff_of_inside inside]
    constructor
    · exact fun hc => .inl ⟨inside, hc⟩
    · rintro (⟨-, hc⟩ | ⟨ho, -⟩)
      · exact hc
      · exact absurd inside ho
  · rw [hh.stops_iff_of_outside inside]
    constructor
    · exact fun hc => .inr ⟨inside, hc⟩
    · rintro (⟨hp, -⟩ | ⟨-, hc⟩)
      · exact absurd hp inside
      · exact hc

/-- In every state the buffer holds the bytes of the queued positions, and `Stop` of a write is
exact just when a chunk that starts inside its range tells that it was pushed, or when it was not
pushed and is the last write in the queue, with the other ones ending behind it. -/
theorem stop_exact_iff (config : SafeStreamConfig cap) (randomOffset : Nat)
    (memory : RingIndex cap → UInt8) (ops : List (SendOp cap)) (w : AcceptedWrite cap) :
    let h := run StopHistory.step (.init config randomOffset memory) ops
    contents h.action.sendingBuffer = h.queued.map h.byteAt ∧ (StopsExactly h w ↔ CanStop h w) := by
  have hh : Held (run StopHistory.step (.init config randomOffset memory) ops) :=
    run_of_invariant (G := fun _ _ => True) (fun _ op hh _ => hh.step op)
      (held_init config randomOffset memory) along_true
  exact ⟨hh.bytes, hh.stops_iff w⟩

theorem stop_exact_iff_alone :
    StopsExactly (run StopHistory.step (.init smallConfig 6 (fun _ => 0)) [.sendData [1, 2, 3]])
      ⟨⟨.ofNat 6, .ofNat 0⟩, 0, 3⟩ := by
  refine (stop_exact_iff smallConfig 6 (fun _ => 0) [.sendData [1, 2, 3]]
    ⟨⟨.ofNat 6, .ofNat 0⟩, 0, 3⟩).2.mpr (.inr ⟨?_, by decide, ?_, by decide, by decide, by decide⟩)
  · rintro ⟨c, hm, -⟩
    cases hm
  · intro i p hf
    match i, hf with
    | 0, hf | 1, hf | 2, hf => cases hf; decide

def twoWrites (config : SafeStreamConfig cap) : StopHistory cap :=
  run StopHistory.step (.init config 0 (fun _ => 0)) [.sendData [1, 2], .sendData [3]]

def twoWritesPushed (config : SafeStreamConfig cap) : StopHistory cap :=
  run StopHistory.step (twoWrites config) [.setMaxPayload 3, .sendTask]

def firstWrite : AcceptedWrite cap := ⟨⟨.ofNat 0, .ofNat 1⟩, 0, 2⟩

def secondWrite : AcceptedWrite cap := ⟨⟨.ofNat 2, .ofNat 2⟩, 2, 1⟩

/-- Stopping the first of two waiting writes drops both, and stopping the second one is told of
both. A write that was pushed in a chunk with the one before it is stopped all the same, and
`last_sent_` then lies behind the end. -/
theorem stop_drops_later_write :
    let waiting := twoWrites smallConfig
    let p := twoWritesPushed smallConfig
    (waiting.writes = [firstWrite, secondWrite] ∧ waiting.pushed = [] ∧
      waiting.queued = [0, 1, 2] ∧ (waiting.step (.stop firstWrite.range)).queued = [] ∧
      ¬ StopsExactly waiting firstWrite ∧ ¬ StopsExactly waiting secondWrite) ∧
    (p.writes = [firstWrite, secondWrite] ∧ p.pushed = [0, 1, 2] ∧
      (p.step (.stop secondWrite.range)).queued = [0, 1] ∧
      (p.step (.stop secondWrite.range)).action.onTheGoDataSize = 3 ∧
      ¬ StopsExactly p secondWrite) := by
  refine ⟨⟨by decide, by decide, by decide, by decide, fun hs => ?_, fun hs => ?_⟩,
    by decide, by decide, by decide, by decide, fun hs => ?_⟩
  · exact absurd (hs.removed (by decide)) (by decide)
  · exact hs.alone (by decide) (.stopped (.ofNat 0) (.ofNat 2)) (by decide) firstWrite
      (by decide) (by decide) (by decide) rfl
  · have hu := congrArg Prod.snd (hs.refused (by decide))
    exact absurd hu (by decide)

end

end Ae.SafeStream.StopExactness
