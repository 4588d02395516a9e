/- source: safe_stream/safe_stream.h
   digest: The status of a write agrees with what happened to its bytes. -/

import Ae.SafeStream.Stream

/-!
A write waits under the ring index of its last byte. As long as no write fills the ring
exactly and none of zero length meets an empty buffer, that index lies in the buffer and
its offset from the begin is the one of the write's last byte in the accepted stream.
-/

set_option autoImplicit false

namespace Ae.SafeStream.WriteAgreement
open List Types.Ring Lib.EventRun Circular Message SendAction SafeStream.Stream
open CircularBuffer hiding buffer

/-- The stream together with the number of accepted bytes, the stream positions of the
bytes that the sender's buffer holds, the acknowledged positions, the first position and
the length of every accepted write, and the statuses given so far. -/
structure WriteHistory (cap : Nat) where
  stream : SafeStream cap
  total : Nat
  queued : List Nat
  acked : List Nat
  writes : List (Nat × Nat)
  statuses : List (Nat × WriteStatus)

variable {cap : Nat}

namespace WriteHistory

def init [NeZero cap] (config : SafeStreamConfig cap) (randomOffset : Nat)
    (memory : RingIndex cap → UInt8) : WriteHistory cap :=
  ⟨.init config randomOffset memory, 0, [], [], [], []⟩

variable (h : WriteHistory cap)

def buffer : CircularBuffer cap := h.stream.sender.sendingBuffer

def covered (b e : RingIndex cap) : List Nat :=
  h.queued.take (b.distance e + 1)

def ackedBy : SendOutput cap → List Nat
  | .acknowledged b e => h.covered b e
  | _ => []

/-- The stream position `k` places after the begin; behind the end it is the position of a
byte that is yet to be accepted. -/
def position (k : Nat) : Nat :=
  h.queued.getD k (h.total + (k - h.queued.length))

def step [NeZero cap] (h : WriteHistory cap) (op : StreamOp) : WriteHistory cap :=
  let next := (h.stream.runOp op).1
  let added := h.stream.acceptedLength op
  { stream := next
    total := h.total + added.getD 0
    queued := ((h.queued ++ List.range' h.total (added.getD 0)).drop
      (h.buffer.begin_.distance next.sender.sendingBuffer.begin_)).take
        next.sender.sendingBuffer.size
    acked := h.acked ++ (h.stream.events op).flatMap h.ackedBy
    writes := h.writes ++ added.toList.map (fun length => (h.total, length))
    statuses := h.statuses ++ (h.stream.runOp op).2 }

end WriteHistory

open WriteHistory

def StatusOnce (h : WriteHistory cap) : Prop := (h.statuses.map Prod.fst).Nodup

variable [NeZero cap] (h : WriteHistory cap)

/-- A success comes with an acknowledgement, and then every byte of the write is
acknowledged. -/
def SuccessCovered (op : StreamOp) : Prop :=
  ∀ id, (id, .kSuccess) ∈ (h.stream.runOp op).2 →
    ∃ start length, h.writes[id]? = some (start, length) ∧
      ∃ b e, .acknowledged b e ∈ h.stream.events op ∧
        ∀ p, start ≤ p → p < start + length → p ∈ h.acked ∨ p ∈ h.covered b e

/-- A failure comes with a rejection of the last byte; an empty write stands for the byte
before it. -/
def FailCovered (op : StreamOp) : Prop :=
  ∀ id, (id, .kFail) ∈ (h.stream.runOp op).2 →
    ∃ start length, h.writes[id]? = some (start, length) ∧
      ∃ b e, .sendFailed b e ∈ h.stream.events op ∧ ∀ p, p + 1 = start + length → p ∈ h.covered b e

def PendingAfter (op : StreamOp) : Prop :=
  ∀ b e, .acknowledged b e ∈ h.stream.events op → ∀ entry ∈ (h.step op).stream.sswas,
    ∃ start length, h.writes[entry.2.id]? = some (start, length) ∧
      h.position (b.distance e) + 1 < start + length

def StatusesAgree (op : StreamOp) : Prop :=
  SuccessCovered h op ∧ FailCovered h op ∧ PendingAfter h op

/-- A write does not fill the ring exactly, and an empty one finds bytes before it. -/
def WriteFits : StreamOp → Prop
  | .write data => h.buffer.size + data.length ≠ cap ∧ 0 < h.buffer.size + data.length
  | _ => True

def StopKeeps : StreamOp → Prop
  | .stopWrite id => ∀ entry ∈ h.stream.sswas, entry.2.id = id →
    (h.stream.sender.sendingChunks.select entry.2.indexRange).isSome ∨
      h.buffer.size ≤ h.buffer.begin_.distance entry.2.indexRange.left
  | _ => True

def RejectsWhole : SendOutput cap → Prop
  | .sendFailed b e => ∀ entry ∈ h.stream.sswas, ∀ w ∈ h.writes[entry.2.id]?,
    w.1 ≤ h.position (b.distance e) → w.1 + w.2 ≤ h.position (b.distance e) + 1
  | _ => True

def Orderly (op : StreamOp) : Prop :=
  WriteFits h op ∧ StopKeeps h op ∧ ∀ event ∈ h.stream.events op, RejectsWhole h event

variable {h}

omit [NeZero cap] in
theorem stopped_kept {id : Nat} (hg : StopKeeps h (.stopWrite id))
    {e : RingIndex cap × SSWriteAction cap} (hm : e ∈ h.stream.sswas) (hi : e.2.id = id)
    (hsl : h.stream.sender.sendingChunks.select e.2.indexRange = none) :
    h.buffer.eraseFrom e.2.indexRange.left = h.buffer := by
  rcases hg e hm hi with hs | hpast
  · rw [hsl] at hs
    simp at hs
  · exact eraseFrom_past_end hpast

instance (h : WriteHistory cap) : (op : StreamOp) → Decidable (WriteFits h op)
  | .write _ => inferInstanceAs (Decidable (_ ∧ _))
  | .stopWrite _ | .ackImpl _ | .requestRepeatImpl _ | .onStreamUpdate _ | .sendTask
  | .repeatTimeout | .writeStatus _ _ => inferInstanceAs (Decidable True)

instance (h : WriteHistory cap) : (op : StreamOp) → Decidable (StopKeeps h op)
  | .stopWrite _ => inferInstanceAs (Decidable (∀ entry ∈ h.stream.sswas, _ → _ ∨ _))
  | .write _ | .ackImpl _ | .requestRepeatImpl _ | .onStreamUpdate _ | .sendTask
  | .repeatTimeout | .writeStatus _ _ => inferInstanceAs (Decidable True)

instance (h : WriteHistory cap) : (event : SendOutput cap) → Decidable (RejectsWhole h event)
  | .sendFailed _ _ => inferInstanceAs (Decidable (∀ entry ∈ h.stream.sswas,
      ∀ w ∈ h.writes[entry.2.id]?, _ → _))
  | .pushData _ _ | .acknowledged _ _ | .stopped _ _ => inferInstanceAs (Decidable True)

instance (h : WriteHistory cap) (op : StreamOp) : Decidable (Orderly h op) :=
  inferInstanceAs (Decidable (_ ∧ _ ∧ _))

def ids (h : WriteHistory cap) : List Nat :=
  h.stream.sswas.map (fun w => w.2.id) ++ h.statuses.map Prod.fst

structure Tracked (h : WriteHistory cap) : Prop where
  once : (ids h).Nodup
  numbered : ∀ id ∈ ids h, id < h.stream.nextId
  counted : h.writes.length = h.stream.nextId

theorem tracked_init (c : SafeStreamConfig cap) (ro : Nat)
    (m : RingIndex cap → UInt8) : Tracked (init c ro m) :=
  ⟨nodup_nil, by simp [ids, init, SafeStream.init], rfl⟩

omit [NeZero cap] in
theorem finished_perm (s : SafeStream cap) (st : WriteStatus) (b e : RingIndex cap) (d : List Nat) :
    ((SafeStream.finishWrites st s b e).1.sswas.map (fun w => w.2.id) ++
      (d ++ (SafeStream.finishWrites st s b e).2.map Prod.fst)).Perm
    (s.sswas.map (fun w => w.2.id) ++ d) := by
  have hs := (filter_append_perm (fun w => (IndexComparable.mk w.1 b).le e) s.sswas).map
    (fun w => w.2.id)
  rw [map_append] at hs
  simp only [SafeStream.finishWrites, map_map, Function.comp_def]
  apply perm_append_comm.trans
  rw [append_assoc]
  exact (hs.append_left d).trans perm_append_comm

theorem ids_step (h : WriteHistory cap) (op : StreamOp) :
    (h.stream.acceptedLength op = none ∧ (ids (h.step op)).Perm (ids h) ∧
      (h.step op).stream.nextId = h.stream.nextId) ∨
    ((h.stream.acceptedLength op).isSome ∧ (ids (h.step op)).Perm (h.stream.nextId :: ids h) ∧
      (h.step op).stream.nextId = h.stream.nextId + 1) := by
  have ho := h.stream.streamOp_outcome op
  have hi : ids (h.step op) = (h.stream.runOp op).1.sswas.map (fun w => w.2.id) ++
      (h.statuses.map Prod.fst ++ (h.stream.runOp op).2.map Prod.fst) := by
    rw [← map_append]
    rfl
  have hnx : (h.step op).stream.nextId = (h.stream.runOp op).1.nextId := rfl
  rw [hi, hnx]
  generalize (h.stream.runOp op).2 = given at ho
  generalize (h.stream.runOp op).1 = next at ho
  generalize h.stream.events op = events at ho
  cases ho with
  | accepted _ hl k =>
    refine .inr ⟨by simp [hl], ?_, k.nextId⟩
    rw [k.sswas, map_append]
    simp only [map_cons, map_nil, append_nil, append_assoc]
    exact perm_middle
  | quiet hn _ k => exact .inl ⟨hn, by simp [ids, k.sswas], k.nextId⟩
  | finished hn _ k =>
    refine .inl ⟨hn, ?_, k.nextId⟩
    rw [k.sswas]
    exact finished_perm h.stream _ _ _ _
  | stopped _ _ _ k => exact .inl ⟨rfl, by simp [ids, k.sswas], k.nextId⟩

theorem tracked_step (hi : Tracked h) (op : StreamOp) : Tracked (h.step op) := by
  have hc : (h.step op).writes.length =
      h.writes.length + (h.stream.acceptedLength op).toList.length := by
    simp [step]
  rcases ids_step h op with ⟨hn, hp, hid⟩ | ⟨hs, hp, hid⟩
  · refine ⟨hp.nodup_iff.mpr hi.once, ?_, ?_⟩
    · intro id hm
      rw [hid]
      exact hi.numbered id (hp.mem_iff.mp hm)
    · rw [hc, hn, hid]
      exact hi.counted
  · have hf : h.stream.nextId ∉ ids h := by
      intro hm
      exact lt_irrefl _ (hi.numbered _ hm)
    obtain ⟨l, hl⟩ := Option.isSome_iff_exists.mp hs
    refine ⟨hp.nodup_iff.mpr (nodup_cons.mpr ⟨hf, hi.once⟩), ?_, ?_⟩
    · intro id hm
      rw [hid]
      rcases mem_cons.mp (hp.mem_iff.mp hm) with rfl | hold
      · exact Nat.lt_succ_self _
      · exact Nat.lt_succ_of_lt (hi.numbered id hold)
    · rw [hc, hl, hid, hi.counted]
      rfl

omit [NeZero cap] in
theorem Tracked.statusOnce (hi : Tracked h) : StatusOnce h :=
  (nodup_append.mp hi.once).2.1

/-- A pending write of `length` bytes from `start` on, seen from a buffer begin at stream
position `base`: its last byte is held, and its bytes before the begin are acknowledged. -/
structure Placed (h : WriteHistory cap) (base : Nat) (entry : RingIndex cap × SSWriteAction cap)
    (start length : Nat) : Prop where
  recorded : h.writes[entry.2.id]? = some (start, length)
  inside : h.buffer.begin_.distance entry.1 < h.buffer.size
  last : base + h.buffer.begin_.distance entry.1 + 1 = start + length
  acked : ∀ p, start ≤ p → p < base → p ∈ h.acked

structure PendingInv (h : WriteHistory cap) (base : Nat) : Prop where
  queued : h.queued = List.range' base h.buffer.size
  total : h.total = base + h.buffer.size
  placed : ∀ entry ∈ h.stream.sswas, ∃ start length, Placed h base entry start length

theorem pendingInv_init (c : SafeStreamConfig cap) (ro : Nat)
    (m : RingIndex cap → UInt8) : PendingInv (init c ro m) 0 := by
  have hs : (init c ro m).buffer.size = 0 := RingIndex.distance_self _
  refine ⟨by rw [hs]; rfl, by rw [hs]; rfl, ?_⟩
  intro e hm
  cases hm

section

variable {h : WriteHistory cap} {base : Nat} {op : StreamOp}

omit [NeZero cap] in
theorem PendingInv.position_eq (hi : PendingInv h base) (k : Nat) : h.position k = base + k := by
  unfold position
  rw [hi.queued, hi.total, length_range', getD_eq_getElem?_getD]
  rcases lt_or_ge k h.buffer.size with hl | hge
  · rw [getElem?_range' hl]
    simp
  · rw [getElem?_eq_none (by simpa using hge)]
    simp only [Option.getD_none]
    omega

omit [NeZero cap] in
theorem PendingInv.mem_covered (hi : PendingInv h base) (b e : RingIndex cap) (p : Nat) :
    p ∈ h.covered b e ↔ base ≤ p ∧ p < base + h.buffer.size ∧ p ≤ base + b.distance e := by
  unfold covered
  rw [hi.queued]
  rcases le_total (b.distance e + 1) h.buffer.size with hle | hle
  · rw [take_range'_of_length_ge hle, mem_range'_1]
    omega
  · rw [take_range'_of_length_le hle, mem_range'_1]
    omega

theorem step_recorded {id : Nat} {w : Nat × Nat} (hw : h.writes[id]? = some w) :
    (h.step op).writes[id]? = some w := by
  obtain ⟨hl, -⟩ := List.getElem?_eq_some_iff.mp hw
  simp only [step]
  rw [getElem?_append_left hl, hw]

theorem step_acked {p : Nat} (hp : p ∈ h.acked) : p ∈ (h.step op).acked :=
  mem_append_left _ hp

theorem step_queued (hn : h.stream.acceptedLength op = none) :
    (h.step op).queued = (h.queued.drop (h.buffer.begin_.distance (h.step op).buffer.begin_)).take
        (h.step op).buffer.size := by
  simp [step, hn, buffer]

theorem step_total (hn : h.stream.acceptedLength op = none) : (h.step op).total = h.total := by
  simp [step, hn]

theorem Placed.step {e : RingIndex cap × SSWriteAction cap} {s length : Nat}
    (hp : Placed h base e s length) (hb : (h.step op).buffer.begin_ = h.buffer.begin_)
    (hsz : h.buffer.size ≤ (h.step op).buffer.size) :
    Placed (h.step op) base e s length := by
  refine ⟨step_recorded hp.recorded, ?_, ?_, ?_⟩
  · rw [hb]
    exact lt_of_lt_of_le hp.inside hsz
  · rw [hb]
    exact hp.last
  · intro p hs hbs
    exact step_acked (hp.acked p hs hbs)

variable (hi : PendingInv h base)
include hi

theorem PendingInv.of_same
    (hn : h.stream.acceptedLength op = none) (hb : (h.step op).buffer = h.buffer)
    (hp : ∀ e ∈ (h.step op).stream.sswas, e ∈ h.stream.sswas) :
    PendingInv (h.step op) base := by
  refine ⟨?_, ?_, ?_⟩
  · rw [step_queued hn, hb, RingIndex.distance_self, drop_zero, hi.queued]
    exact take_range'_of_length_le le_rfl
  · rw [step_total hn, hb]
    exact hi.total
  · intro e hm
    obtain ⟨s, l, hpl⟩ := hi.placed e (hp e hm)
    exact ⟨s, l, hpl.step (by rw [hb]) (by rw [hb])⟩

theorem PendingInv.accept (ht : Tracked h)
    {data : List UInt8} (hg : WriteFits h (.write data)) (hf : h.buffer.size + data.length ≤ cap)
    (hl : h.stream.acceptedLength (.write data) = some data.length)
    (k : Keeps (h.stream.runOp (.write data)).1 (h.buffer.push data).2
      (h.stream.sswas ++ [((h.buffer.end_.add data.length).sub 1,
        ⟨h.stream.nextId, ⟨h.buffer.end_, (h.buffer.end_.add data.length).sub 1⟩⟩)])
      (h.stream.nextId + 1)) : PendingInv (h.step (.write data)) base := by
  obtain ⟨hnt, hn⟩ := hg
  have hlt : h.buffer.size + data.length < cap := by omega
  have hb : (h.step (.write data)).buffer.begin_ = h.buffer.begin_ := by
    change (h.stream.runOp (.write data)).1.sender.sendingBuffer.begin_ = _
    rw [k.buffer]
    exact (push_bounds h.buffer data).1
  have hs : (h.step (.write data)).buffer.size = h.buffer.size + data.length := by
    change (h.stream.runOp (.write data)).1.sender.sendingBuffer.size = _
    rw [k.buffer]
    have hin : (h.buffer.push data).2.size = _ := insert_size hlt
    rw [hin]
    change max h.buffer.size (h.buffer.size + data.length) = _
    omega
  refine ⟨?_, ?_, ?_⟩
  · have hq : (h.step (.write data)).queued =
        ((h.queued ++ range' h.total data.length).drop
          (h.buffer.begin_.distance (h.step (.write data)).buffer.begin_)).take
            (h.step (.write data)).buffer.size := by
      simp [step, hl, buffer]
    rw [hq, hb, hs, RingIndex.distance_self, drop_zero, hi.queued, hi.total,
      range'_append_1, take_range'_of_length_le le_rfl]
  · rw [hs, ← Nat.add_assoc, ← hi.total]
    simp [step, hl]
  · intro e hm
    have hm : e ∈ (h.stream.runOp (.write data)).1.sswas := hm
    rw [k.sswas] at hm
    rcases mem_append.mp hm with hh | hnew
    · obtain ⟨s, l, hp⟩ := hi.placed e hh
      exact ⟨s, l, hp.step hb (by rw [hs]; exact Nat.le_add_right _ _)⟩
    · obtain rfl := mem_singleton.mp hnew
      -- the last index is one before the new end, also for an empty write
      have he : h.buffer.begin_.distance (h.buffer.end_.add data.length) =
          h.buffer.size + data.length := RingIndex.distance_add_right hlt
      have hls : h.buffer.begin_.distance ((h.buffer.end_.add data.length).sub 1) =
          h.buffer.size + data.length - 1 := by
        rw [RingIndex.distance_sub_one, he, if_neg (by omega)]
      refine ⟨h.total, data.length, ?_, ?_, ?_, ?_⟩
      · simp [step, hl, ← ht.counted]
      · rw [hb, hs, hls]
        omega
      · rw [hb, hls, hi.total]
        omega
      · intro p hst hbs
        have := hi.total
        omega

theorem PendingInv.lost_acked {s : WriteStatus}
    {e : RingIndex cap} (hwh : ∀ ev ∈ h.stream.events op, RejectsWhole h ev)
    (hh : h.stream.events op = [eventOf s h.buffer.begin_ e])
    (hn : s ≠ .kStop) {en : RingIndex cap × SSWriteAction cap} {st l : Nat}
    (hhl : en ∈ h.stream.sswas) (hp : Placed h base en st l)
    (hhf : h.buffer.begin_.distance e < h.buffer.begin_.distance en.1) {p : Nat}
    (hs : st ≤ p) (hl : p ≤ base + h.buffer.begin_.distance e) : p ∈ (h.step op).acked := by
  have hin := hp.inside
  have hls := hp.last
  rcases lt_or_ge p base with hg | hheld
  · exact step_acked (hp.acked p hs hg)
  cases s with
  | kSuccess =>
    apply mem_append_right
    rw [hh]
    simp only [eventOf, flatMap_cons, flatMap_nil, append_nil, ackedBy]
    exact (hi.mem_covered _ _ _).mpr (by omega)
  | kFail =>
    have hr : RejectsWhole h (.sendFailed h.buffer.begin_ e) := by
      apply hwh
      rw [hh]
      exact mem_singleton_self _
    have hw := hr en hhl (st, l) hp.recorded
    rw [hi.position_eq] at hw
    simp only at hw
    omega
  | kStop => exact absurd rfl hn

/-- An acknowledgement or a rejection up to `e` leaves the writes pending that end after
it, and moves the begin behind `e` unless `e` lies past the end. -/
theorem PendingInv.finish {s : WriteStatus}
    {e : RingIndex cap} (hw : ∀ ev ∈ h.stream.events op, RejectsWhole h ev)
    (hhv : h.stream.events op = [eventOf s h.buffer.begin_ e])
    (hn : h.stream.acceptedLength op = none) (hnS : s ≠ .kStop)
    (k : Keeps (h.stream.runOp op).1 (h.buffer.erase (e.add 1))
      (SafeStream.finishWrites s h.stream h.buffer.begin_ e).1.sswas h.stream.nextId) :
    ∃ base', PendingInv (h.step op) base' := by
  have hb : (h.step op).buffer = h.buffer.erase (e.add 1) := k.buffer
  have hl : ∀ en ∈ (h.step op).stream.sswas, en ∈ h.stream.sswas ∧
      h.buffer.begin_.distance e < h.buffer.begin_.distance en.1 := by
    intro en hm
    have hm : en ∈ (h.stream.runOp op).1.sswas := hm
    rw [k.sswas] at hm
    exact SafeStream.mem_finishWrites_pending.mp hm
  rcases lt_or_ge (h.buffer.begin_.distance e) h.buffer.size with hlt | hge
  · obtain ⟨ht, hbg, hs⟩ := erase_through hlt
    refine ⟨base + (h.buffer.begin_.distance e + 1), ?_, ?_, ?_⟩
    · rw [step_queued hn, hb, hbg, hs, ht, hi.queued, drop_range',
        mul_one, take_range'_of_length_le le_rfl]
    · rw [step_total hn, hb, hs, hi.total]
      omega
    · intro en hm
      obtain ⟨hhl, hh⟩ := hl en hm
      obtain ⟨st, l, hp⟩ := hi.placed en hhl
      have hd := erase_through_distance hlt hh
      have hin := hp.inside
      have hls := hp.last
      refine ⟨st, l, step_recorded hp.recorded, ?_, ?_, ?_⟩
      · rw [hb, hd, hs]
        omega
      · rw [hb, hd]
        omega
      · intro p hst hbs
        exact hi.lost_acked hw hhv hnS hhl hp hh hst (by omega)
  · refine ⟨base, hi.of_same hn ?_ (fun en hm => (hl en hm).1)⟩
    rw [hb, erase_past_end hge]

theorem pending_step (ht : Tracked h) (hor : Orderly h op) :
    ∃ base', PendingInv (h.step op) base' := by
  obtain ⟨hf, hst, hw⟩ := hor
  have ho := h.stream.streamOp_outcome op
  generalize hevents : h.stream.events op = events at ho
  generalize hgiven : (h.stream.runOp op).2 = given at ho
  generalize hnext : (h.stream.runOp op).1 = next at ho
  cases ho with
  | accepted hle hl k =>
    subst hnext
    exact ⟨base, hi.accept ht hf hle hl k⟩
  | quiet hn _ k =>
    subst hnext
    refine ⟨base, hi.of_same hn k.buffer ?_⟩
    intro e hm
    exact k.sswas ▸ hm
  | finished hn hnS k =>
    subst hnext
    exact hi.finish hw hevents hn hnS k
  | stopped he hid hs k =>
    subst hnext
    refine ⟨base, hi.of_same rfl ?_ ?_⟩
    · exact k.buffer.trans (stopped_kept hst he hid hs)
    · intro e hm
      exact k.sswas ▸ hm

end

omit [NeZero cap] in
theorem PendingInv.covers {base : Nat} (inv : PendingInv h base)
    {en : RingIndex cap × SSWriteAction cap} {s l : Nat}
    (hp : Placed h base en s l) {e : RingIndex cap}
    (hr : h.buffer.begin_.distance en.1 ≤ h.buffer.begin_.distance e) {p : Nat}
    (hh : base ≤ p) (hb : p < s + l) : p ∈ h.covered h.buffer.begin_ e := by
  have hi := hp.inside
  have hl := hp.last
  exact (inv.mem_covered _ _ _).mpr (by omega)

theorem PendingInv.agree_finish {base : Nat} {op : StreamOp} (hi : PendingInv h base)
    {st : WriteStatus} {e : RingIndex cap}
    (hh : h.stream.events op = [eventOf st h.buffer.begin_ e])
    (hg : (h.stream.runOp op).2 = (SafeStream.finishWrites st h.stream h.buffer.begin_ e).2)
    (hss : (h.stream.runOp op).1.sswas =
      (SafeStream.finishWrites st h.stream h.buffer.begin_ e).1.sswas) :
    StatusesAgree h op := by
  refine ⟨?_, ?_, ?_⟩
  · intro id hm
    rw [hg, SafeStream.mem_finishWrites_given] at hm
    obtain ⟨rfl, en, he, rfl, hl⟩ := hm
    obtain ⟨s, l, hpl⟩ := hi.placed en he
    refine ⟨s, l, hpl.recorded, h.buffer.begin_, e, by simp [hh, eventOf], ?_⟩
    intro p hs hen
    rcases lt_or_ge p base with hgn | hheld
    · exact .inl (hpl.acked p hs hgn)
    · exact .inr (hi.covers hpl hl hheld hen)
  · intro id hm
    rw [hg, SafeStream.mem_finishWrites_given] at hm
    obtain ⟨rfl, en, he, rfl, hl⟩ := hm
    obtain ⟨s, l, hpl⟩ := hi.placed en he
    refine ⟨s, l, hpl.recorded, h.buffer.begin_, e, by simp [hh, eventOf], ?_⟩
    intro p hp
    have hls := hpl.last
    exact hi.covers hpl hl (by omega) (by omega)
  · intro b e' ha en hm
    have hm : en ∈ (h.stream.runOp op).1.sswas := hm
    rw [hss] at hm
    obtain ⟨he, hhf⟩ := SafeStream.mem_finishWrites_pending.mp hm
    obtain ⟨s, l, hpl⟩ := hi.placed en he
    have hsm : b = h.buffer.begin_ ∧ e' = e := by
      rw [hh] at ha
      cases st with
      | kSuccess => simpa [eventOf] using ha
      | kFail | kStop => simp [eventOf] at ha
    obtain ⟨rfl, rfl⟩ := hsm
    refine ⟨s, l, hpl.recorded, ?_⟩
    rw [hi.position_eq]
    have hls := hpl.last
    omega

theorem statuses_agree {base : Nat} (hi : PendingInv h base) (op : StreamOp) :
    StatusesAgree h op := by
  have ho := h.stream.streamOp_outcome op
  generalize hh : h.stream.events op = es at ho
  generalize hgiven : (h.stream.runOp op).2 = given at ho
  generalize hnx : (h.stream.runOp op).1 = next at ho
  -- a step that gives no status and acknowledges nothing agrees with everything
  have hs : given = [] → (∀ b e, .acknowledged b e ∉ es) → StatusesAgree h op := by
    rintro rfl hnA
    refine ⟨?_, ?_, ?_⟩
    · intro id hm
      simp [hgiven] at hm
    · intro id hm
      simp [hgiven] at hm
    · intro b e ha
      exact absurd (hh ▸ ha) (hnA b e)
  cases ho with
  | accepted => exact hs rfl (by simp)
  | quiet _ hn _ => exact hs rfl (fun b e => hn .kSuccess b e (by simp))
  | finished _ _ k => exact hi.agree_finish hh hgiven (hnx ▸ k.sswas)
  | stopped => exact hs rfl (by simp)

/-- In every run a write action receives at most one status. When moreover no write fills
the ring exactly, no empty write meets an empty buffer, no stop shortens the buffer and no
rejection ends inside a pending write, the statuses agree with the fate of the bytes. -/
theorem write_statuses_agree_of_orderly (config : SafeStreamConfig cap) (randomOffset : Nat)
    (memory : RingIndex cap → UInt8) (ops : List StreamOp) :
    Always step StatusOnce (init config randomOffset memory) ops ∧
      (Along step Orderly (init config randomOffset memory) ops →
        Along step StatusesAgree (init config randomOffset memory) ops) := by
  have ht := tracked_init config randomOffset memory
  constructor
  · exact Always.of_invariant (fun _ op hi _ => tracked_step hi op)
      (fun _ hi => hi.statusOnce) ht along_true
  · intro ho
    refine Along.of_invariant (I := fun h => Tracked h ∧ ∃ base, PendingInv h base) ?_ ?_
      ⟨ht, 0, pendingInv_init config randomOffset memory⟩ ho
    · rintro h op ⟨ht, base, hi⟩ hg
      exact ⟨tracked_step ht op, pending_step hi ht hg⟩
    · rintro h op ⟨-, base, hi⟩ -
      exact statuses_agree hi op

/-- Two writes, one of them empty, wait for the same byte across the end of the ring and
succeed with its acknowledgement; a third one is rejected after its last repeat. -/
theorem write_statuses_agree_of_orderly_rejected :
    Along step Orderly (init smallConfig 6 (fun _ => 0))
        [.onStreamUpdate 11, .write [1, 2, 3], .write [], .sendTask, .ackImpl 6, .ackImpl 0,
          .write [4], .sendTask, .repeatTimeout, .sendTask, .repeatTimeout, .sendTask] ∧
      (run step (init smallConfig 6 (fun _ => 0))
        [.onStreamUpdate 11, .write [1, 2, 3], .write [], .sendTask, .ackImpl 6, .ackImpl 0,
          .write [4], .sendTask, .repeatTimeout, .sendTask, .repeatTimeout, .sendTask]).statuses =
        [(0, .kSuccess), (1, .kSuccess), (2, .kFail)] ∧
      Along step StatusesAgree (init smallConfig 6 (fun _ => 0))
        [.onStreamUpdate 11, .write [1, 2, 3], .write [], .sendTask, .ackImpl 6, .ackImpl 0,
          .write [4], .sendTask, .repeatTimeout, .sendTask, .repeatTimeout, .sendTask] := by
  refine ⟨by decide, by decide, ?_⟩
  exact (write_statuses_agree_of_orderly smallConfig 6 (fun _ => 0) _).2 (by decide)

/-- A write that fills the ring exactly is accepted and lost, and waits under the index
before the begin: the acknowledgement of a later byte leaves it pending. -/
theorem exact_fill_write_stays_pending :
    ¬ Along step StatusesAgree (init smallConfig 0 (fun _ => 0))
      [.onStreamUpdate 11, .write [1, 2, 3, 4, 5, 6, 7, 8], .write [9], .sendTask, .ackImpl 0] := by
  rintro ⟨-, -, -, -, ⟨-, -, hp⟩, -⟩
  obtain ⟨s, l, hw, he⟩ := hp (.ofNat 0) (.ofNat 0) (by decide)
    (.ofNat 7, ⟨0, ⟨.ofNat 0, .ofNat 7⟩⟩) (by decide)
  have hf : (s, l) = (0, 8) := Option.some_inj.mp (hw.symm.trans (by decide))
  obtain ⟨rfl, rfl⟩ := Prod.mk.inj hf
  exact absurd he (by decide)

end Ae.SafeStream.WriteAgreement
