/- source: safe_stream/details/safe_stream_recv_action.h
   digest: Every recorded range is backed by stored bytes, so no stale byte is emitted. -/

import Ae.Lib.EventRun
import Ae.SafeStream.RecvAction

/-!
The invariant `Backed` is stated in offsets from the buffer begin and is generic in
what makes a byte good at an offset. One lemma says what a message does to it and one
what an emission does; each property of the receiver chooses its own notion of good.
-/

set_option autoImplicit false

namespace Ae.SafeStream.RecvSoundness
open List Types.Ring Lib.EventRun Lib.IntervalChain Circular Message
open ReceivingChunks RecvAction SafeStreamRecvAction RingIndex CircularBuffer
open RecvHistory ReceiveChunkList

variable {cap : Nat}

/-- Every recorded range lies in the window, and the positions between its ends are
before the buffer end and hold a good byte. A flipped range has no such position. -/
structure Backed (w : Nat) (b : CircularBuffer cap) (l : ReceiveChunkList cap)
    (good : Nat → UInt8 → Prop) : Prop where
  same_begin : l.bufferBegin = b.begin_
  left_le : ∀ r ∈ l.ranges, b.begin_.distance r.left ≤ w
  right_le : ∀ r ∈ l.ranges, b.begin_.distance r.right ≤ w
  held : ∀ r ∈ l.ranges, ∀ k, b.begin_.distance r.left ≤ k → k ≤ b.begin_.distance r.right →
    k < b.size ∧ good k (b.at_ k)

theorem backed_ofBegin (w : Nat) (b : CircularBuffer cap) (good : Nat → UInt8 → Prop) :
    Backed w b (.ofBegin b.begin_) good :=
  ⟨rfl, by simp [ofBegin], by simp [ofBegin], by simp [ofBegin]⟩

variable {b : CircularBuffer cap} {w : Nat} {l : ReceiveChunkList cap} {left : RingIndex cap}

theorem Backed.mono {good better : Nat → UInt8 → Prop} (h : Backed w b l good)
    (le : ∀ k v, k ≤ w → good k v → better k v) : Backed w b l better := by
  refine ⟨h.same_begin, h.left_le, h.right_le, fun r hr k hl hk => ?_⟩
  obtain ⟨hs, hg⟩ := h.held r hr k hl hk
  exact ⟨hs, le k _ (le_trans hk (h.right_le r hr)) hg⟩

variable {good : Nat → UInt8 → Prop} {l l' : ReceiveChunkList cap}

theorem Backed.of_ranges (h : Backed w b l good) (hb : l'.bufferBegin = l.bufferBegin)
    (hr : l'.ranges = l.ranges) : Backed w b l' good :=
  ⟨hb.trans h.same_begin, by rw [hr]; exact h.left_le,
    by rw [hr]; exact h.right_le, by rw [hr]; exact h.held⟩

/-- The defects a message can reach: empty data aimed one past the window passes the
window test and is cut outside its span, and data longer than the ring is recorded
although it cannot be inserted. -/
def Sound (s : SafeStreamRecvAction cap) (left : RingIndex cap) (data : List UInt8) : Prop :=
  ¬ (data = [] ∧ s.buffer.begin_.distance left = s.config.windowSize + 1) ∧
  (s.buffer.begin_.distance (rightOf left data) ≤ s.config.windowSize → data.length ≤ cap)

instance (s : SafeStreamRecvAction cap) (left : RingIndex cap) (data : List UInt8) :
    Decidable (Sound s left data) := inferInstanceAs (Decidable (_ ∧ _))

theorem right_offset (b left : RingIndex cap) (data : List UInt8)
    (hf : data.length ≤ cap) :
    b.distance (rightOf left data) =
      if b.distance left + data.length = 0 then cap - 1
      else if b.distance left + data.length ≤ cap then b.distance left + data.length - 1
      else b.distance left + data.length - 1 - cap := by
  have hl := distance_lt b left
  have hs : left.add data.length = b.add (b.distance left + data.length) := by
    rw [← add_add, add_distance]
  unfold rightOf
  rw [hs]
  split_ifs with h0 h1
  · rw [h0, add_zero, distance_sub_one]
    simp
  · rw [add_sub_one b (by omega), distance_add_of_lt (by omega)]
  · rw [add_sub_one b (by omega), distance_add,
      Nat.mod_eq_sub_mod (by omega), Nat.mod_eq_of_lt (by omega)]

variable {s : SafeStreamRecvAction cap} {data : List UInt8}

/-- The cut of an accepted message: either the range is in order and the span holds
exactly its bytes, or the range is flipped and the span is empty or cannot be inserted. -/
theorem clip_cases (hs : Sound s left data)
    (ha : s.buffer.begin_.distance (rightOf left data) ≤ s.config.windowSize) :
    ∃ lf' sp, s.clip left data = some (lf', sp) ∧
      s.buffer.begin_.distance lf' ≤ s.config.windowSize ∧
      ((s.buffer.begin_.distance lf' + sp.length =
          s.buffer.begin_.distance (rightOf left data) + 1 ∧
        ∀ j < sp.length, ∃ i, data[i]? = sp[j]? ∧ i < data.length ∧
          left.add i = s.buffer.begin_.add (s.buffer.begin_.distance lf' + j)) ∨
      (s.buffer.begin_.distance (rightOf left data) <
          s.buffer.begin_.distance lf' ∧
        (sp = [] ∨ cap < s.buffer.begin_.distance lf' + sp.length))) := by
  have hf := hs.2 ha
  have hw := s.config.two_windows
  have hl := distance_lt s.buffer.begin_ left
  have hr := right_offset s.buffer.begin_ left data hf
  by_cases behind : s.buffer.begin_.distance left > s.config.windowSize
  · -- the left end is before the begin: the message wraps past the begin
    have hb : left.distance s.buffer.begin_ = cap - s.buffer.begin_.distance left := by
      rw [distance_of_lt (a := s.buffer.begin_) (by simp; omega)]
      simp
    have hp : cap < s.buffer.begin_.distance left + data.length := by
      by_contra hno
      rw [hr] at ha
      have hh : data.length = 0 := by
        split_ifs at ha <;> omega
      refine hs.1 ⟨length_eq_zero_iff.mp hh, ?_⟩
      split_ifs at ha <;> omega
    have hi : left.distance s.buffer.begin_ ≤ data.length := by omega
    refine ⟨s.buffer.begin_, data.drop (left.distance s.buffer.begin_), ?_, by simp, Or.inl ?_⟩
    · simp [clip, behind, subspan, hi]
    · rw [hr, if_neg (by omega), if_neg (by omega)]
      simp only [distance_self, length_drop, Nat.zero_add]
      refine ⟨by omega, fun j hj => ⟨left.distance s.buffer.begin_ + j, ?_, by omega, ?_⟩⟩
      · rw [getElem?_drop]
      · rw [← add_add, add_distance]
  · refine ⟨left, data, by simp [clip, behind], by omega, ?_⟩
    by_cases ho : 0 < data.length ∧ s.buffer.begin_.distance left + data.length ≤ cap
    · refine Or.inl ⟨?_, fun j hj => ⟨j, rfl, hj, ?_⟩⟩
      · rw [hr, if_neg (by omega), if_pos ho.2]
        omega
      · rw [← add_add, add_distance]
    · apply Or.inr
      by_cases hh : data.length = 0
      · refine ⟨?_, Or.inl (length_eq_zero_iff.mp hh)⟩
        rw [hr] at ha ⊢
        split_ifs at ha ⊢ <;> omega
      · rw [hr, if_neg (by omega), if_neg (by omega)]
        omega

variable {left right : RingIndex cap}

theorem Backed.record {b b' : CircularBuffer cap} (h : Backed w b l good)
    (hs : b'.begin_ = b.begin_) (hlf : b.begin_.distance left ≤ w)
    (hrg : b.begin_.distance right ≤ w)
    (hf : ∀ k, b.begin_.distance left ≤ k → k ≤ b.begin_.distance right →
      k < b'.size ∧ good k (b'.at_ k))
    (hkp : ∀ k, k ≤ w → k < b.size → good k (b.at_ k) → k < b'.size ∧ good k (b'.at_ k))
    (hb : l'.bufferBegin = l.bufferBegin)
    (hrn : ∀ r, r ∈ l'.ranges ↔ r = ⟨left, right⟩ ∨ r ∈ l.ranges) : Backed w b' l' good := by
  refine ⟨by rw [hs, hb, h.same_begin], ?_, ?_, ?_⟩ <;> rw [hs]
  · intro r hr
    rcases (hrn r).mp hr with rfl | hr
    · exact hlf
    · exact h.left_le r hr
  · intro r hr
    rcases (hrn r).mp hr with rfl | hr
    · exact hrg
    · exact h.right_le r hr
  · intro r hr k hl hk
    rcases (hrn r).mp hr with rfl | hr
    · exact hf k hl hk
    · obtain ⟨hlt, hg⟩ := h.held r hr k hl hk
      exact hkp k (le_trans hk (h.right_le r hr)) hlt hg

theorem backed_insert (h : Backed w b l good) {sp : List UInt8} (hw : w + 1 < cap)
    (hlf : b.begin_.distance left ≤ w) (hrg : b.begin_.distance right ≤ w)
    (hln : b.begin_.distance left + sp.length = b.begin_.distance right + 1)
    (hbt : ∀ j v, sp[j]? = some v → good (b.begin_.distance left + j) v)
    (hbg : l'.bufferBegin = l.bufferBegin)
    (hrn : ∀ r, r ∈ l'.ranges ↔ r = ⟨left, right⟩ ∨ r ∈ l.ranges) :
    Backed w (b.insert left sp).2 l' good := by
  obtain ⟨-, hsm, -, -⟩ := @insert_spec cap b left sp (by omega)
  have hs := @insert_size cap b left sp (by omega)
  have hb : ∀ k, k ≤ w → (good k (b.at_ k) ∨ (b.begin_.distance left ≤ k ∧
      k ≤ b.begin_.distance right)) → good k ((b.insert left sp).2.at_ k) := by
    intro k hk hg
    rw [insert_at (by omega) (by omega)]
    split_ifs with hl
    · cases hget : sp[k - b.begin_.distance left]? with
      | some v =>
        have hv := hbt _ v hget
        rwa [show b.begin_.distance left + (k - b.begin_.distance left) = k by omega] at hv
      | none =>
        rcases hg with hg | ⟨-, hr⟩
        · exact hg
        · rw [getElem?_eq_none_iff] at hget
          omega
    · rcases hg with hg | ⟨hl', -⟩
      · exact hg
      · omega
  refine h.record hsm hlf hrg (fun k hl hk => ?_) (fun k hk hlt hg => ?_) hbg hrn
  · rw [hs]
    exact ⟨by omega, hb k (by omega) (.inr ⟨hl, hk⟩)⟩
  · rw [hs]
    exact ⟨by omega, hb k hk (.inl hg)⟩

/-- A flipped range is recorded without a byte of its own: its span is empty or refused. -/
theorem backed_flipped (h : Backed w b l good) {sp : List UInt8} (hw : w + 1 < cap)
    (hlf : b.begin_.distance left ≤ w) (hf : b.begin_.distance right < b.begin_.distance left)
    (hsp : sp = [] ∨ cap < b.begin_.distance left + sp.length)
    (hb : l'.bufferBegin = l.bufferBegin)
    (hr : ∀ r, r ∈ l'.ranges ↔ r = ⟨left, right⟩ ∨ r ∈ l.ranges) :
    Backed w (b.insert left sp).2 l' good := by
  have hkp : (b.insert left sp).2.begin_ = b.begin_ ∧ b.size ≤ (b.insert left sp).2.size ∧
      ∀ k ≤ w, (b.insert left sp).2.at_ k = b.at_ k := by
    rcases hsp with rfl | hover
    · obtain ⟨-, hs, -, -⟩ := @insert_spec cap b left []
        (by simp only [length_nil]; omega)
      refine ⟨hs, ?_, fun k hk => ?_⟩
      · rw [insert_size (by simp only [length_nil]; omega)]
        exact le_max_left _ _
      · rw [insert_at (by simp only [length_nil]; omega) (by omega)]
        simp
    · rw [insert_overflow hover]
      exact ⟨rfl, le_rfl, fun _ _ => rfl⟩
  obtain ⟨hs, hsz, hh⟩ := hkp
  refine h.record hs hlf (by omega) (fun k hl hk => ?_) (fun k hk hlt hg => ?_) hb
    hr
  · omega
  · rw [hh k hk]
    exact ⟨by omega, hg⟩

@[simp] theorem enqueueAck_fields (s : SafeStreamRecvAction cap) :
    s.enqueueAck.config = s.config ∧ s.enqueueAck.buffer = s.buffer ∧
      s.enqueueAck.chunks = s.chunks ∧ s.enqueueAck.sessionOffset = s.sessionOffset ∧
      s.enqueueAck.lastEmitted = s.lastEmitted := by
  unfold enqueueAck
  split_ifs <;> exact ⟨rfl, rfl, rfl, rfl, rfl⟩

@[simp] theorem enqueueRecv_fields (s : SafeStreamRecvAction cap) :
    s.enqueueRecv.config = s.config ∧ s.enqueueRecv.buffer = s.buffer ∧
      s.enqueueRecv.chunks = s.chunks ∧ s.enqueueRecv.sessionOffset = s.sessionOffset ∧
      s.enqueueRecv.lastEmitted = s.lastEmitted := by
  unfold enqueueRecv
  split_ifs <;> exact ⟨rfl, rfl, rfl, rfl, rfl⟩

@[simp] theorem enqueueMissing_fields (s : SafeStreamRecvAction cap) :
    s.enqueueMissing.config = s.config ∧ s.enqueueMissing.buffer = s.buffer ∧
      s.enqueueMissing.chunks = s.chunks ∧ s.enqueueMissing.sessionOffset = s.sessionOffset ∧
      s.enqueueMissing.lastEmitted = s.lastEmitted := by
  unfold enqueueMissing
  split_ifs <;> exact ⟨rfl, rfl, rfl, rfl, rfl⟩

def Live (s : SafeStreamRecvAction cap) (good : Nat → UInt8 → Prop) : Prop :=
  ∃ l, s.chunks = some l ∧ Backed s.config.windowSize s.buffer l good

theorem Live.mono {good better : Nat → UInt8 → Prop} (h : Live s good)
    (le : ∀ k v, k ≤ s.config.windowSize → good k v → better k v) : Live s better := by
  obtain ⟨l, hl, hb⟩ := h
  exact ⟨l, hl, hb.mono le⟩

structure SamePosition (s s' : SafeStreamRecvAction cap) : Prop where
  config : s'.config = s.config
  begin_ : s'.buffer.begin_ = s.buffer.begin_
  sessionOffset : s'.sessionOffset = s.sessionOffset
  lastEmitted : s'.lastEmitted = s.lastEmitted

theorem handleData_live (rc : UInt8) (hlv : Live s good) (hsn : Sound s left data)
    (hbt : s.buffer.begin_.distance (rightOf left data) ≤ s.config.windowSize →
      ∀ i v k, data[i]? = some v → k ≤ s.config.windowSize →
        left.add i = s.buffer.begin_.add k → good k v)
    : ∃ s', s.handleData left rc data = some s' ∧ SamePosition s s' ∧ Live s' good := by
  obtain ⟨l, hl, hb⟩ := hlv
  have hw := s.config.two_windows
  simp only [handleData]
  by_cases ho : s.buffer.begin_.distance (rightOf left data) >
      s.config.windowSize
  · rw [if_pos ho]
    obtain ⟨hc, hbf, hch, hs, he⟩ := enqueueAck_fields s
    refine ⟨_, rfl, ⟨hc, by rw [hbf], hs, he⟩, l, hch.trans hl, ?_⟩
    rw [hc, hbf]
    exact hb
  · rw [if_neg ho]
    obtain ⟨lf', sp, hcl, hlf, hcs⟩ := clip_cases hsn (Nat.not_lt.mp ho)
    obtain ⟨hbg, hh⟩ := l.addChunk_cases
      ⟨lf', rightOf left data⟩ rc
    rw [hcl, hl]
    simp only
    generalize l.addChunk ⟨lf', rightOf left data⟩ rc = res
      at hbg hh
    obtain ⟨r, l'⟩ := res
    simp only at hbg hh
    rcases hh with ⟨rfl, hr⟩ | ⟨rfl | rfl, hr⟩
    · -- the chunk is new: its span goes into the buffer
      have hst : Backed s.config.windowSize (s.buffer.insert lf' sp).2 l' good := by
        rcases hcs with ⟨hln, hsp⟩ | ⟨hf, hsp⟩
        · refine backed_insert hb (by omega) hlf (Nat.not_lt.mp ho) hln ?_ hbg hr
          intro j v hj
          obtain ⟨i, hi, hhl, hp⟩ := hsp j (List.getElem?_eq_some_iff.mp hj).1
          have hjl := (List.getElem?_eq_some_iff.mp hj).1
          exact hbt (Nat.not_lt.mp ho) i v _ (hi.trans hj) (by omega) hp
        · exact backed_flipped hb (by omega) hlf hf hsp hbg hr
      have hsm : (s.buffer.insert lf' sp).2.begin_ = s.buffer.begin_ := by
        rw [← hst.same_begin, hbg, hb.same_begin]
      obtain ⟨hc, hbf, hch, hs, he⟩ := enqueueRecv_fields
        { s with chunks := some l', buffer := (s.buffer.insert lf' sp).2 }
      refine ⟨_, rfl, ⟨hc, by rw [hbf]; exact hsm, hs, he⟩, l', hch, ?_⟩
      rw [hc, hbf]
      exact hst
    · exact ⟨_, rfl, ⟨rfl, rfl, rfl, rfl⟩, l', rfl, hb.of_ranges hbg hr⟩
    · obtain ⟨hc, hbf, hch, hs, he⟩ := enqueueAck_fields { s with chunks := some l' }
      refine ⟨_, rfl, ⟨hc, by rw [hbf], hs, he⟩, l', hch, ?_⟩
      rw [hc, hbf]
      exact hb.of_ranges hbg hr

/-- What running `HandleCompletedChains` can do: nothing visible, or the emission of at
least two good bytes from the begin on, after which the begin is behind them. -/
structure Emission (s s' : SafeStreamRecvAction cap) (good : Nat → UInt8 → Prop) (n : Nat) :
    Prop where
  two_le : 2 ≤ n
  le_window : n ≤ s.config.windowSize + 1
  bytes : ∀ k < n, good k (s.buffer.at_ k)
  config : s'.config = s.config
  begin_ : s'.buffer.begin_ = s.buffer.begin_.add n
  sessionOffset : s'.sessionOffset = s.sessionOffset
  lastEmitted : s'.lastEmitted = s.buffer.begin_.add (n - 1)
  live : Live s' (fun k => good (k + n))

theorem backed_advance (h : Backed w b l good) {to_ : RingIndex cap}
    (hs : b.begin_.distance to_ < b.size) :
    Backed w (b.erase (to_.add 1)) ((l.acknowledge to_).setBufferBegin
      (b.erase (to_.add 1)).begin_) (fun k => good (k + (b.begin_.distance to_ + 1))) := by
  obtain ⟨ho, hbg, hlv⟩ := erase_through hs
  have he : ∀ r ∈ (l.acknowledge to_).ranges, ∃ old ∈ l.ranges,
      (b.erase (to_.add 1)).begin_.distance r.right =
        b.begin_.distance old.right - (b.begin_.distance to_ + 1) ∧
      b.begin_.distance to_ < b.begin_.distance old.right ∧
      b.begin_.distance old.left ≤
        (b.erase (to_.add 1)).begin_.distance r.left + (b.begin_.distance to_ + 1) ∧
      (b.erase (to_.add 1)).begin_.distance r.left ≤ w := by
    intro r hr
    obtain ⟨old, hh, hrg, hlt, hlf⟩ := mem_acknowledge hr
    rw [h.same_begin] at hlt hlf
    have hb := h.left_le old hh
    refine ⟨old, hh, by rw [hrg, erase_through_distance hs hlt], hlt, ?_⟩
    rcases hlf with ⟨hp, hsm⟩ | ⟨hc, hn⟩
    · rw [hsm, erase_through_distance hs hp]
      omega
    · rw [hn, hbg, distance_self]
      omega
  refine ⟨rfl, ?_, ?_, ?_⟩
  · intro r hr
    obtain ⟨old, -, -, -, -, hle⟩ := he r hr
    exact hle
  · intro r hr
    obtain ⟨old, hh, hrg, -, -, -⟩ := he r hr
    have hb := h.right_le old hh
    rw [hrg]
    omega
  · intro r hr k hl hk
    obtain ⟨old, hh, hrg, hlt, hlf, -⟩ := he r hr
    rw [hrg] at hk
    obtain ⟨hi, hg⟩ := h.held old hh (k + (b.begin_.distance to_ + 1))
      (by omega) (by omega)
    rw [hlv, erase_at (by omega), ho]
    refine ⟨by omega, ?_⟩
    rwa [add_comm (b.begin_.distance to_ + 1) k]

theorem receiveChunk_held (h : Backed w b l good) (hw : w + 1 < cap) (hm : ¬ l.receiveChunk.isEmpty)
    : l.receiveChunk.left = b.begin_ ∧ 0 < b.begin_.distance l.receiveChunk.right ∧
      b.begin_.distance l.receiveChunk.right ≤ w ∧
      ∀ k ≤ b.begin_.distance l.receiveChunk.right, k < b.size ∧ good k (b.at_ k) := by
  obtain ⟨hl, hrg⟩ := l.receiveChunk_spec
    (fun r hr => by rw [h.same_begin]; have := h.right_le r hr; omega) (by omega)
  rw [h.same_begin] at hl hrg
  have hln : 0 < b.begin_.distance l.receiveChunk.right := by
    refine Nat.pos_of_ne_zero (fun h0 => hm ?_)
    simp [RingIndexRange.isEmpty, hl, distance_eq_zero.mp h0]
  refine ⟨hl, hln, ?_, ?_⟩
  · rw [hrg]
    apply chain_le 0 (Nat.zero_le _)
    intro p hp
    obtain ⟨r, hr, rfl⟩ := mem_map.mp hp
    exact h.right_le r hr
  · rw [hrg]
    refine chain_covered _ 0 0 (Or.inr ⟨rfl, rfl⟩) (by simp) ?_ (by rw [← hrg]; exact hln)
    intro p hp k hk1 hk2
    obtain ⟨r, hr, rfl⟩ := mem_map.mp hp
    exact h.held r hr k hk1 hk2

theorem handleCompletedChains_emits (hl : s.chunks = some l)
    (hb : Backed s.config.windowSize s.buffer l good) (hsc : ¬ l.empty)
    (hm : ¬ l.receiveChunk.isEmpty) : let n := s.buffer.begin_.distance l.receiveChunk.right + 1
    s.handleCompletedChains.2 = [.receive ((range n).map s.buffer.at_)] ∧
      s.handleCompletedChains.1.chunks = some ((l.acknowledge l.receiveChunk.right).setBufferBegin
        (l.receiveChunk.right.add 1)) ∧
      Emission s s.handleCompletedChains.1 good n := by
  intro n
  have hw := s.config.two_windows
  -- the chain is longer than one position, so every position of it is covered
  obtain ⟨hlf, hln, hbn, hc⟩ := receiveChunk_held hb (by omega) hm
  have hls := (hc _ le_rfl).1
  obtain ⟨d, hr, hbt⟩ := read_spec (b := s.buffer) n
    (show s.buffer.begin_.distance s.buffer.begin_ < s.buffer.size by simp; omega)
  simp only [distance_self, zero_add, Nat.sub_zero] at hbt
  rw [min_eq_left (by omega)] at hbt
  have hh := backed_advance hb hls
  obtain ⟨-, hbg, -⟩ := erase_through hls
  simp only [handleCompletedChains, hl]
  rw [if_neg hsc, if_neg hm, RingIndexRange.distance, hlf, hr]
  obtain ⟨hc', hb', hch', hs', he'⟩ := enqueueAck_fields
    { s with
      lastEmitted := l.receiveChunk.right
      chunks := some ((l.acknowledge l.receiveChunk.right).setBufferBegin
        (s.buffer.erase (l.receiveChunk.right.add 1)).begin_)
      buffer := s.buffer.erase (l.receiveChunk.right.add 1) }
  refine ⟨by simp only [hbt], hch'.trans (by rw [hbg]), by omega, by omega,
    fun k hk => (hc k (by omega)).2, hc', ?_, hs', ?_, ?_⟩
  · rw [hb', hbg, ← add_add, add_distance]
  · rw [he']
    simp [n]
  · refine ⟨_, hch', ?_⟩
    rw [hc', hb']
    exact hh

theorem handleCompletedChains_cases (h : s.chunks = none ∨ Live s good) :
    (s.handleCompletedChains.2 = [] ∧ SamePosition s s.handleCompletedChains.1 ∧
      s.handleCompletedChains.1.buffer = s.buffer ∧
      s.handleCompletedChains.1.chunks = s.chunks) ∨
    ∃ n, s.handleCompletedChains.2 = [.receive ((range n).map s.buffer.at_)] ∧
      Emission s s.handleCompletedChains.1 good n := by
  have hq : SamePosition s s := ⟨rfl, rfl, rfl, rfl⟩
  rcases h with hn | ⟨l, hl, hb⟩
  · apply Or.inl
    simp only [handleCompletedChains, hn]
    exact ⟨trivial, hq, trivial, trivial⟩
  by_cases hempty : l.empty
  · apply Or.inl
    simp only [handleCompletedChains, hl]
    rw [if_pos hempty]
    exact ⟨rfl, hq, rfl, hl⟩
  by_cases single : l.receiveChunk.isEmpty
  · obtain ⟨hc, hbf, hch, hs, he⟩ := enqueueMissing_fields s
    apply Or.inl
    simp only [handleCompletedChains, hl]
    rw [if_neg hempty, if_pos single]
    exact ⟨rfl, ⟨hc, by rw [hbf], hs, he⟩, hbf, hch.trans hl⟩
  · obtain ⟨ho, -, hh⟩ := handleCompletedChains_emits hl hb hempty single
    exact Or.inr ⟨_, ho, hh⟩

theorem synced_live [NeZero cap] (i : UInt16) (m : DataMessage)
    (h : s.chunks = none ∨ Live s good) :
    Live (s.synced i m) (fun k v => s.resets i m = false ∧ good k v) := by
  cases hr : s.resets i m with
  | true =>
    simp only [synced, hr, if_true]
    exact ⟨_, rfl, backed_ofBegin _ _ _⟩
  | false =>
    simp only [synced, hr, Bool.false_eq_true, if_false]
    rcases h with hn | hlive
    · simp [resets, hn] at hr
    · exact hlive.mono (fun k v _ hg => ⟨trivial, hg⟩)

/-- A message as `HandleData` meets it, after a possible restart of the session. -/
def MessageSound [NeZero cap] (h : RecvHistory cap) : RecvOp → Prop
  | .pushData index message => Sound (h.action.synced index message)
      (receivedIndex index message) message.data
  | _ => True

instance [NeZero cap] (h : RecvHistory cap) : (op : RecvOp) → Decidable (MessageSound h op)
  | .pushData index message => inferInstanceAs (Decidable (Sound (h.action.synced index message)
      (receivedIndex index message) message.data))
  | .recvTask | .ackTask | .missingTask => inferInstanceAs (Decidable True)

structure Quiet (s s' : SafeStreamRecvAction cap) : Prop where
  position : SamePosition s s'
  buffer : s'.buffer = s.buffer
  chunks : s'.chunks = s.chunks

theorem Quiet.refl (s : SafeStreamRecvAction cap) : Quiet s s :=
  ⟨⟨rfl, rfl, rfl, rfl⟩, rfl, rfl⟩

theorem Quiet.live {s s' : SafeStreamRecvAction cap} (quiet : Quiet s s')
    (h : s.chunks = none ∨ Live s good) : s'.chunks = none ∨ Live s' good := by
  rcases h with hn | ⟨l, hl, hb⟩
  · exact .inl (quiet.chunks.trans hn)
  · refine .inr ⟨l, quiet.chunks.trans hl, ?_⟩
    rw [quiet.position.config, quiet.buffer]
    exact hb

theorem handleMissing_quiet (s : SafeStreamRecvAction cap) :
    (∀ data, .receive data ∉ s.handleMissing.2) ∧ Quiet s s.handleMissing.1 := by
  unfold handleMissing
  split
  · exact ⟨by simp, .refl s⟩
  · split
    · exact ⟨by simp, .refl s⟩
    · obtain ⟨hc, hb, hch, hs, he⟩ := enqueueMissing_fields { s with missingTimer := false }
      exact ⟨by simp, ⟨hc, by rw [hb], hs, he⟩, hb, hch⟩

theorem runTask_quiet (s : SafeStreamRecvAction cap) {op : RecvOp} (h : op ≠ .recvTask) :
    (∀ data, .receive data ∉ (s.runTask op).2) ∧ Quiet s (s.runTask op).1 := by
  cases op with
  | pushData i m => exact ⟨by simp [runTask], .refl s⟩
  | recvTask => exact absurd rfl h
  | ackTask =>
    simp only [runTask]
    split_ifs
    · exact ⟨by simp [handleAcknowledgement], ⟨rfl, rfl, rfl, rfl⟩, rfl, rfl⟩
    · exact ⟨by simp, .refl s⟩
  | missingTask =>
    simp only [runTask]
    split_ifs with ht
    · obtain ⟨ho, hp, hb, hc⟩ := handleMissing_quiet { s with missingTimer := false }
      exact ⟨ho, ⟨hp.config, hp.begin_, hp.sessionOffset, hp.lastEmitted⟩, hb, hc⟩
    · exact ⟨by simp, .refl s⟩

theorem recvTask_cases (h : s.chunks = none ∨ Live s good) :
    ((s.runTask .recvTask).2 = [] ∧ Quiet s (s.runTask .recvTask).1) ∨
    ∃ n, (s.runTask .recvTask).2 = [.receive ((range n).map s.buffer.at_)] ∧
      Emission s (s.runTask .recvTask).1 good n := by
  have hr : { s with recvEnqueued := false }.chunks = none ∨
      Live { s with recvEnqueued := false } good := h
  rcases handleCompletedChains_cases hr with ⟨ho, hp, hb, hc⟩ | ⟨n, ho, hh⟩
  · exact .inl ⟨ho, ⟨hp.config, hp.begin_, hp.sessionOffset, hp.lastEmitted⟩, hb, hc⟩
  · exact .inr ⟨n, ho, hh.two_le, hh.le_window, hh.bytes, hh.config, hh.begin_,
      hh.sessionOffset, hh.lastEmitted, hh.live⟩

variable {h : RecvHistory cap}

theorem step_push [NeZero cap] {ix : UInt16} {m : DataMessage} (hn : h.fault = false)
    (hlv : Live (h.action.synced ix m) good)
    (hs : MessageSound h (.pushData ix m))
    (hb : (h.action.synced ix m).buffer.begin_.distance (rightOf (receivedIndex ix m) m.data) ≤
        (h.action.synced ix m).config.windowSize →
      ∀ i v k, m.data[i]? = some v → k ≤ (h.action.synced ix m).config.windowSize →
        (receivedIndex ix m : RingIndex cap).add i =
          (h.action.synced ix m).buffer.begin_.add k → good k v) :
    ∃ action, h.step (.pushData ix m) = { h with
          action
          session := if h.action.resets ix m then [] else h.session
          carried := carry (if h.action.resets ix m then fun _ => [] else h.carried)
            (receivedIndex ix m) m.data } ∧
      SamePosition (h.action.synced ix m) action ∧ Live action good := by
  obtain ⟨action, hp, hps, hl⟩ := handleData_live m.repeatCount hlv hs hb
  have hh : h.action.pushData ix m = some action := hp
  refine ⟨action, ?_, hps, hl⟩
  simp only [step, hn, Bool.false_eq_true, if_false, hh]

theorem step_recv [NeZero cap] (hn : h.fault = false)
    (hl : h.action.chunks = none ∨ Live h.action good) :
    (∃ action, h.step .recvTask = { h with action } ∧ Quiet h.action action) ∨
    ∃ n action, h.step .recvTask =
        { h with
          action
          emitted := h.emitted ++ (range n).map h.action.buffer.at_
          session := h.session ++ h.nextIndices n
          carried := fun q =>
            if h.action.buffer.begin_.distance q < n then [] else h.carried q } ∧
      Emission h.action action good n := by
  have hr : h.step .recvTask =
      { (h.action.runTask .recvTask).2.foldl record h with
        action := (h.action.runTask .recvTask).1 } := if_neg (by simp [hn])
  rcases recvTask_cases hl with ⟨ho, hq⟩ | ⟨n, ho, hh⟩
  · exact .inl ⟨_, by rw [hr, ho, foldl_nil], hq⟩
  · refine .inr ⟨n, _, ?_, hh⟩
    rw [hr, ho]
    simp [record]

theorem step_quiet [NeZero cap] {op : RecvOp} (hn : h.fault = false)
    (hh : op = .ackTask ∨ op = .missingTask) :
    h.step op = { h with action := (h.action.runTask op).1 } ∧
      Quiet h.action (h.action.runTask op).1 := by
  have hne : op ≠ .recvTask := by rcases hh with rfl | rfl <;> simp
  obtain ⟨ho, hq⟩ := runTask_quiet h.action hne
  have hu : (h.action.runTask op).2.foldl record h = h := by
    generalize (h.action.runTask op).2 = ou at ho
    induction ou with
    | nil => rfl
    | cons o ou ih =>
      have hk : h.record o = h := by
        cases o with
        | receive data => exact absurd mem_cons_self (ho data)
        | sendAck i | sendRepeatRequest i => rfl
      rw [foldl_cons, hk]
      exact ih (fun data hm => ho data (mem_cons_of_mem o hm))
  refine ⟨?_, hq⟩
  rcases hh with rfl | rfl
  · simp only [step, hn, Bool.false_eq_true, if_false, hu]
  · simp only [step, hn, Bool.false_eq_true, if_false, hu]

/-- The offset given to `subspan` for an accepted message is inside its data. -/
def SubspanInRange (s : SafeStreamRecvAction cap) (left : RingIndex cap) (data : List UInt8) :
    Prop :=
  s.buffer.begin_.distance (rightOf left data) ≤ s.config.windowSize →
    s.buffer.begin_.distance left > s.config.windowSize →
    left.distance s.buffer.begin_ ≤ data.length

/-- A message calls `subspan` inside its span, and every byte a task emits was carried for
its ring position by a message of the session since the begin last passed the position. -/
def StepSound [NeZero cap] (h : RecvHistory cap) : RecvOp → Prop
  | .pushData index message => SubspanInRange (h.action.synced index message)
      (receivedIndex index message) message.data
  | op => ∀ data, .receive data ∈ (h.action.runTask op).2 → ∀ k v, data[k]? = some v →
      v ∈ h.carried (h.action.buffer.begin_.add k)

theorem subspan_of_sound (hs : Sound s left data) : SubspanInRange s left data := by
  intro ha hb
  obtain ⟨lf', sp, hc, -, -⟩ := clip_cases hs ha
  by_contra hout
  simp [clip, hb, subspan, hout] at hc

def CarriedInv (h : RecvHistory cap) : Prop :=
  h.fault = false ∧ (h.action.chunks = none ∨
    Live h.action (fun k v => v ∈ h.carried (h.action.buffer.begin_.add k)))

theorem carriedInv_init [NeZero cap] (c : SafeStreamConfig cap)
    (m : RingIndex cap → UInt8) : CarriedInv (.init c m) := ⟨rfl, .inl rfl⟩

theorem mem_carry {c : RingIndex cap → List UInt8} {q : RingIndex cap} {v : UInt8} :
    v ∈ carry c left data q ↔ v ∈ c q ∨ ∃ i, left.add i = q ∧ data[i]? = some v := by
  simp only [carry, mem_append, mem_filterMap, mem_range]
  refine or_congr_right ⟨?_, ?_⟩
  · rintro ⟨i, -, hi⟩
    split_ifs at hi with hq
    exact ⟨i, hq, hi⟩
  · rintro ⟨i, hq, hi⟩
    exact ⟨i, (List.getElem?_eq_some_iff.mp hi).1, by rw [if_pos hq, hi]⟩

theorem pushData_carried [NeZero cap] {ix : UInt16} {m : DataMessage}
    (inv : CarriedInv h) (sound : MessageSound h (.pushData ix m)) :
    CarriedInv (h.step (.pushData ix m)) := by
  obtain ⟨nofault, live⟩ := inv
  let bf : RingIndex cap → List UInt8 :=
    if h.action.resets ix m then fun _ => [] else h.carried
  have synced : Live (h.action.synced ix m) (fun k v =>
      v ∈ carry bf (receivedIndex ix m) m.data ((h.action.synced ix m).buffer.begin_.add k)) := by
    apply (synced_live ix m live).mono
    rintro k v - ⟨hr, hv⟩
    refine mem_carry.mpr (.inl ?_)
    simpa [bf, synced, hr] using hv
  obtain ⟨a, hstep, hpos, hlive⟩ := step_push nofault synced sound (by
    intro _ i v k hi _ hq
    exact mem_carry.mpr (.inr ⟨i, hq, hi⟩))
  rw [hstep]
  refine ⟨nofault, .inr ?_⟩
  simp only [hpos.begin_]
  exact hlive

theorem emission_carried [NeZero cap] (hi : CarriedInv h) :
    CarriedInv (h.step .recvTask) := by
  obtain ⟨hnf, hl⟩ := hi
  rcases step_recv hnf hl with ⟨a, hs, hq⟩ | ⟨n, a, hs, hh⟩
  · rw [hs]
    refine ⟨hnf, ?_⟩
    simp only [hq.buffer]
    exact hq.live hl
  · rw [hs]
    refine ⟨hnf, .inr (hh.live.mono ?_)⟩
    intro k v hk hv
    have hw := h.action.config.two_windows
    have hn := hh.le_window
    rw [hh.config] at hk
    simp only [hh.begin_, add_add]
    rw [distance_add_of_lt (by omega), if_neg (by omega), add_comm n k]
    exact hv

theorem carriedInv_step [NeZero cap] (h : RecvHistory cap) (op : RecvOp)
    (hi : CarriedInv h) (hs : MessageSound h op) : CarriedInv (h.step op) := by
  have hu : op = .ackTask ∨ op = .missingTask → CarriedInv (h.step op) := by
    intro hh
    obtain ⟨hst, hq⟩ := step_quiet hi.1 hh
    rw [hst]
    refine ⟨hi.1, ?_⟩
    simp only [hq.buffer]
    exact hq.live hi.2
  cases op with
  | pushData i m => exact pushData_carried hi hs
  | recvTask => exact emission_carried hi
  | ackTask => exact hu (.inl rfl)
  | missingTask => exact hu (.inr rfl)

theorem stepSound_of_carriedInv [NeZero cap] (h : RecvHistory cap) (op : RecvOp)
    (hi : CarriedInv h) (hs : MessageSound h op) : StepSound h op := by
  cases op with
  | pushData i m => exact subspan_of_sound hs
  | recvTask =>
    intro data hd k v hk
    rcases recvTask_cases hi.2 with ⟨ho, -⟩ | ⟨n, ho, hh⟩
    · simp [ho] at hd
    · rw [ho, mem_singleton] at hd
      obtain rfl := RecvOutput.receive.inj hd
      obtain ⟨hl, rfl⟩ := List.getElem?_eq_some_iff.mp hk
      simp only [length_map, length_range] at hl
      simpa using hh.bytes k hl
  | ackTask | missingTask =>
    intro data hd
    exact absurd hd ((runTask_quiet h.action (by simp)).1 data)

/-- In every run of arbitrary messages and tasks in which no accepted message is longer
than the ring and no empty message is aimed one past the window, `subspan` is called
inside its span and every emitted byte was carried for its position in the session. -/
theorem receiver_sound_of_messages [NeZero cap] (config : SafeStreamConfig cap)
    (memory : RingIndex cap → UInt8) (ops : List RecvOp)
    (sound : Along step MessageSound (.init config memory) ops) :
    Along step StepSound (.init config memory) ops :=
  Along.of_invariant carriedInv_step stepSound_of_carriedInv (carriedInv_init config memory) sound

theorem receiver_sound_of_messages_overlap :
    Along step StepSound (.init smallConfig (fun _ => 0))
      [.pushData 6 ⟨true, 0, 2, [3]⟩, .pushData 6 ⟨true, 0, 0, [1, 2]⟩,
        .pushData 6 ⟨true, 1, 0, [1, 2, 3]⟩, .recvTask, .ackTask] :=
  receiver_sound_of_messages smallConfig (fun _ => 0) _ (by decide)

/-- Ten bytes in a ring of eight are recorded as two received positions but not stored, so
the byte the ring held before is emitted; and an empty message aimed one past the window
makes `subspan` start behind its empty span. -/
theorem overlong_message_emits_stale_byte :
    ¬ Along step StepSound (.init smallConfig (fun _ => 0))
      [.pushData 0 ⟨true, 0, 0, [1, 2, 3, 4, 5, 6, 7, 8, 9, 10]⟩,
        .pushData 0 ⟨true, 0, 1, [11]⟩, .recvTask] ∧
    ¬ Along step StepSound (.init smallConfig (fun _ => 0)) [.pushData 0 ⟨true, 0, 4, []⟩] := by
  constructor
  · rintro ⟨-, -, h, -⟩
    have hs := h [0, 11] (by decide) 0 0 (by decide)
    exact absurd hs (by decide)
  · rintro ⟨h, -⟩
    have hi := h (by decide) (by decide)
    exact absurd hi (by decide)

end Ae.SafeStream.RecvSoundness
