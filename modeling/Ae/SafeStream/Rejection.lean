/- source: safe_stream/details/safe_stream_send_action.h
   digest: While the window has room, a chunk is rejected only after its real repeats. -/

import Ae.SafeStream.SendAction

/-!
The repeat count of a chunk counts the registrations of its left end. With room in the
window every registration is followed by a push, so the count of a chunk whose first byte
is still buffered is at most the number of its pushes that were not acknowledged since.
-/

set_option autoImplicit false

namespace Ae.SafeStream.Rejection
open List Types.Ring Lib.EventRun Circular Message SendingChunks
open SendAction RingIndex SendHistory SendingChunkList CircularBuffer

variable {cap : Nat} [NeZero cap]

/-- A rejection up to `e` is about a chunk that starts at or before `e` and was pushed as
often as the configuration allows without an acknowledgement. -/
def RejectsRepeated (h : SendHistory cap) (op : SendOp cap) : Prop :=
  ∀ b e, .sendFailed b e ∈ (h.action.runOp op).2 →
    b = h.action.sendingBuffer.begin_ ∧ ∃ k ≤ b.distance e,
      h.action.config.maxRepeatCount.toNat ≤ h.unacked.count (h.base + k)

/-- `SendChunk` finds room in the window and `last_sent_` in the buffer. -/
def HasRoom (h : SendHistory cap) : SendOp cap → Prop
  | .sendTask => h.action.maxPayloadSize ≠ 0 →
    h.action.onTheGoDataSize < h.action.config.windowSize ∧ (h.action.sendingBuffer.size = 0 ∨
        h.action.onTheGoDataSize ≤ h.action.sendingBuffer.size)
  | .stop _ => False
  | _ => True

instance (h : SendHistory cap) : (op : SendOp cap) → Decidable (HasRoom h op)
  | .sendTask => inferInstanceAs (Decidable (_ → _ ∧ (_ ∨ _)))
  | .stop _ => inferInstanceAs (Decidable False)
  | .sendData _ | .acknowledge _ | .requestRepeat _ | .setMaxPayload _ | .repeatTimeout
  | .writeStatus _ _ => inferInstanceAs (Decidable True)

/-- The chunk `c` is that of the `len` bytes from stream position `a` on, of which some are
still buffered, and its count is justified unless its first byte has left the buffer. The
byte at position `p` has the ring index `R + p`. -/
structure ChunkCounted (R : Nat) (h : SendHistory cap) (c : Chunk cap) (a len : Nat) : Prop where
  left_eq : c.range.left = .ofNat (R + a)
  right_eq : c.range.right = .ofNat (R + a + len - 1)
  pending : h.base < a + len
  short : len ≤ h.action.config.windowSize
  in_window : a + len ≤ h.base + h.action.config.windowSize
  before_end : a + len ≤ h.base + h.action.sendingBuffer.size
  counted : h.base ≤ a → c.repeatCount.toNat ≤ h.unacked.count a

structure Counted (R : Nat) (h : SendHistory cap) : Prop where
  begin_eq : h.action.sendingBuffer.begin_ = .ofNat (R + h.base)
  same_begin : h.action.sendingChunks.bufferBegin = h.action.sendingBuffer.begin_
  chunk : ∀ c ∈ h.action.sendingChunks.chunks, ∃ a len, ChunkCounted R h c a len

variable {R : Nat} {h : SendHistory cap} {op : SendOp cap}

theorem ChunkCounted.right_offset {c : Chunk cap} {a len : Nat} (hi : Counted R h)
    (hc : ChunkCounted R h c a len) :
    h.action.sendingBuffer.begin_.distance c.range.right = a + len - 1 - h.base := by
  have hw := h.action.config.two_windows
  have hp := hc.pending
  have hwn := hc.in_window
  rw [hc.right_eq, hi.begin_eq, show R + a + len - 1 = R + h.base + (a + len - 1 - h.base) by omega,
    ← ofNat_add (R + h.base)]
  exact distance_add_of_lt (by omega)

theorem step_begin (hi : Counted R h) :
    (h.step op).action.sendingBuffer.begin_ = .ofNat (R + (h.step op).base) := by
  have hm : (h.step op).base = h.base + h.action.sendingBuffer.begin_.distance
      (h.step op).action.sendingBuffer.begin_ := rfl
  rw [hm, ← add_assoc, ← ofNat_add, ← hi.begin_eq, add_distance]

theorem chunkCounted_kept {h' : SendHistory cap} {c : Chunk cap} {a len : Nat}
    (hct : ChunkCounted R h c a len) (hc : h'.action.config = h.action.config)
    (hbs : h.base ≤ h'.base) (hp : h'.base < a + len)
    (he : h.base + h.action.sendingBuffer.size ≤ h'.base + h'.action.sendingBuffer.size)
    (hco : h'.base ≤ a → h.unacked.count a ≤ h'.unacked.count a) : ChunkCounted R h' c a len := by
  obtain ⟨hl, hr, -, hs, hw, hb, hcn⟩ := hct
  refine ⟨hl, hr, hp, ?_, ?_, by omega, ?_⟩
  · rw [hc]
    exact hs
  · rw [hc]
    omega
  · intro hle
    exact le_trans (hcn (by omega)) (hco hle)

theorem counted_kept (hi : Counted R h) (hcf : (h.step op).action.config = h.action.config)
    (hb : (h.step op).action.sendingChunks.bufferBegin =
      (h.step op).action.sendingBuffer.begin_) (he : h.base + h.action.sendingBuffer.size ≤
      (h.step op).base + (h.step op).action.sendingBuffer.size)
    (hct : ∀ a, (h.step op).base ≤ a → h.unacked.count a ≤ (h.step op).unacked.count a)
    (hch : ∀ c ∈ (h.step op).action.sendingChunks.chunks, c ∈ h.action.sendingChunks.chunks ∧
        ∀ a len, ChunkCounted R h c a len → (h.step op).base < a + len) :
    Counted R (h.step op) := by
  refine ⟨step_begin hi, hb, ?_⟩
  intro c hc
  obtain ⟨hh, hp⟩ := hch c hc
  obtain ⟨a, len, hcn⟩ := hi.chunk c hh
  exact ⟨a, len, chunkCounted_kept hcn hcf (Nat.le_add_right _ _) (hp a len hcn) he (hct a)⟩

theorem counted_same {buffer : CircularBuffer cap} {t : RingIndex cap}
    (hi : Counted R h)
    (b : Becomes h.action (h.action.runOp op).1 buffer h.action.sendingChunks t)
    (ho : (h.action.runOp op).2 = []) (hbg : buffer.begin_ = h.action.sendingBuffer.begin_)
    (hs : h.action.sendingBuffer.size ≤ buffer.size) : Counted R (h.step op) := by
  have hbs : (h.step op).base = h.base :=
    step_base_of_same (by rw [b.sendingBuffer, hbg])
  have hb : (h.step op).action.sendingBuffer = buffer := b.sendingBuffer
  have hch : (h.step op).action.sendingChunks = h.action.sendingChunks := b.sendingChunks
  have hu : (h.step op).unacked = h.unacked := by
    simp [step, ho]
  refine counted_kept hi b.config ?_ ?_ ?_ ?_
  · rw [hch, hb, hbg, hi.same_begin]
  · rw [hbs, hb]
    omega
  · intro a _
    rw [hu]
  · intro c hc
    rw [hch] at hc
    rw [hbs]
    exact ⟨hc, fun a len hcn => hcn.pending⟩

theorem counted_acknowledged {confirm : RingIndex cap} {last : RingIndex cap}
    (hi : Counted R h)
    (his : h.action.sendingBuffer.begin_.distance confirm ≤ h.action.sendingBuffer.size)
    (b : Becomes h.action (h.action.runOp op).1
      (h.action.sendingBuffer.erase (confirm.add 1))
      (forgotten h.action.sendingBuffer h.action.sendingChunks confirm) last)
    (ho : (h.action.runOp op).2 = [.acknowledged h.action.sendingBuffer.begin_ confirm]) :
    Counted R (h.step op) := by
  have hl := size_lt h.action.sendingBuffer
  have hbf : (h.step op).action.sendingBuffer =
      h.action.sendingBuffer.erase (confirm.add 1) := b.sendingBuffer
  have hch : (h.step op).action.sendingChunks =
      forgotten h.action.sendingBuffer h.action.sendingChunks confirm := b.sendingChunks
  have hu : (h.step op).unacked = h.unacked.filter (fun p =>
      h.base + h.action.sendingBuffer.begin_.distance confirm < p) := by
    simp [step, ho, recordUnacked]
  have hb : (h.step op).action.sendingChunks.bufferBegin =
      (h.step op).action.sendingBuffer.begin_ := by
    rw [hch, hbf]
    rfl
  have hr : ∀ c ∈ (h.step op).action.sendingChunks.chunks,
      c ∈ h.action.sendingChunks.chunks ∧ ∀ a len, ChunkCounted R h c a len →
        h.action.sendingBuffer.begin_.distance confirm < a + len - 1 - h.base := by
    intro c hc
    rw [hch] at hc
    obtain ⟨hh, hp⟩ := mem_removeUpTo.mp hc
    rw [hi.same_begin] at hp
    exact ⟨hh, fun a len hcn => by rw [← hcn.right_offset hi]; exact hp⟩
  rcases lt_or_eq_of_le his with hin | hpastEnd
  · obtain ⟨hn, -, -⟩ := erase_through hin
    obtain ⟨hbs, -, hs⟩ := step_base_of_erase b.sendingBuffer (by omega)
    refine counted_kept hi b.config hb (by omega) ?_ ?_
    · intro a ha
      rw [hu, count_filter (by simp; omega)]
    · intro c hc
      obtain ⟨hh, hp⟩ := hr c hc
      refine ⟨hh, fun a len hcn => ?_⟩
      have := hp a len hcn
      omega
  · -- the index behind the last byte: every chunk is covered, and nothing is erased
    refine ⟨step_begin hi, hb, ?_⟩
    intro c hc
    obtain ⟨hh, hp⟩ := hr c hc
    obtain ⟨a, len, hcn⟩ := hi.chunk c hh
    have he := hcn.before_end
    have := hp a len hcn
    omega

variable {n : Nat}

omit [NeZero cap] in
theorem reads_pos (hrm : h.action.onTheGoDataSize < h.action.config.windowSize)
    (hpl : h.action.maxPayloadSize ≠ 0) (hr : Reads h.action n) :
    0 < n ∧ h.action.onTheGoDataSize + n ≤ h.action.sendingBuffer.size ∧
      h.action.onTheGoDataSize + n ≤ h.action.config.windowSize := by
  have hp := h.action.payloadSize_eq hrm.le
  rcases hr with ⟨hz, -⟩ | ⟨-, hl, rfl⟩
  · omega
  · omega

/-- The count of the chunk at `last_sent_` is justified by its pushes: a recorded chunk with
that left end starts at that position and not a turn of the ring away. -/
theorem count_at_lastSent (hi : Counted R h)
    (hrm : h.action.onTheGoDataSize < h.action.config.windowSize) :
    (h.action.sendingChunks.repeatCountOf h.action.lastSent).toNat ≤
      h.unacked.count (h.base + h.action.onTheGoDataSize) := by
  have hw := h.action.config.two_windows
  rcases h.action.sendingChunks.repeatCountOf_cases h.action.lastSent with
    hzero | ⟨c, hc, hleft, hcount⟩
  · rw [hzero]
    exact Nat.zero_le _
  · obtain ⟨a, len, hcn⟩ := hi.chunk c hc
    have hp := hcn.pending
    have hs := hcn.short
    have hwn := hcn.in_window
    have hr : (ofNat (R + a) : RingIndex cap) =
        .ofNat (R + (h.base + h.action.onTheGoDataSize)) := by
      rw [← hcn.left_eq, hleft, ← Nat.add_assoc, ← ofNat_add (R + h.base), ← hi.begin_eq]
      exact (add_distance _ _).symm
    have ha := ofNat_inj_of_near hr (by omega) (by omega)
    have hh : a = h.base + h.action.onTheGoDataSize := by omega
    subst hh
    rw [hcount]
    exact hcn.counted (Nat.le_add_right _ _)

theorem counted_sent {o : List (SendOutput cap)} (hi : Counted R h)
    (hrm : h.action.onTheGoDataSize < h.action.config.windowSize) (hn : 0 < n)
    (hf : h.action.onTheGoDataSize + n ≤ h.action.sendingBuffer.size)
    (hw : h.action.onTheGoDataSize + n ≤ h.action.config.windowSize)
    (b : Becomes h.action (h.action.runOp op).1 h.action.sendingBuffer
      (h.action.sendingChunks.counted (nextRange h.action n)) (h.action.lastSent.add n))
    (ho : (h.action.runOp op).2 = o)
    (hr : o.foldl h.recordUnacked h.unacked = h.unacked ++ [h.base + h.action.onTheGoDataSize]) :
    Counted R (h.step op) := by
  have hbs : (h.step op).base = h.base :=
    step_base_of_same (by rw [b.sendingBuffer])
  have hb : (h.step op).action.sendingBuffer = h.action.sendingBuffer := b.sendingBuffer
  have hcn : (h.step op).action.config = h.action.config := b.config
  have hch : (h.step op).action.sendingChunks =
      h.action.sendingChunks.counted (nextRange h.action n) := b.sendingChunks
  have hu : (h.step op).unacked = h.unacked ++ [h.base + h.action.onTheGoDataSize] := by
    rw [← hr, ← ho]
    rfl
  have hm : ∀ a, h.unacked.count a ≤ (h.step op).unacked.count a := by
    intro a
    rw [hu, count_append]
    exact Nat.le_add_right _ _
  refine ⟨step_begin hi, ?_, ?_⟩
  · rw [hch, hb]
    exact hi.same_begin
  · intro c hc
    rw [hch] at hc
    rcases mem_counted hc with hh | rfl
    · obtain ⟨a, len, hct⟩ := hi.chunk c hh
      refine ⟨a, len, chunkCounted_kept hct hcn (by omega) ?_ ?_ (fun _ => hm a)⟩
      · rw [hbs]
        exact hct.pending
      · rw [hbs, hb]
    · have hl : h.action.lastSent = .ofNat (R + (h.base + h.action.onTheGoDataSize)) := by
        rw [← Nat.add_assoc, ← ofNat_add (R + h.base), ← hi.begin_eq]
        exact (add_distance _ _).symm
      refine ⟨h.base + h.action.onTheGoDataSize, n, hl, ?_, ?_, ?_, ?_, ?_, ?_⟩
      · simp only [nextRange]
        rw [add_sub_one _ hn, hl, ofNat_add]
        congr 1
        omega
      · omega
      · rw [hcn]
        omega
      · rw [hcn]
        omega
      · rw [hb]
        omega
      · intro _
        have hco := count_at_lastSent hi hrm
        rw [hu, count_append, count_singleton_self]
        simp only [nextRange, UInt8.toNat_add]
        exact le_trans (Nat.mod_le _ _) (Nat.add_le_add_right hco 1)

theorem counted_exhausted {b0 e0 : RingIndex cap} (hi : Counted R h) (hn : 0 < n)
    (hf : h.action.onTheGoDataSize + n ≤ h.action.sendingBuffer.size)
    (b : Becomes h.action (h.action.runOp op).1
      (h.action.sendingBuffer.erase (h.action.lastSent.add n))
      (forgotten h.action.sendingBuffer (h.action.sendingChunks.counted (nextRange h.action n))
        ((h.action.lastSent.add n).sub 1))
      (h.action.sendingBuffer.erase (h.action.lastSent.add n)).begin_)
    (ho : (h.action.runOp op).2 = [.sendFailed b0 e0]) : Counted R (h.step op) := by
  have hlt := size_lt h.action.sendingBuffer
  have hof : h.action.sendingBuffer.begin_.distance (h.action.lastSent.add n) =
      h.action.onTheGoDataSize + n := by
    unfold SafeStreamSendAction.onTheGoDataSize at hf ⊢
    exact distance_add_right (by omega)
  have hl : h.action.sendingBuffer.begin_.distance ((h.action.lastSent.add n).sub 1) =
      h.action.onTheGoDataSize + n - 1 := by
    rw [distance_sub_one, hof, if_neg (by omega)]
  obtain ⟨hbs, hb, hs⟩ := step_base_of_erase b.sendingBuffer (by omega)
  have hch : (h.step op).action.sendingChunks = _ := b.sendingChunks
  have hu : (h.step op).unacked = h.unacked := by
    simp [step, ho, recordUnacked]
  refine counted_kept hi b.config ?_ (by omega) (fun a _ => by rw [hu]) ?_
  · rw [hch]
    change (h.action.sendingBuffer.erase _).begin_ = (h.action.runOp op).1.sendingBuffer.begin_
    rw [b.sendingBuffer, sub_one_add_one]
  · intro c hc
    rw [hch] at hc
    obtain ⟨hm, hp⟩ := mem_removeUpTo.mp hc
    change h.action.sendingChunks.bufferBegin.distance _ <
      h.action.sendingChunks.bufferBegin.distance _ at hp
    rw [hi.same_begin, hl] at hp
    rcases mem_counted hm with hh | rfl
    · refine ⟨hh, fun a len hcn => ?_⟩
      rw [hcn.right_offset hi] at hp
      omega
    · -- the rejected chunk itself ends at the erased index
      simp only [nextRange] at hp
      omega

theorem counted_step (h : SendHistory cap) (op : SendOp cap) (hi : Counted R h)
    (hr : HasRoom h op) : Counted R (h.step op) := by
  generalize ho : (h.action.runOp op).2 = outs
  have hot := h.action.runOp_outcome op
  rw [ho] at hot
  cases hot with
  | @stored data _ b =>
    obtain ⟨hb, hg⟩ := h.action.sendingBuffer.push_bounds data
    exact counted_same hi b ho hb hg
  | ignored hir b | retargeted hrs b => exact counted_same hi b ho rfl le_rfl
  | acknowledged hc his b => exact counted_acknowledged hi his b ho
  | waiting hp hfl b =>
    have hw := (hr hp).1
    have hpl := h.action.payloadSize_eq hw.le
    omega
  | @sent _ n hp hrd hn b =>
    obtain ⟨-, hf, hw⟩ := reads_pos (hr hp).1 hp hrd
    exact counted_sent hi (hr hp).1 hn hf hw b ho rfl
  | exhausted hp hrd hm b =>
    obtain ⟨hn, hf, -⟩ := reads_pos (hr hp).1 hp hrd
    exact counted_exhausted hi hn hf b ho
  | misplaced hp hps hsz hou b =>
    have hin := (hr hp).2
    omega
  | stopped hs b => exact absurd hr id

theorem rejectsRepeated_of_counted (h : SendHistory cap) (op : SendOp cap)
    (hi : Counted R h) (hr : HasRoom h op) : RejectsRepeated h op := by
  intro b0 e0 hm
  generalize houts : (h.action.runOp op).2 = outs at hm
  have ho := h.action.runOp_outcome op
  rw [houts] at ho
  cases ho with
  | @exhausted _ n hp hrd more b =>
    obtain ⟨rfl, rfl⟩ := SendOutput.sendFailed.inj (mem_singleton.mp hm)
    obtain ⟨hn, hf, -⟩ := reads_pos (hr hp).1 hp hrd
    have hl := size_lt h.action.sendingBuffer
    refine ⟨rfl, h.action.onTheGoDataSize, ?_, ?_⟩
    · unfold SafeStreamSendAction.onTheGoDataSize at hf ⊢
      rw [distance_sub_one, distance_add_right (by omega), if_neg (by omega)]
      omega
    · have hc := count_at_lastSent hi (hr hp).1
      have hmr := UInt8.lt_iff_toNat_lt.mp more
      unfold nextCount at hmr
      rw [UInt8.toNat_add] at hmr
      have hmd := Nat.mod_le ((h.action.sendingChunks.repeatCountOf h.action.lastSent).toNat +
        (1 : UInt8).toNat) (2 ^ 8)
      have hon : (1 : UInt8).toNat = 1 := rfl
      omega
  | misplaced hp hps hs hot b =>
    have hin := (hr hp).2
    omega
  | _ => simp at hm

/-- In every run in which `SendChunk` always finds room in the window, a rejection follows
the configured number of unacknowledged pushes of a chunk it covers. -/
theorem rejects_only_repeated (config : SafeStreamConfig cap) (randomOffset : Nat)
    (memory : RingIndex cap → UInt8) (ops : List (SendOp cap))
    (room : Along step HasRoom (.init config randomOffset memory) ops) :
    Along step RejectsRepeated (.init config randomOffset memory) ops := by
  have hs : Counted randomOffset (.init config randomOffset memory : SendHistory cap) :=
    ⟨rfl, rfl, fun c hc => absurd hc (by simp [init, SafeStreamSendAction.init])⟩
  exact Along.of_invariant counted_step rejectsRepeated_of_counted hs room

theorem rejects_only_repeated_timeout :
    Along step RejectsRepeated (.init smallConfig 6 (fun _ => 0))
      [.setMaxPayload 2, .sendData [1, 2], .sendTask, .sendTask, .repeatTimeout, .sendTask,
        .sendTask, .repeatTimeout, .sendTask] :=
  rejects_only_repeated smallConfig 6 (fun _ => 0) _ (by decide)

/-- The window is full of bytes that were sent once; two further writes schedule `SendChunk`,
each run of which counts a repeat of the empty chunk behind the window. -/
theorem full_window_rejects :
    ¬ Along step RejectsRepeated (.init smallConfig 0 (fun _ => 0))
      [.setMaxPayload 3, .sendData [1, 2, 3], .sendTask, .sendTask, .sendData [4], .sendTask,
        .sendData [5], .sendTask] := by
  rintro ⟨-, -, -, -, -, -, -, h, -⟩
  obtain ⟨-, k, hk, hc⟩ := h (.ofNat 0) (.ofNat 2) (by decide)
  have hcs : k = 0 ∨ k = 1 ∨ k = 2 := by
    have : k ≤ 2 := hk
    omega
  rcases hcs with rfl | rfl | rfl
  · exact absurd hc (by decide)
  · exact absurd hc (by decide)
  · exact absurd hc (by decide)

end Ae.SafeStream.Rejection
