/- source: safe_stream/details/circular_buffer.h
   digest: The circular buffer refines a bounded byte queue except at an exact fill. -/

import Ae.Lib.EventRun
import Ae.Lib.Lists
import Ae.SafeStream.Circular

/-!
The abstract state of a buffer is the byte list of `[begin, end)`. The buffer
grants an insertion all the space up to its begin, but it encodes a full ring
like an empty one: data that exactly fills the space is accepted and dropped.
That is the only operation on which the code leaves the queue.
-/

set_option autoImplicit false

namespace Ae.SafeStream.QueueRefinement
open List Types.Ring Lib.EventRun Lib.Lists Circular CircularBuffer

variable {cap : Nat}

def contents (b : CircularBuffer cap) : List UInt8 := (List.range b.size).map b.at_

@[simp] theorem contents_length (b : CircularBuffer cap) : (contents b).length = b.size := by
  simp [contents]

theorem getElem?_map_range (f : Nat → UInt8) (n j : Nat) :
    ((range n).map f)[j]? = if j < n then some (f j) else none := by
  rw [getElem?_map]
  split_ifs with h
  · rw [getElem?_range h]
    rfl
  · rw [getElem?_eq_none (by simpa using h)]
    rfl

theorem getElem?_contents (b : CircularBuffer cap) (j : Nat) :
    (contents b)[j]? = if j < b.size then some (b.at_ j) else none :=
  getElem?_map_range b.at_ b.size j

variable {b : CircularBuffer cap}

theorem contents_eq_nil (h : b.size = 0) : contents b = [] := by
  simp [contents, h]

theorem contents_drop_take (b : CircularBuffer cap) (k n : Nat) :
    ((contents b).drop k).take n = (range (min n (b.size - k))).map (fun j => b.at_ (k + j)) := by
  apply ext_getElem?
  intro j
  rw [getElem?_take, getElem?_drop, getElem?_contents, getElem?_map_range]
  split_ifs <;> first | rfl | omega

variable {data : List UInt8}

theorem contents_insert {pos : RingIndex cap} (hp : b.begin_.distance pos ≤ b.size)
    (h : b.begin_.distance pos + data.length < cap) :
    contents (b.insert pos data).2 = overlay (contents b) (b.begin_.distance pos) data := by
  apply ext_getElem?
  intro j
  have hs := insert_size h
  have hl := size_lt b
  rw [getElem?_overlay data (by simpa using hp), getElem?_contents, getElem?_contents, hs]
  by_cases hj : j < cap
  · rw [insert_at h.le hj]
    split_ifs with h1 h2 h3 h4 h5 h6 <;> first
      | rfl
      | omega
      | (rw [getElem?_eq_getElem (by omega)]; rfl)
      | (rw [getElem?_eq_none (by omega)]; rfl)
  · split_ifs <;> first | rfl | omega

theorem contents_push (h : b.size + data.length < cap) :
    contents (b.push data).2 = contents b ++ data := by
  have hh := @contents_insert cap b data b.end_ le_rfl h
  have he : b.begin_.distance b.end_ = (contents b).length := by simp [size]
  rw [push, hh, he, overlay_at_end]

theorem contents_erase {to_ : RingIndex cap} (h : b.begin_.distance to_ ≤ b.size) :
    contents (b.erase to_) = (contents b).drop (b.begin_.distance to_) := by
  apply ext_getElem?
  intro j
  rw [getElem?_drop, getElem?_contents, getElem?_contents, erase_size h, erase_at h]
  split_ifs <;> first | rfl | omega

theorem contents_eraseFrom {f : RingIndex cap} (h : b.begin_.distance f ≤ b.size) :
    contents (b.eraseFrom f) = (contents b).take (b.begin_.distance f) := by
  rw [eraseFrom_of_le h]
  have hm := contents_drop_take b 0 (b.begin_.distance f)
  rw [drop_zero] at hm
  rw [hm, Nat.sub_zero, min_eq_left h]
  simp [contents, size, at_]

theorem read_contents {s : RingIndex cap} (n : Nat) (h : b.begin_.distance s < b.size) :
    ∃ d, b.read s n = .ok d ∧ d.bytes = ((contents b).drop (b.begin_.distance s)).take n := by
  obtain ⟨d, hr, hb⟩ := read_spec n h
  exact ⟨d, hr, by rw [hb, contents_drop_take]⟩

inductive BufferOp (cap : Nat) where
  | push (data : List UInt8)
  | insert (pos : RingIndex cap) (data : List UInt8)
  | erase (to_ : RingIndex cap)
  | eraseFrom (from_ : RingIndex cap)
  | reset (offset : Nat)
  | read (start : RingIndex cap) (size : Nat)

variable [NeZero cap]

def step (b : CircularBuffer cap) : BufferOp cap → CircularBuffer cap
  | .push data => (b.push data).2
  | .insert pos data => (b.insert pos data).2
  | .erase to_ => b.erase to_
  | .eraseFrom from_ => b.eraseFrom from_
  | .reset offset => b.reset offset
  | .read _ _ => b

/-- The positions the header allows: up to the end, and before the end for a read. -/
def InBounds (b : CircularBuffer cap) : BufferOp cap → Prop
  | .push _ | .reset _ => True
  | .insert pos _ => b.begin_.distance pos ≤ b.size
  | .erase to_ => b.begin_.distance to_ ≤ b.size
  | .eraseFrom from_ => b.begin_.distance from_ ≤ b.size
  | .read start _ => b.begin_.distance start < b.size

instance (b : CircularBuffer cap) : (op : BufferOp cap) → Decidable (InBounds b op)
  | .push _ | .reset _ => inferInstanceAs (Decidable True)
  | .insert pos _ => inferInstanceAs (Decidable (b.begin_.distance pos ≤ b.size))
  | .erase to_ => inferInstanceAs (Decidable (b.begin_.distance to_ ≤ b.size))
  | .eraseFrom from_ => inferInstanceAs (Decidable (b.begin_.distance from_ ≤ b.size))
  | .read start _ => inferInstanceAs (Decidable (b.begin_.distance start < b.size))

/-- What a bounded byte queue does at `op`: an accepted write holds the old bytes
overwritten or extended by the data and returns their range, a refused one changes
nothing, and a read returns the stored bytes from its position on. -/
def Refines (b : CircularBuffer cap) : BufferOp cap → Prop
  | .push data =>
    match b.push data with
    | (.ok range, b') => contents b' = contents b ++ data ∧ b'.begin_ = b.begin_ ∧
        b'.size = b.size + data.length ∧ range.left = b.end_ ∧
        range.right.add 1 = b.end_.add data.length
    | (.error _, b') => b' = b
  | .insert pos data =>
    match b.insert pos data with
    | (.ok range, b') => contents b' = overlay (contents b) (b.begin_.distance pos) data ∧
        b'.begin_ = b.begin_ ∧ range.left = pos ∧ range.right.add 1 = pos.add data.length
    | (.error _, b') => b' = b
  | .erase to_ => contents (b.erase to_) = (contents b).drop (b.begin_.distance to_) ∧
      (b.erase to_).begin_ = to_
  | .eraseFrom from_ =>
      contents (b.eraseFrom from_) = (contents b).take (b.begin_.distance from_) ∧
      (b.eraseFrom from_).begin_ = b.begin_
  | .reset offset => contents (b.reset offset) = [] ∧ (b.reset offset).begin_ = .ofNat offset
  | .read start n => ∃ d, b.read start n = .ok d ∧
      d.bytes = ((contents b).drop (b.begin_.distance start)).take n

/-- The written data ends exactly where the ring begins again. -/
def ExactFill (b : CircularBuffer cap) : BufferOp cap → Prop
  | .push data => b.size + data.length = cap
  | .insert pos data => b.begin_.distance pos + data.length = cap
  | _ => False

instance (b : CircularBuffer cap) : (op : BufferOp cap) → Decidable (ExactFill b op)
  | .push data => inferInstanceAs (Decidable (b.size + data.length = cap))
  | .insert pos data => inferInstanceAs (Decidable (b.begin_.distance pos + data.length = cap))
  | .erase _ | .eraseFrom _ | .reset _ | .read _ _ => inferInstanceAs (Decidable False)

theorem insert_refines_iff {pos : RingIndex cap} (hp : b.begin_.distance pos ≤ b.size) :
    Refines b (.insert pos data) ↔ ¬ ExactFill b (.insert pos data) := by
  have hs := size_lt b
  simp only [Refines, ExactFill]
  rcases lt_trichotomy (b.begin_.distance pos + data.length) cap with h | h | h
  · obtain ⟨hh, hb, -, -⟩ := insert_spec h.le
    have hhv := contents_insert hp h
    generalize hres : b.insert pos data = res at hh hb hhv
    obtain ⟨r, b'⟩ := res
    simp only at hh hb hhv
    subst hh
    simp only [hhv, hb, RingIndex.sub_one_add_one, and_self, true_iff]
    omega
  · -- the end stays, so the accepted bytes are missing from the contents
    obtain ⟨hh, hb, -, -⟩ := insert_spec h.le
    have he := insert_exact h
    generalize hres : b.insert pos data = res at hh hb he
    obtain ⟨r, b'⟩ := res
    simp only at hh hb he
    subst hh
    simp only [h, not_true_eq_false, iff_false]
    rintro ⟨hc, -⟩
    have hl := congrArg length hc
    rw [overlay_length data (by simpa using hp), contents_length, contents_length] at hl
    have hsm : b'.size = b.size := by simp [size, hb, he]
    omega
  · rw [insert_overflow h]
    simp only [true_iff]
    omega

theorem push_refines_iff : Refines b (.push data) ↔ ¬ ExactFill b (.push data) := by
  have hen : b.begin_.distance b.end_ = (contents b).length := by simp [size]
  have hi := @insert_refines_iff cap b data _ b.end_ le_rfl
  have he : ExactFill b (.insert b.end_ data) ↔ ExactFill b (.push data) := .rfl
  rw [he] at hi
  rw [← hi]
  simp only [Refines, push, hen, overlay_at_end]
  generalize b.insert b.end_ data = res
  obtain ⟨r, b'⟩ := res
  cases r with
  | error e => exact .rfl
  | ok ra =>
    simp only
    refine ⟨fun h => ⟨h.1, h.2.1, h.2.2.2.1, h.2.2.2.2⟩, fun h => ⟨h.1, h.2.1, ?_, h.2.2⟩⟩
    have hl := congrArg length h.1
    simpa using hl

/-- One operation inside the bounds refines the queue exactly when it is no exact fill. -/
theorem refines_iff_not_exactFill {op : BufferOp cap} (hb : InBounds b op) :
    Refines b op ↔ ¬ ExactFill b op := by
  cases op with
  | push data => exact push_refines_iff
  | insert pos data => exact insert_refines_iff hb
  | erase to_ =>
    simp only [Refines, ExactFill, not_false_eq_true, iff_true]
    exact ⟨contents_erase hb, by rw [erase_of_le hb]⟩
  | eraseFrom f =>
    simp only [Refines, ExactFill, not_false_eq_true, iff_true]
    exact ⟨contents_eraseFrom hb, by rw [eraseFrom_of_le hb]⟩
  | reset o =>
    simp only [Refines, ExactFill, not_false_eq_true, iff_true]
    exact ⟨contents_eq_nil (by simp [size, reset]), rfl⟩
  | read s n =>
    simp only [Refines, ExactFill, not_false_eq_true, iff_true]
    exact read_contents n hb

/-- Along every run inside the bounds the buffer behaves as the bounded queue at every
operation exactly when no operation of the run exactly fills the ring. -/
theorem buffer_refines_queue_iff (b : CircularBuffer cap) (ops : List (BufferOp cap))
    (bounds : Along step InBounds b ops) :
    Along step Refines b ops ↔ Along step (fun b op => ¬ ExactFill b op) b ops := by
  have hb : Along step (fun b op => InBounds b op ∧ Refines b op) b ops ↔
      Along step (fun b op => InBounds b op ∧ ¬ ExactFill b op) b ops :=
    along_iff_of_invariant (I := fun _ => True) (fun _ _ _ _ => trivial)
      (fun _ _ _ => and_congr_right refines_iff_not_exactFill) trivial
  rw [along_and, along_and] at hb
  exact ⟨fun h => (hb.mp ⟨bounds, h⟩).2, fun h => (hb.mpr ⟨bounds, h⟩).2⟩

theorem buffer_refines_queue_iff_wrapped :
    Along step Refines (ofOffset 2 (fun _ => 0) : CircularBuffer 4)
      [.push [1, 2], .erase (.ofNat 3), .push [3, 4], .read (.ofNat 3) 9] :=
  (buffer_refines_queue_iff _ _ (by decide)).mpr (by decide)

/-- Four bytes pushed into an empty ring of four cells are accepted and lost. -/
theorem push_exact_fill_loses_data :
    Along step InBounds (ofOffset 0 (fun _ => 0) : CircularBuffer 4) [.push [1, 2, 3, 4]] ∧
    ¬ Along step Refines (ofOffset 0 (fun _ => 0) : CircularBuffer 4) [.push [1, 2, 3, 4]] := by
  refine ⟨by decide, ?_⟩
  rintro ⟨h, -⟩
  exact absurd h.1 (by decide)

end Ae.SafeStream.QueueRefinement
