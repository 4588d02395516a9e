/- source: safe_stream/details/circular_buffer.h
   digest: The circular byte buffer shared by both directions of a safe stream. -/

import Ae.Types.Ring
import Mathlib.Data.List.Basic

/-!
The array is a total map from ring indices to bytes. Every position is read
through its offset from the buffer begin: `at_ k` is the byte stored `k` places
after it. `insert_spec` and `read_spec` are the only facts about the copy loop
and about the two spans that the later modules use.
-/

set_option autoImplicit false

namespace Ae.SafeStream.Circular
open Function List Types.Ring RingIndex

inductive CircularBufferError where
  | kDataOverflow
  | kEmptyBuffer
  | kIndexOutOfRange
  deriving DecidableEq

structure DSpan where
  first : List UInt8
  second : List UInt8
  deriving DecidableEq

def DSpan.size (d : DSpan) : Nat := d.first.length + d.second.length

def DSpan.bytes (d : DSpan) : List UInt8 := d.first ++ d.second

theorem DSpan.bytes_length (d : DSpan) : d.bytes.length = d.size := by
  simp [bytes, size]

/-- `CircularBuffer<Capacity>`; the array keeps whatever it held before it is written. -/
structure CircularBuffer (cap : Nat) where
  begin_ : RingIndex cap
  end_ : RingIndex cap
  buffer : RingIndex cap → UInt8

variable {cap : Nat}

def copyN (buffer : RingIndex cap → UInt8) (dest : Nat) (data : List UInt8) :
    RingIndex cap → UInt8 :=
  fun i => if dest ≤ i.value then (data[i.value - dest]?).getD (buffer i) else buffer i

def span (buffer : RingIndex cap → UInt8) (from_ size : Nat) : List UInt8 :=
  (List.range size).filterMap
    (fun j => if h : from_ + j < cap then some (buffer ⟨from_ + j, h⟩) else none)

/-- The `while (!data.empty())` loop of `Insert`. Every turn copies at least one
byte, so as many turns as there are bytes are enough. -/
def copyLoop : Nat → (RingIndex cap → UInt8) → RingIndex cap → List UInt8 →
    (RingIndex cap → UInt8) × RingIndex cap
  | 0, buffer, pos, _ => (buffer, pos)
  | turns + 1, buffer, pos, data =>
    if data.isEmpty then (buffer, pos) else
      let remaining := cap - pos.value
      let copySize := if data.length > remaining then remaining else data.length
      copyLoop turns (copyN buffer pos.value (data.take copySize)) (pos.add copySize)
        (data.drop copySize)

namespace CircularBuffer

def ofOffset [NeZero cap] (start_offset : Nat) (memory : RingIndex cap → UInt8) :
    CircularBuffer cap :=
  ⟨.ofNat start_offset, .ofNat start_offset, memory⟩

variable (b : CircularBuffer cap)

def size : Nat := b.begin_.distance b.end_

def at_ (k : Nat) : UInt8 := b.buffer (b.begin_.add k)

def available (pos : RingIndex cap) : Nat :=
  if b.begin_ = pos then cap else pos.distance b.begin_

def insert (pos : RingIndex cap) (data : List UInt8) :
    Except CircularBufferError (RingIndexRange cap) × CircularBuffer cap :=
  if data.length > b.available pos then
    (.error .kDataOverflow, b)
  else
    let start := pos
    let (buffer, pos) := copyLoop data.length b.buffer pos data
    let end_ := if (IndexComparable.mk pos b.begin_).gt b.end_ then pos else b.end_
    (.ok ⟨start, pos.sub 1⟩, ⟨b.begin_, end_, buffer⟩)

def push (data : List UInt8) :
    Except CircularBufferError (RingIndexRange cap) × CircularBuffer cap :=
  b.insert b.end_ data

def read (start : RingIndex cap) (size : Nat) : Except CircularBufferError DSpan :=
  if b.begin_ = b.end_ ∨ start.distance b.end_ = 0 then
    .error .kEmptyBuffer
  else if start.distance b.end_ > b.begin_.distance b.end_ then
    .error .kIndexOutOfRange
  else
    let maxDistance := start.distance b.end_
    let size := if size > maxDistance then maxDistance else size
    let firstMaxSize := cap - start.value
    let firstSize := if firstMaxSize > size then size else firstMaxSize
    .ok ⟨span b.buffer start.value firstSize,
      if firstSize < size then span b.buffer 0 (size - firstSize) else []⟩

/-- `Erase`; past the bounds a release build leaves the buffer as it is. -/
def erase (to_ : RingIndex cap) : CircularBuffer cap :=
  if to_.distance b.end_ > b.begin_.distance b.end_ then b else { b with begin_ := to_ }

/-- `EraseFrom`; past the bounds a release build leaves the buffer as it is. -/
def eraseFrom (from_ : RingIndex cap) : CircularBuffer cap :=
  if from_.distance b.end_ > b.begin_.distance b.end_ then b else { b with end_ := from_ }

def reset [NeZero cap] (b : CircularBuffer cap) (offset : Nat) : CircularBuffer cap :=
  { b with begin_ := .ofNat offset, end_ := .ofNat offset }

end CircularBuffer

theorem copyLoop_spec (ts : Nat) (bu : RingIndex cap → UInt8)
    (pos : RingIndex cap) (data : List UInt8) (hen : data.length ≤ ts) (hf : data.length ≤ cap) :
    (copyLoop ts bu pos data).2 = pos.add data.length ∧
      ∀ i, (copyLoop ts bu pos data).1 i = (data[pos.distance i]?).getD (bu i) := by
  induction ts generalizing bu pos data with
  | zero =>
    obtain rfl : data = [] := length_eq_zero_iff.mp (by omega)
    simp [copyLoop]
  | succ ts ih =>
    by_cases hd : data = []
    · subst hd
      simp [copyLoop]
    have hp := pos.value_lt
    have hl : 0 < data.length := length_pos_iff.mpr hd
    simp only [copyLoop, List.isEmpty_iff, hd, if_false]
    by_cases wrap : data.length > cap - pos.value
    · rw [if_pos wrap]
      have hs : (pos.add (cap - pos.value)).value = 0 := by
        rw [add_value (by omega)]
        split_ifs <;> omega
      obtain ⟨he, hb⟩ := ih (copyN bu pos.value (data.take (cap - pos.value)))
        (pos.add (cap - pos.value)) (data.drop (cap - pos.value))
        (by simp only [length_drop]; omega) (by simp only [length_drop]; omega)
      refine ⟨?_, fun i => ?_⟩
      · rw [he, add_add, length_drop]
        congr 1
        omega
      · have hi := i.value_lt
        rw [hb i]
        have hz : (pos.add (cap - pos.value)).distance i = i.value := by
          rw [distance_eq, hs]
          simp
        rw [hz, getElem?_drop]
        by_cases before : i.value < pos.value
        · -- the cells before `pos` are reached by the second copy only
          have hds : pos.distance i = cap - pos.value + i.value := by
            rw [distance_eq, if_neg (by omega)]
          rw [hds]
          simp only [copyN]
          rw [if_neg (by omega)]
        · have hds : pos.distance i = i.value - pos.value := by
            rw [distance_eq, if_pos (by omega)]
          rw [hds, getElem?_eq_none (by omega)]
          simp only [copyN, Option.getD_none]
          rw [if_pos (by omega), getElem?_take_of_lt (by omega)]
    · rw [if_neg wrap]
      obtain ⟨he, hb⟩ := ih (copyN bu pos.value (data.take data.length))
        (pos.add data.length) (data.drop data.length) (by simp) (by simp)
      refine ⟨by simpa using he, fun i => ?_⟩
      have hi := i.value_lt
      rw [hb i, drop_length]
      simp only [getElem?_nil, Option.getD_none, copyN, take_length]
      rw [distance_eq]
      split_ifs with h
      · rfl
      · rw [getElem?_eq_none (by omega)]
        rfl

namespace CircularBuffer

theorem size_lt (b : CircularBuffer cap) : b.size < cap := distance_lt _ _

theorem available_eq (b : CircularBuffer cap) (pos : RingIndex cap) :
    b.available pos = cap - b.begin_.distance pos := by
  unfold available
  split_ifs with h
  · simp [h]
  · have hn : b.begin_.distance pos ≠ 0 := fun h0 => h (distance_eq_zero.mp h0)
    have hl := distance_lt b.begin_ pos
    rw [distance_of_lt (a := b.begin_) (by simp; omega)]
    simp

variable {b : CircularBuffer cap} {pos : RingIndex cap} {data : List UInt8}

theorem insert_overflow (h : cap < b.begin_.distance pos + data.length) :
    b.insert pos data = (.error .kDataOverflow, b) := by
  have hl := distance_lt b.begin_ pos
  unfold insert
  rw [if_pos (by rw [available_eq]; omega)]

/-- An accepted insertion writes exactly `data` from `pos` on, keeps the begin, and
moves the end only when the position after the data is further than the old end. -/
theorem insert_spec (h : b.begin_.distance pos + data.length ≤ cap) :
    (b.insert pos data).1 = .ok ⟨pos, (pos.add data.length).sub 1⟩ ∧
    (b.insert pos data).2.begin_ = b.begin_ ∧
    (b.insert pos data).2.end_ =
      (if b.size < b.begin_.distance (pos.add data.length) then pos.add data.length
        else b.end_) ∧
    ∀ i, (b.insert pos data).2.buffer i = (data[pos.distance i]?).getD (b.buffer i) := by
  have hf : ¬ data.length > b.available pos := by rw [available_eq]; omega
  obtain ⟨hp, hb⟩ := copyLoop_spec data.length b.buffer pos data le_rfl (by omega)
  unfold insert
  rw [if_neg hf]
  refine ⟨by simp only [hp], rfl, ?_, hb⟩
  simp only [hp, IndexComparable.gt_iff]
  rfl

theorem insert_at (h : b.begin_.distance pos + data.length ≤ cap) {j : Nat} (hj : j < cap) :
    (b.insert pos data).2.at_ j =
      if b.begin_.distance pos ≤ j then (data[j - b.begin_.distance pos]?).getD (b.at_ j)
      else b.at_ j := by
  obtain ⟨-, hbg, -, hb⟩ := insert_spec h
  unfold at_
  rw [hbg, hb]
  have ho : b.begin_.distance (b.begin_.add j) = j := distance_add_of_lt hj
  split_ifs with hk
  · rw [distance_of_le (a := b.begin_) (by rw [ho]; exact hk), ho]
  · have hl := distance_lt b.begin_ pos
    rw [distance_of_lt (a := b.begin_) (by rw [ho]; omega), ho, getElem?_eq_none (by omega)]
    rfl

theorem insert_size (h : b.begin_.distance pos + data.length < cap) :
    (b.insert pos data).2.size = max b.size (b.begin_.distance pos + data.length) := by
  obtain ⟨-, hb, he, -⟩ := insert_spec h.le
  have ho : b.begin_.distance (pos.add data.length) =
      b.begin_.distance pos + data.length := by
    conv_lhs => rw [← add_distance b.begin_ pos, add_add]
    exact distance_add_of_lt h
  change (b.insert pos data).2.begin_.distance (b.insert pos data).2.end_ = _
  rw [hb, he, ho]
  split_ifs with hs
  · rw [ho]
    omega
  · change b.size = _
    omega

theorem insert_exact (h : b.begin_.distance pos + data.length = cap) :
    (b.insert pos data).2.end_ = b.end_ := by
  obtain ⟨-, -, he, -⟩ := insert_spec h.le
  have ht : pos.add data.length = b.begin_ := by
    conv_lhs => rw [← add_distance b.begin_ pos, add_add, h]
    simpa using add_add_max b.begin_ 0
  rw [he, ht, if_neg (by simp)]

theorem push_bounds (b : CircularBuffer cap) (data : List UInt8) :
    (b.push data).2.begin_ = b.begin_ ∧ b.size ≤ (b.push data).2.size := by
  unfold push
  change _ ∧ b.begin_.distance b.end_ ≤ _
  rcases lt_trichotomy (b.begin_.distance b.end_ + data.length) cap with h | h | h
  · refine ⟨(insert_spec h.le).2.1, ?_⟩
    rw [insert_size h]
    exact le_max_left _ _
  · have hb := (insert_spec h.le).2.1
    refine ⟨hb, ?_⟩
    rw [size, hb, insert_exact h]
  · rw [insert_overflow h]
    exact ⟨rfl, le_rfl⟩

theorem span_eq (bu : RingIndex cap → UInt8) (start : RingIndex cap)
    {size : Nat} (h : start.value + size ≤ cap) :
    span bu start.value size = (range size).map (fun j => bu (start.add j)) := by
  unfold span
  rw [← filterMap_eq_map]
  apply filterMap_congr
  intro j hj
  have hj := mem_range.mp hj
  rw [dif_pos (by omega)]
  simp only [comp_apply, Option.some.injEq]
  congr 1
  ext
  rw [add_value (by omega), if_pos (by omega)]

theorem span_wrapped (bu : RingIndex cap → UInt8) (start : RingIndex cap)
    {size : Nat} (h : size ≤ start.value) :
    span bu 0 size = (range size).map (fun j => bu (start.add (cap - start.value + j))) := by
  have hs := start.value_lt
  unfold span
  rw [← filterMap_eq_map]
  apply filterMap_congr
  intro j hj
  have hj := mem_range.mp hj
  rw [dif_pos (by omega)]
  simp only [comp_apply, Option.some.injEq]
  congr 1
  ext
  rw [add_value (by omega), if_neg (by omega)]
  simp only
  omega

variable {start : RingIndex cap}

theorem offset_to_end (h : b.begin_.distance start ≤ b.size) :
    start.distance b.end_ = b.size - b.begin_.distance start :=
  distance_of_le h

theorem empty_iff (b : CircularBuffer cap) : b.begin_ = b.end_ ↔ b.size = 0 :=
  distance_eq_zero.symm

theorem at_end_iff (b : CircularBuffer cap) (start : RingIndex cap) :
    start.distance b.end_ = 0 ↔ b.begin_.distance start = b.size := by
  rw [distance_eq_zero, ← distance_inj (a := b.begin_)]
  rfl

theorem out_of_bounds_iff (b : CircularBuffer cap) (i : RingIndex cap) :
    i.distance b.end_ > b.begin_.distance b.end_ ↔ b.size < b.begin_.distance i := by
  have hl := distance_lt b.begin_ i
  change _ > b.size ↔ _
  by_cases hin : b.begin_.distance i ≤ b.size
  · rw [offset_to_end hin]
    omega
  · have ho : i.distance b.end_ = b.size + cap - b.begin_.distance i :=
      distance_of_lt (by change b.size < _; omega)
    rw [ho]
    omega

/-- Inside `[begin, end)` a read returns the requested bytes, clamped at the end,
wherever the array wraps. -/
theorem read_spec (n : Nat) (h : b.begin_.distance start < b.size) :
    ∃ d, b.read start n = .ok d ∧
      d.bytes = (range (min n (b.size - b.begin_.distance start))).map
        (fun j => b.at_ (b.begin_.distance start + j)) := by
  have ho := offset_to_end h.le
  have hn : ¬ (b.begin_ = b.end_ ∨ start.distance b.end_ = 0) := by
    rw [empty_iff, at_end_iff]
    omega
  have hr : ¬ start.distance b.end_ > b.begin_.distance b.end_ := by
    rw [out_of_bounds_iff]
    omega
  have hs := start.value_lt
  have hsz := size_lt b
  have hh : ∀ j, b.at_ (b.begin_.distance start + j) = b.buffer (start.add j) := by
    intro j
    unfold at_
    rw [← add_add, add_distance]
  unfold read
  rw [if_neg hn, if_neg hr]
  refine ⟨_, rfl, ?_⟩
  simp only [DSpan.bytes, hh, ho]
  have hc : (if n > b.size - b.begin_.distance start then b.size - b.begin_.distance start
      else n) = min n (b.size - b.begin_.distance start) := by
    split_ifs <;> omega
  rw [hc]
  generalize hm : min n (b.size - b.begin_.distance start) = m
  by_cases hw : cap - start.value > m
  · rw [if_pos hw, if_neg (lt_irrefl m), append_nil, span_eq _ _ (by omega)]
  · rw [if_neg hw, span_eq _ _ (by omega)]
    by_cases hexact : cap - start.value < m
    · rw [if_pos hexact, span_wrapped b.buffer start (by omega),
        show range m = range (cap - start.value) ++
          (range (m - (cap - start.value))).map (cap - start.value + ·) by
          rw [← range_add]; congr 1; omega]
      simp [comp_def]
    · rw [if_neg hexact, append_nil, show cap - start.value = m by omega]

theorem read_error_iff {n : Nat} :
    b.read start n = .error .kIndexOutOfRange ↔ 0 < b.size ∧ b.size < b.begin_.distance start := by
  unfold read
  simp only [empty_iff, at_end_iff, out_of_bounds_iff]
  split_ifs with h1 h2
  · simp only [Except.error.injEq, reduceCtorEq, false_iff]
    omega
  · simp only [true_iff]
    omega
  · simp only [false_iff]
    omega

theorem read_empty_iff {n : Nat} :
    b.read start n = .error .kEmptyBuffer ↔ b.size = 0 ∨ b.begin_.distance start = b.size := by
  unfold read
  simp only [empty_iff, at_end_iff]
  split_ifs with h1 h2
  · simpa using h1
  · simpa using h1
  · simpa using h1

variable {to_ : RingIndex cap}

theorem erase_of_le (h : b.begin_.distance to_ ≤ b.size) :
    b.erase to_ = { b with begin_ := to_ } := by
  unfold erase
  rw [if_neg (by rw [out_of_bounds_iff]; omega)]

theorem erase_of_gt (h : b.size < b.begin_.distance to_) : b.erase to_ = b := by
  unfold erase
  rw [if_pos ((out_of_bounds_iff b to_).mpr h)]

theorem eraseFrom_of_le {f : RingIndex cap} (h : b.begin_.distance f ≤ b.size) :
    b.eraseFrom f = { b with end_ := f } := by
  unfold eraseFrom
  rw [if_neg (by rw [out_of_bounds_iff]; omega)]

theorem eraseFrom_past_end {f : RingIndex cap} (h : b.size ≤ b.begin_.distance f) :
    b.eraseFrom f = b := by
  unfold eraseFrom
  split_ifs with ho
  · rfl
  · rw [out_of_bounds_iff, not_lt] at ho
    have he : f = b.end_ := distance_inj.mp (ho.antisymm h)
    rw [he]

theorem erase_size (h : b.begin_.distance to_ ≤ b.size) :
    (b.erase to_).size = b.size - b.begin_.distance to_ := by
  rw [erase_of_le h]
  exact offset_to_end h

theorem erase_at (h : b.begin_.distance to_ ≤ b.size) (k : Nat) :
    (b.erase to_).at_ k = b.at_ (b.begin_.distance to_ + k) := by
  rw [erase_of_le h]
  unfold at_
  rw [← add_add, add_distance]

theorem erase_through {i : RingIndex cap} (h : b.begin_.distance i < b.size) :
    b.begin_.distance (i.add 1) = b.begin_.distance i + 1 ∧ (b.erase (i.add 1)).begin_ = i.add 1 ∧
      (b.erase (i.add 1)).size = b.size - (b.begin_.distance i + 1) := by
  have hs := size_lt b
  have hn : b.begin_.distance (i.add 1) = b.begin_.distance i + 1 :=
    distance_add_right (by omega)
  refine ⟨hn, by rw [erase_of_le (by omega)], ?_⟩
  rw [erase_size (by omega), hn]

theorem erase_through_distance {i x : RingIndex cap} (h : b.begin_.distance i < b.size)
    (hx : b.begin_.distance i < b.begin_.distance x) :
    (b.erase (i.add 1)).begin_.distance x = b.begin_.distance x - (b.begin_.distance i + 1) := by
  obtain ⟨hn, hb, -⟩ := erase_through h
  rw [hb, @distance_of_le cap b.begin_ (i.add 1) x (by omega), hn]

theorem erase_past_end {i : RingIndex cap} (h : b.size ≤ b.begin_.distance i) :
    b.erase (i.add 1) = b := by
  have hl := distance_lt b.begin_ i
  by_cases hturn : b.begin_.distance i + 1 = cap
  · have hb : i.add 1 = b.begin_ := by
      conv_lhs => rw [← add_distance b.begin_ i, add_add, hturn]
      simpa using add_add_max b.begin_ 0
    rw [hb, erase_of_le (by simp)]
  · apply erase_of_gt
    rw [distance_add_right (by omega)]
    omega

end CircularBuffer

end Ae.SafeStream.Circular
