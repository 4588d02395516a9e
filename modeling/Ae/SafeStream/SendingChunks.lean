/- source: safe_stream/details/sending_chunk_list.h
   digest: The chunks sent and not yet acknowledged, with their repeat counts. -/

import Ae.Types.Ring

set_option autoImplicit false

namespace Ae.SafeStream.SendingChunks
open List Types.Ring

/-- `SendingChunkList::Chunk` without its send time, which only sets timeouts. -/
structure Chunk (cap : Nat) where
  range : RingIndexRange cap
  repeatCount : UInt8
  deriving DecidableEq

/-- `SendingChunkList<Index>`, the oldest chunk first. -/
structure SendingChunkList (cap : Nat) where
  bufferBegin : RingIndex cap
  chunks : List (Chunk cap)
  deriving DecidableEq

variable {cap : Nat}

namespace SendingChunkList

variable (l : SendingChunkList cap)

def setBufferBegin (bufferBegin : RingIndex cap) : SendingChunkList cap :=
  { l with bufferBegin }

/-- The repeat count a chunk from `left` on starts with: that of the chunk it replaces. -/
def repeatCountOf (left : RingIndex cap) : UInt8 :=
  match l.chunks.find? (fun c => c.range.left == left) with
  | some old => old.repeatCount
  | none => 0

/-- `Register`: a chunk with the same left end is replaced and moved to the back. -/
def register (chunkRange : RingIndexRange cap) : SendingChunkList cap × Chunk cap :=
  let chunk := ⟨chunkRange, l.repeatCountOf chunkRange.left⟩
  ({ l with chunks := l.chunks.eraseP (fun c => c.range.left == chunkRange.left) ++ [chunk] },
    chunk)

def setBack (chunk : Chunk cap) : SendingChunkList cap :=
  { l with chunks := l.chunks.dropLast ++ [chunk] }

def removeUpTo (to_ : RingIndex cap) : SendingChunkList cap :=
  { l with
    chunks := l.chunks.filter (fun c => !(IndexComparable.mk c.range.right l.bufferBegin).le to_) }

variable (range : RingIndexRange cap)

def select : Option (Chunk cap) :=
  l.chunks.find? (fun c => range.inRange c.range.left l.bufferBegin)

def front : Option (Chunk cap) := l.chunks.head?

def empty : Bool := l.chunks.isEmpty

def counted : SendingChunkList cap :=
  { l with
    chunks := l.chunks.eraseP (fun c => c.range.left == range.left) ++
      [⟨range, l.repeatCountOf range.left + 1⟩] }

theorem register_setBack : (l.register range).1.setBack
      { (l.register range).2 with repeatCount := (l.register range).2.repeatCount + 1 } =
      l.counted range := by
  simp [register, setBack, counted]

theorem mem_counted {l : SendingChunkList cap} {r : RingIndexRange cap} {c : Chunk cap}
    (h : c ∈ (l.counted r).chunks) :
    c ∈ l.chunks ∨ c = ⟨r, l.repeatCountOf r.left + 1⟩ := by
  rcases mem_append.mp h with hh | hnew
  · exact .inl (mem_of_mem_eraseP hh)
  · exact .inr (mem_singleton.mp hnew)

theorem repeatCountOf_cases (lf : RingIndex cap) :
    l.repeatCountOf lf = 0 ∨
      ∃ c ∈ l.chunks, c.range.left = lf ∧ l.repeatCountOf lf = c.repeatCount := by
  unfold repeatCountOf
  cases hfind : l.chunks.find? (fun c => c.range.left == lf) with
  | none => exact .inl rfl
  | some c =>
    have hl := find?_some hfind
    exact .inr ⟨c, mem_of_find?_eq_some hfind, by simpa using hl, rfl⟩

theorem mem_removeUpTo {l : SendingChunkList cap} {to_ : RingIndex cap} {c : Chunk cap} :
    c ∈ (l.removeUpTo to_).chunks ↔
      c ∈ l.chunks ∧ l.bufferBegin.distance to_ < l.bufferBegin.distance c.range.right := by
  have hl := IndexComparable.le_iff c.range.right l.bufferBegin to_
  rw [removeUpTo, mem_filter, Bool.not_eq_true', Bool.eq_false_iff, Ne, hl, not_le]

end SendingChunkList

end Ae.SafeStream.SendingChunks
