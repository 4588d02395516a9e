/- source: safe_stream/details/receiving_chunk_list.h
   digest: The list of received ranges and the greedy walk that finds what can be emitted. -/

import Ae.Lib.IntervalChain
import Ae.Types.Ring

set_option autoImplicit false

namespace Ae.SafeStream.ReceivingChunks
open List Types.Ring Lib.IntervalChain IndexComparable

inductive ChunkAddResult where
  | kInvalid
  | kDuplicate
  | kAdded
  | kAddRepeated
  deriving DecidableEq

structure Chunk (cap : Nat) where
  range : RingIndexRange cap
  repeatCount : UInt8
  deriving DecidableEq

/-- `ReceiveChunkList<Index>`: `chunks` are the nodes of the `std::map` in key order,
compared from the current buffer begin, and `ranges` is the sorted vector. -/
structure ReceiveChunkList (cap : Nat) where
  bufferBegin : RingIndex cap
  chunks : List (RingIndex cap × Chunk cap)
  ranges : List (RingIndexRange cap)

variable {cap : Nat}

def comparator (bufferBegin a b : RingIndex cap) : Bool := (mk a bufferBegin).lt b

/-- `std::map::emplace`: a node with an equivalent key is kept and returned, otherwise
the new node goes before the first node that is not less. -/
def emplace (bufferBegin key : RingIndex cap) (chunk : Chunk cap) :
    List (RingIndex cap × Chunk cap) → List (RingIndex cap × Chunk cap) × Option (Chunk cap)
  | [] => ([(key, chunk)], none)
  | node :: nodes =>
    if comparator bufferBegin node.1 key then
      let (nodes', found) := emplace bufferBegin key chunk nodes
      (node :: nodes', found)
    else if comparator bufferBegin key node.1 then
      ((key, chunk) :: node :: nodes, none)
    else
      (node :: nodes, some node.2)

/-- `std::lower_bound` on the left ends, then `insert` at the position found. -/
def insertRange (bufferBegin : RingIndex cap) (range : RingIndexRange cap)
    (ranges : List (RingIndexRange cap)) : List (RingIndexRange cap) :=
  ranges.takeWhile (fun a => (mk a.left bufferBegin).lt range.left) ++
    range :: ranges.dropWhile (fun a => (mk a.left bufferBegin).lt range.left)

theorem insertRange_cons (b : RingIndex cap) (r head : RingIndexRange cap)
    (ranges : List (RingIndexRange cap)) :
    insertRange b r (head :: ranges) =
      if b.distance head.left < b.distance r.left then head :: insertRange b r ranges
      else r :: head :: ranges := by
  have hb := lt_iff head.left b r.left
  simp only [insertRange, takeWhile_cons, dropWhile_cons]
  by_cases he : b.distance head.left < b.distance r.left
  · simp [hb.mpr he, he]
  · simp [Bool.eq_false_iff.mpr (fun h => he (hb.mp h)), he]

theorem mem_insertRange {b : RingIndex cap} {ra r : RingIndexRange cap}
    {ranges : List (RingIndexRange cap)} :
    r ∈ insertRange b ra ranges ↔ r = ra ∨ r ∈ ranges := by
  induction ranges with
  | nil => simp [insertRange]
  | cons head ranges ih =>
    rw [insertRange_cons]
    split_ifs
    · simp only [mem_cons, ih]
      tauto
    · simp only [mem_cons]

def receiveLoop (bufferBegin : RingIndex cap) :
    List (RingIndexRange cap) → RingIndexRange cap → RingIndex cap → RingIndexRange cap
  | [], range, _ => range
  | r :: rs, range, expectedIndex =>
    if (mk r.left bufferBegin).gt expectedIndex then range else
      let range := if (mk r.right bufferBegin).gt range.right
        then { range with right := r.right } else range
      receiveLoop bufferBegin rs range (range.right.add 1)

def missedLoop (bufferBegin : RingIndex cap) :
    List (RingIndexRange cap) → RingIndex cap → Option (RingIndexRange cap)
  | [], _ => none
  | r :: rs, expected =>
    if (mk r.left bufferBegin).gt expected then
      some ⟨expected, r.left.sub 1⟩
    else
      missedLoop bufferBegin rs (r.right.add 1)

namespace ReceiveChunkList

def ofBegin (bufferBegin : RingIndex cap) : ReceiveChunkList cap := ⟨bufferBegin, [], []⟩

variable (l : ReceiveChunkList cap)

def setBufferBegin (bufferBegin : RingIndex cap) :
    ReceiveChunkList cap := { l with bufferBegin }

def empty : Bool := l.chunks.isEmpty

def addChunk (range : RingIndexRange cap) (repeatCount : UInt8) :
    ChunkAddResult × ReceiveChunkList cap :=
  let (nodes, found) := emplace l.bufferBegin range.left ⟨range, repeatCount⟩ l.chunks
  let added : ReceiveChunkList cap :=
    { l with chunks := nodes, ranges := insertRange l.bufferBegin range l.ranges }
  match found with
  | none => (.kAdded, added)
  | some chunk =>
    if chunk.range = range then
      if chunk.repeatCount ≥ repeatCount then
        (.kDuplicate, { l with chunks := nodes })
      else
        (.kAddRepeated, { l with chunks := nodes.map (fun node =>
          if node.1 = range.left then (node.1, { node.2 with repeatCount }) else node) })
    else
      (.kAdded, added)

def receiveChunk : RingIndexRange cap :=
  receiveLoop l.bufferBegin l.ranges ⟨l.bufferBegin, l.bufferBegin⟩ l.bufferBegin

/-- `Acknowledge`: a range that ends at or before `to_` goes, one that overlaps it is cut. -/
def acknowledge (to_ : RingIndex cap) : ReceiveChunkList cap :=
  { l with
    chunks := l.chunks.filter (fun node => !(IndexComparable.mk node.1 l.bufferBegin).le to_)
    ranges := l.ranges.filterMap (fun r =>
      if (IndexComparable.mk r.right l.bufferBegin).le to_ then none
      else if (IndexComparable.mk r.left l.bufferBegin).le to_ then
        some { r with left := to_.add 1 }
      else some r) }

def findMissedChunk : Option (RingIndexRange cap) :=
  missedLoop l.bufferBegin l.ranges l.bufferBegin

theorem addChunk_cases (ra : RingIndexRange cap) (rc : UInt8) :
    (l.addChunk ra rc).2.bufferBegin = l.bufferBegin ∧
    (((l.addChunk ra rc).1 = .kAdded ∧
        ∀ r, r ∈ (l.addChunk ra rc).2.ranges ↔ r = ra ∨ r ∈ l.ranges) ∨
      (((l.addChunk ra rc).1 = .kDuplicate ∨ (l.addChunk ra rc).1 = .kAddRepeated) ∧
        (l.addChunk ra rc).2.ranges = l.ranges)) := by
  unfold addChunk
  generalize emplace l.bufferBegin ra.left ⟨ra, rc⟩ l.chunks = res
  obtain ⟨ns, f⟩ := res
  cases f with
  | none => exact ⟨rfl, .inl ⟨rfl, fun r => mem_insertRange⟩⟩
  | some c =>
    simp only
    split_ifs with he hn
    · exact ⟨rfl, .inr ⟨.inl rfl, rfl⟩⟩
    · exact ⟨rfl, .inr ⟨.inr rfl, rfl⟩⟩
    · exact ⟨rfl, .inl ⟨rfl, fun r => mem_insertRange⟩⟩

theorem receiveLoop_offset (b : RingIndex cap) (rs : List (RingIndexRange cap))
    (ra : RingIndexRange cap) (ei : RingIndex cap)
    (hrn : b.distance ra.right + 1 < cap) (hrs : ∀ r ∈ rs, b.distance r.right + 1 < cap) :
    b.distance (receiveLoop b rs ra ei).right =
      chain (rs.map (fun r => (b.distance r.left, b.distance r.right)))
        (b.distance ra.right) (b.distance ei) ∧
    (receiveLoop b rs ra ei).left = ra.left := by
  induction rs generalizing ra ei with
  | nil => exact ⟨rfl, rfl⟩
  | cons r rs ih =>
    have hr := hrs r mem_cons_self
    have hrt : ∀ q ∈ rs, b.distance q.right + 1 < cap :=
      fun q hq => hrs q (mem_cons_of_mem r hq)
    simp only [receiveLoop, map_cons, chain, gt_iff]
    by_cases hg : b.distance ei < b.distance r.left
    · rw [if_pos hg, if_pos hg]
      exact ⟨rfl, rfl⟩
    · rw [if_neg hg, if_neg (show ¬ b.distance r.left > b.distance ei from hg)]
      have hn : ∀ x : RingIndex cap, b.distance x + 1 < cap →
          b.distance (x.add 1) = b.distance x + 1 := by
        intro x hx
        conv_lhs => rw [← RingIndex.add_distance b x, RingIndex.add_add]
        exact RingIndex.distance_add_of_lt hx
      by_cases hf : b.distance ra.right < b.distance r.right
      · rw [if_pos hf]
        obtain ⟨hrg, hl⟩ := ih { ra with right := r.right } (r.right.add 1) hr hrt
        refine ⟨?_, hl⟩
        rw [hrg, hn r.right hr, max_eq_right hf.le]
      · rw [if_neg hf]
        obtain ⟨hrg, hl⟩ := ih ra (ra.right.add 1) hrn hrt
        refine ⟨?_, hl⟩
        rw [hrg, hn ra.right hrn, max_eq_left (by omega)]

theorem receiveChunk_spec
    (hrs : ∀ r ∈ l.ranges, l.bufferBegin.distance r.right + 1 < cap) (hc : 1 < cap) :
    l.receiveChunk.left = l.bufferBegin ∧
    l.bufferBegin.distance l.receiveChunk.right =
      chain (l.ranges.map (fun r => (l.bufferBegin.distance r.left,
        l.bufferBegin.distance r.right))) 0 0 := by
  obtain ⟨hr, hl⟩ := receiveLoop_offset l.bufferBegin l.ranges
    ⟨l.bufferBegin, l.bufferBegin⟩ l.bufferBegin (by simpa using hc) hrs
  refine ⟨hl, ?_⟩
  rw [receiveChunk, hr]
  simp

theorem mem_acknowledge {l : ReceiveChunkList cap} {to_ : RingIndex cap}
    {r : RingIndexRange cap} (h : r ∈ (l.acknowledge to_).ranges) :
    ∃ old ∈ l.ranges, r.right = old.right ∧
      l.bufferBegin.distance to_ < l.bufferBegin.distance old.right ∧
      ((l.bufferBegin.distance to_ < l.bufferBegin.distance old.left ∧ r.left = old.left) ∨
        (l.bufferBegin.distance old.left ≤ l.bufferBegin.distance to_ ∧ r.left = to_.add 1)) := by
  simp only [acknowledge, mem_filterMap, IndexComparable.le_iff] at h
  obtain ⟨old, hh, hr⟩ := h
  refine ⟨old, hh, ?_⟩
  split_ifs at hr with hrg hl
  · obtain rfl := Option.some.inj hr
    exact ⟨rfl, by omega, .inr ⟨hl, rfl⟩⟩
  · obtain rfl := Option.some.inj hr
    exact ⟨rfl, by omega, .inl ⟨by omega, rfl⟩⟩

end ReceiveChunkList

end Ae.SafeStream.ReceivingChunks
