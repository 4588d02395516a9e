/- source: tele/traps/statistics_trap.h
   digest: The circular log of the telemetry keeps the bytes written last. -/

import Ae.SafeStream.Circular

set_option autoImplicit false

namespace Ae.Tele.CircularLog
open List Types.Ring RingIndex SafeStream.Circular

variable {cap : Nat}

structure LogStorage (cap : Nat) where
  start : RingIndex cap
  pos : RingIndex cap
  buffer : RingIndex cap → UInt8

/-- The loop of `operator<<` and of `MergeStatistics`: the pieces that it writes. -/
def readLoop (buffer : RingIndex cap → UInt8) : Nat → RingIndex cap → Nat → List (List UInt8)
  | 0, _, _ => []
  | fuel + 1, s, size =>
    if size = 0 then []
    else
      let n := if cap - s.value > size then size else cap - s.value
      span buffer s.value n :: readLoop buffer fuel (s.add n) (size - n)

namespace LogStorage

variable (v : LogStorage cap)

def size : Nat :=
  if v.pos.value ≥ v.start.value then v.pos.value - v.start.value
  else cap - v.start.value + v.pos.value

def write (data : List UInt8) : LogStorage cap :=
  let data := data.take (cap - 1)
  let copied := copyLoop data.length v.buffer v.pos data
  ⟨v.start.add (data.length - (cap - 1 - v.size)), copied.2, copied.1⟩

def pieces : List (List UInt8) := readLoop v.buffer v.size v.start v.size

def save : Nat × List UInt8 := (v.size % 2 ^ 32, v.pieces.flatten)

def load (stored : Nat × List UInt8) (small : stored.1 < cap) : LogStorage cap :=
  ⟨⟨0, Nat.zero_lt_of_lt small⟩, ⟨stored.1, small⟩, copyN v.buffer 0 (stored.2.take stored.1)⟩

def merge (newer : LogStorage cap) : LogStorage cap := newer.pieces.foldl write v

def content : List UInt8 := (range v.size).map fun j => v.buffer (v.start.add j)

end LogStorage

open LogStorage

def latest (n : Nat) (bytes : List UInt8) : List UInt8 := bytes.drop (bytes.length - n)

/-- The log keeps the bytes written last; they survive saving and loading; and a merge writes the
newer ones. -/
structure KeepsLatest (cap : Nat) : Prop where
  written : ∀ (v : LogStorage cap) (writes : List (List UInt8)), v.size = 0 →
    (∀ data ∈ writes, data.length ≤ cap - 1) →
    (writes.foldl write v).content = latest (cap - 1) writes.flatten
  saved : ∀ v w : LogStorage cap, ∃ small : v.save.1 < cap,
    (w.load v.save small).content = v.content
  merged : ∀ v newer : LogStorage cap, (v.merge newer).content = (v.write newer.content).content

section

variable {v : LogStorage cap} {data : List UInt8}

theorem size_eq : v.size = v.start.distance v.pos := (distance_eq v.start v.pos).symm

theorem size_lt : v.size < cap := size_eq ▸ distance_lt _ _

@[simp] theorem length_content : v.content.length = v.size := by
  simp [content]

theorem content_write (hsh : data.length ≤ cap - 1) :
    (v.write data).content = latest (cap - 1) (v.content ++ data) := by
  have hsm : v.size < cap := size_lt
  obtain ⟨hp, hb⟩ := copyLoop_spec data.length v.buffer v.pos data le_rfl (by omega)
  obtain ⟨excess, hio⟩ : ∃ excess, excess = data.length - (cap - 1 - v.size) := ⟨_, rfl⟩
  have hw : v.write data = ⟨v.start.add excess, (copyLoop data.length v.buffer v.pos data).2,
      (copyLoop data.length v.buffer v.pos data).1⟩ := by
    rw [write, take_of_length_le hsh, hio]
  have hl : v.pos = v.start.add v.size := by rw [size_eq, add_distance]
  have hs : (v.write data).size = v.size + data.length - excess := by
    have split : v.size + data.length = excess + (v.size + data.length - excess) := by omega
    rw [size_eq, hw, hp, hl, add_add, split, ← add_add, distance_add_of_lt (by omega)]
    omega
  have hd : latest (cap - 1) (v.content ++ data) = (v.content ++ data).drop excess := by
    rw [latest, length_append, length_content]
    congr 1
    omega
  rw [hd]
  refine ext_getElem (by simp [hs]) fun k hls _ => ?_
  rw [length_content, hs] at hls
  simp only [content, hw, getElem_map, getElem_range, getElem_drop, hb, add_add]
  rw [getElem_append]
  split
  · -- an old byte is more than the new ones ahead of their place
    next old =>
    rw [length_map, length_range] at old
    have hfs : v.start.distance (v.start.add (excess + k)) = excess + k :=
      distance_add_of_lt (by omega)
    rw [distance_of_lt (a := v.start) (by rw [hfs, ← size_eq]; exact old), hfs,
      ← size_eq, getElem?_eq_none (by omega)]
    simp
  · next new =>
    rw [length_map, length_range] at new
    have ha : v.start.add (excess + k) = v.pos.add (excess + k - v.size) := by
      rw [hl, add_add, Nat.add_sub_cancel' (by omega)]
    rw [ha, distance_add_of_lt (by omega), getElem?_eq_getElem (by omega)]
    simp

theorem latest_latest (n : Nat) (a b : List UInt8) :
    latest n (latest n a ++ b) = latest n (a ++ b) := by
  simp only [latest, length_append, length_drop]
  by_cases few : a.length ≤ n
  · rw [Nat.sub_eq_zero_of_le few, drop_zero, Nat.sub_zero]
  · rw [← drop_append_of_le_length (by omega), drop_drop]
    congr 1
    omega

theorem content_writes {ps : List (List UInt8)} (hs : ∀ p ∈ ps, p.length ≤ cap - 1) :
    (ps.foldl write v).content = latest (cap - 1) (v.content ++ ps.flatten) := by
  induction ps generalizing v with
  | nil =>
    rw [flatten_nil, append_nil, latest, length_content, Nat.sub_eq_zero_of_le, drop_zero]
    · rfl
    · exact Nat.le_sub_one_of_lt size_lt
  | cons p ps ih =>
    obtain ⟨h1, ho⟩ := forall_mem_cons.mp hs
    rw [foldl_cons, ih ho, content_write h1, latest_latest, flatten_cons, append_assoc]

theorem readLoop_flatten {b : RingIndex cap → UInt8} {fuel size : Nat} (s : RingIndex cap)
    (he : size ≤ fuel) : (readLoop b fuel s size).flatten =
      (range size).map fun j => b (s.add j) := by
  induction fuel generalizing s size with
  | zero => rw [Nat.le_zero.mp he]; rfl
  | succ fuel ih =>
    have := s.value_lt
    rw [readLoop]
    split
    · next hnl => rw [hnl]; rfl
    · obtain ⟨n, hin⟩ : ∃ n, n = if cap - s.value > size then size else cap - s.value := ⟨_, rfl⟩
      have hb : 0 < n ∧ n ≤ size ∧ s.value + n ≤ cap := by grind
      dsimp only
      rw [← hin, flatten_cons, ih _ (by omega), CircularBuffer.span_eq _ _ hb.2.2]
      conv_rhs => rw [← Nat.add_sub_cancel' hb.2.1, range_add]
      simp

theorem flatten_pieces : v.pieces.flatten = v.content := readLoop_flatten v.start le_rfl

theorem content_load {s : Nat × List UInt8} (hs : s.1 < cap) (he : s.1 ≤ s.2.length) :
    (v.load s hs).content = s.2.take s.1 := by
  refine ext_getElem (by simp [load, size, he]) fun k hl _ => ?_
  rw [length_content] at hl
  have hl : k < s.1 := hl
  have value : ((⟨0, Nat.zero_lt_of_lt hs⟩ : RingIndex cap).add k).value = k := by
    simp [RingIndex.add, Nat.mod_eq_of_lt (hl.trans hs)]
  have hi : k < s.2.length := hl.trans_le he
  simp [content, load, copyN, value, hl, hi]

theorem saved_iff (v w : LogStorage cap) :
    (∃ hsm : v.save.1 < cap, (w.load v.save hsm).content = v.content) ↔ v.size < 2 ^ 32 := by
  have hb : v.save.2 = v.content := flatten_pieces
  constructor
  · rintro ⟨hsm, he⟩
    have hl := congrArg length he
    rw [length_content, length_content] at hl
    have hs : v.size % 2 ^ 32 = v.size := hl
    exact hs ▸ Nat.mod_lt _ (Nat.two_pow_pos 32)
  · intro hf
    have hs : v.save.1 = v.size := Nat.mod_eq_of_lt hf
    refine ⟨hs ▸ size_lt, ?_⟩
    rw [content_load _ (by rw [hb, hs, length_content]), hb, hs, ← length_content,
      take_length]

end

theorem le_of_keepsLatest (hp : 0 < cap) (hk : KeepsLatest cap) : cap ≤ 2 ^ 32 := by
  let v : LogStorage cap := ⟨⟨0, hp⟩, ⟨0, hp⟩, fun _ => 0⟩
  have hf : (v.write (replicate (cap - 1) 0)).size = cap - 1 := by
    rw [← length_content, content_write (by rw [length_replicate])]
    simp [latest]
  have hft := (saved_iff _ v).mp (hk.saved (v.write (replicate (cap - 1) 0)) v)
  omega

/-- For every capacity from two on, the log keeps the latest bytes in all these ways exactly where
32 bits suffice for its size. -/
theorem keepsLatest_iff (cap : Nat) (two : 2 ≤ cap) : KeepsLatest cap ↔ cap ≤ 2 ^ 32 := by
  refine ⟨le_of_keepsLatest (by omega), fun hft => ⟨fun v ws he hs => ?_, fun v w => ?_,
    fun v n => ?_⟩⟩
  · rw [content_writes hs, length_eq_zero_iff.mp (length_content.trans he), nil_append]
  · exact (saved_iff v w).mpr (size_lt.trans_le hft)
  · have hf : n.content.length ≤ cap - 1 := by
      rw [length_content]
      exact Nat.le_sub_one_of_lt size_lt
    rw [content_write hf, LogStorage.merge, content_writes, flatten_pieces]
    intro p hm
    exact (flatten_pieces ▸ sublist_flatten_of_mem hm).length_le.trans hf

theorem keepsLatest_iff_eight : KeepsLatest 8 := (keepsLatest_iff 8 (by decide)).mpr (by decide)

/-- A log of four gigabytes is loaded as an empty one. -/
theorem keepsLatest_lost : ¬ KeepsLatest (2 ^ 32 + 1) := fun hk =>
  absurd (le_of_keepsLatest (Nat.succ_pos _) hk) (by decide)

end Ae.Tele.CircularLog
