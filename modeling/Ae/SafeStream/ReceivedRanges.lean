/- source: safe_stream/details/receiving_chunk_list.h
   digest: The chunk list computes over the union of its ranges, and the gap search does not always. -/

import Ae.SafeStream.ReceivingChunks
import Mathlib.Data.List.Induction

set_option autoImplicit false

namespace Ae.SafeStream.ReceivedRanges
open List Types.Ring Lib.IntervalChain ReceivingChunks RingIndex ReceiveChunkList
open IndexComparable

variable {cap : Nat}

/-- A range that is not flipped and lies within less than half the ring after `b`. -/
structure InWindow (b : RingIndex cap) (r : RingIndexRange cap) : Prop where
  proper : b.distance r.left ≤ b.distance r.right
  near : 2 * b.distance r.right < cap

instance (b : RingIndex cap) (r : RingIndexRange cap) : Decidable (InWindow b r) :=
  decidable_of_iff (b.distance r.left ≤ b.distance r.right ∧ 2 * b.distance r.right < cap)
    ⟨fun h => ⟨h.1, h.2⟩, fun h => ⟨h.proper, h.near⟩⟩

variable (b : RingIndex cap) (ranges : List (RingIndexRange cap))

def Covered (k : Nat) : Prop :=
  ∃ r ∈ ranges, b.distance r.left ≤ k ∧ k ≤ b.distance r.right

instance (k : Nat) : Decidable (Covered b ranges k) :=
  inferInstanceAs (Decidable (∃ r ∈ ranges, b.distance r.left ≤ k ∧ k ≤ b.distance r.right))

def offsets : List (Nat × Nat) :=
  ranges.map (fun r => (b.distance r.left, b.distance r.right))

def SortedFrom : Prop :=
  ranges.Pairwise (fun x y => b.distance x.left ≤ b.distance y.left)

variable {b ranges}

theorem covers_offsets {k : Nat} : Covers (offsets b ranges) k ↔ Covered b ranges k := by
  simp [Covers, offsets, Covered]

theorem sorted_offsets (hs : SortedFrom b ranges) (hn : ∀ r ∈ ranges, InWindow b r) :
    Sorted (offsets b ranges) := by
  refine ⟨pairwise_map.mpr hs, ?_⟩
  intro p hp
  obtain ⟨r, hr, rfl⟩ := mem_map.mp hp
  exact (hn r hr).proper

structure Recorded (l : ReceiveChunkList cap) : Prop where
  sorted : SortedFrom l.bufferBegin l.ranges
  keys : ∀ node ∈ l.chunks, node.1 = node.2.range.left ∧ node.2.range ∈ l.ranges
  lefts : ∀ r ∈ l.ranges, ∃ node ∈ l.chunks, node.1 = r.left

theorem emplace_cases (b key : RingIndex cap) (c : Chunk cap)
    (ns : List (RingIndex cap × Chunk cap)) :
    ((emplace b key c ns).2 = none ∧
      ∀ node, node ∈ (emplace b key c ns).1 ↔ node = (key, c) ∨ node ∈ ns) ∨
    (∃ f, (emplace b key c ns).2 = some f ∧
      (emplace b key c ns).1 = ns ∧ (key, f) ∈ ns) := by
  induction ns with
  | nil => exact .inl ⟨rfl, by simp [emplace]⟩
  | cons head ns ih =>
    by_cases before : comparator b head.1 key = true
    · simp only [emplace, before, if_true]
      rcases ih with ⟨none, members⟩ | ⟨f, some, same, mem⟩
      · refine .inl ⟨none, fun node => ?_⟩
        rw [mem_cons, mem_cons, members node]
        tauto
      · exact .inr ⟨f, some, by rw [same], mem_cons_of_mem head mem⟩
    · by_cases after : comparator b key head.1 = true
      · simp only [emplace, before, after, if_true]
        exact .inl ⟨rfl, by simp⟩
      · simp only [emplace, before, after]
        have equal : head.1 = key := by
          rw [comparator, lt_iff] at before after
          exact (distance_inj (a := b)).mp (by omega)
        exact .inr ⟨head.2, rfl, rfl, by rw [← equal]; exact mem_cons_self⟩

theorem insertRange_sorted {ra : RingIndexRange cap} (hs : SortedFrom b ranges) :
    SortedFrom b (insertRange b ra ranges) := by
  induction ranges with
  | nil => simp [insertRange, SortedFrom]
  | cons head ranges ih =>
    have ha : ∀ r ∈ ranges, b.distance head.left ≤ b.distance r.left :=
      fun r hr => rel_of_pairwise_cons hs hr
    rw [insertRange_cons]
    split_ifs with he
    · refine pairwise_cons.mpr ⟨?_, ih hs.of_cons⟩
      intro r hr
      rcases mem_insertRange.mp hr with rfl | old
      · exact he.le
      · exact ha r old
    · refine pairwise_cons.mpr ⟨?_, hs⟩
      intro r hr
      rcases mem_cons.mp hr with rfl | later
      · omega
      · have := ha r later
        omega

variable {l : ReceiveChunkList cap}

theorem Recorded.insert (hrc : Recorded l) (ra : RingIndexRange cap)
    {ns : List (RingIndex cap × Chunk cap)}
    (hk : ∀ node ∈ ns, node ∈ l.chunks ∨ (node.1 = ra.left ∧ node.2.range = ra))
    (hkp : ∀ node ∈ l.chunks, node ∈ ns) (key : ∃ node ∈ ns, node.1 = ra.left) :
    Recorded { l with chunks := ns, ranges := insertRange l.bufferBegin ra l.ranges } := by
  refine ⟨insertRange_sorted hrc.sorted, ?_, ?_⟩
  · intro node hn
    rcases hk node hn with old | ⟨hl, hw⟩
    · obtain ⟨hl, hh⟩ := hrc.keys node old
      exact ⟨hl, mem_insertRange.mpr (.inr hh)⟩
    · exact ⟨by rw [hw, hl], mem_insertRange.mpr (.inl hw)⟩
  · intro r hr
    rcases mem_insertRange.mp hr with rfl | old
    · exact key
    · obtain ⟨node, hn, hl⟩ := hrc.lefts r old
      exact ⟨node, hkp node hn, hl⟩

theorem Recorded.recount (hrc : Recorded l)
    {c : RingIndex cap × Chunk cap → RingIndex cap × Chunk cap}
    (he : ∀ node, (c node).1 = node.1 ∧ (c node).2.range = node.2.range) :
    Recorded { l with chunks := l.chunks.map c } := by
  refine ⟨hrc.sorted, ?_, ?_⟩
  · intro node hn
    obtain ⟨old, hh, rfl⟩ := mem_map.mp hn
    rw [(he old).1, (he old).2]
    exact hrc.keys old hh
  · intro r hr
    obtain ⟨node, hn, hl⟩ := hrc.lefts r hr
    exact ⟨c node, mem_map_of_mem hn, (he node).1.trans hl⟩

theorem Recorded.addChunk (recorded : Recorded l) (ra : RingIndexRange cap)
    (rc : UInt8) :
    Recorded (l.addChunk ra rc).2 ∧
      (l.addChunk ra rc).2.bufferBegin = l.bufferBegin ∧
      ∀ r, r ∈ (l.addChunk ra rc).2.ranges ↔ r = ra ∨ r ∈ l.ranges := by
  have cases := emplace_cases l.bufferBegin ra.left ⟨ra, rc⟩ l.chunks
  unfold ReceiveChunkList.addChunk
  generalize emplace l.bufferBegin ra.left ⟨ra, rc⟩ l.chunks = res at cases ⊢
  obtain ⟨ns, f⟩ := res
  simp only at cases ⊢
  rcases cases with ⟨rfl, members⟩ | ⟨c, rfl, rfl, mem⟩
  · refine ⟨recorded.insert ra ?_ ?_ ?_, rfl, fun r => mem_insertRange⟩
    · intro node hnode
      rcases (members node).mp hnode with rfl | old
      · exact .inr ⟨rfl, rfl⟩
      · exact .inl old
    · exact fun node old => (members node).mpr (.inr old)
    · exact ⟨_, (members _).mpr (.inl rfl), rfl⟩
  · by_cases same : c.range = ra
    · -- the map holds this very range, so the vector holds it too
      have again : ∀ r, r ∈ l.ranges ↔ r = ra ∨ r ∈ l.ranges := by
        intro r
        refine ⟨.inr, ?_⟩
        rintro (rfl | old)
        · rw [← same]
          exact (recorded.keys _ mem).2
        · exact old
      by_cases newer : c.repeatCount ≥ rc
      · simp only [if_pos same, if_pos newer]
        exact ⟨recorded, trivial, again⟩
      · simp only [if_pos same, if_neg newer]
        refine ⟨recorded.recount ?_, trivial, again⟩
        intro node
        by_cases here : node.1 = ra.left
        · simp [here]
        · simp [here]
    · simp only [if_neg same]
      exact ⟨recorded.insert ra (fun node hnode => .inl hnode) (fun node hnode => hnode)
        ⟨_, mem, rfl⟩, trivial, fun r => mem_insertRange⟩

def addChunks (b : RingIndex cap) (calls : List (RingIndexRange cap × UInt8)) :
    ReceiveChunkList cap :=
  calls.foldl (fun l call => (l.addChunk call.1 call.2).2) (.ofBegin b)

theorem addChunks_spec (b : RingIndex cap) (cs : List (RingIndexRange cap × UInt8)) :
    Recorded (addChunks b cs) ∧ (addChunks b cs).bufferBegin = b ∧
      ∀ r, r ∈ (addChunks b cs).ranges ↔ r ∈ cs.map Prod.fst := by
  unfold addChunks
  induction cs using reverseRecOn with
  | nil => exact ⟨⟨Pairwise.nil, by simp [ofBegin], by simp [ofBegin]⟩, rfl, by simp [ofBegin]⟩
  | append_singleton cs c ih =>
    obtain ⟨hr, hb, hm⟩ := ih
    rw [foldl_append, foldl_cons, foldl_nil]
    obtain ⟨hr', he, ha⟩ := hr.addChunk c.1 c.2
    refine ⟨hr', he.trans hb, ?_⟩
    intro r
    rw [ha r, hm r, map_append, mem_append, map_singleton, mem_singleton]
    tauto

theorem addChunks_covered (b : RingIndex cap) (cs : List (RingIndexRange cap × UInt8))
    (k : Nat) : Covered b (addChunks b cs).ranges k ↔ Covered b (cs.map Prod.fst) k := by
  unfold Covered
  simp only [(addChunks_spec b cs).2.2]

theorem InWindow.next {r : RingIndexRange cap} (h : InWindow b r) (hc : 1 < cap) :
    b.distance r.right + 1 < cap := by
  have hn := h.near
  omega

theorem receiveChunk_run (hs : SortedFrom l.bufferBegin l.ranges)
    (hn : ∀ r ∈ l.ranges, InWindow l.bufferBegin r) :
    l.receiveChunk.left = l.bufferBegin ∧
      RunEnd (Covered l.bufferBegin l.ranges) (l.bufferBegin.distance l.receiveChunk.right) := by
  rcases lt_or_ge 1 cap with hcap | hcap
  · obtain ⟨hl, hrg⟩ := l.receiveChunk_spec (fun r hr => (hn r hr).next hcap) hcap
    refine ⟨hl, ?_⟩
    rw [hrg]
    exact (chain_run (sorted_offsets hs hn)).congr (fun k => covers_offsets)
  · -- on a ring of one index every distance is zero
    have hz : ∀ x : RingIndex cap, l.bufferBegin.distance x = 0 := by
      intro x
      have := distance_lt l.bufferBegin x
      omega
    refine ⟨(distance_eq_zero.mp (hz _)).symm, ?_⟩
    rw [hz]
    refine ⟨fun hc k hk => Nat.le_zero.mp hk ▸ hc, ?_, fun _ => rfl⟩
    rintro - ⟨r, -, -, hrg⟩
    rw [hz] at hrg
    omega

theorem run_closed (hs : SortedFrom l.bufferBegin l.ranges)
    (hn : ∀ r ∈ l.ranges, InWindow l.bufferBegin r) {r : RingIndexRange cap} (hr : r ∈ l.ranges)
    (he : l.bufferBegin.distance r.left ≤ l.bufferBegin.distance l.receiveChunk.right) :
    l.bufferBegin.distance r.right ≤ l.bufferBegin.distance l.receiveChunk.right := by
  have run := (receiveChunk_run hs hn).2
  by_contra crosses
  by_cases zero : Covered l.bufferBegin l.ranges 0
  · exact run.maximal zero ⟨r, hr, by omega, by omega⟩
  · have ha := run.uncovered zero
    exact zero ⟨r, hr, by omega, by omega⟩

theorem distance_after {b to_ x : RingIndex cap} (hl : b.distance to_ < b.distance x) :
    (to_.add 1).distance x = b.distance x - (b.distance to_ + 1) := by
  have hx := distance_lt b x
  have hn : b.distance (to_.add 1) = b.distance to_ + 1 :=
    distance_add_right (by omega)
  rw [distance_of_le (a := b) (by omega), hn]

def acknowledged (b to_ : RingIndex cap) (r : RingIndexRange cap) : Option (RingIndexRange cap) :=
  if b.distance r.right ≤ b.distance to_ then none
  else if b.distance r.left ≤ b.distance to_ then some { r with left := to_.add 1 }
  else some r

theorem acknowledge_ranges (l : ReceiveChunkList cap) (to_ : RingIndex cap) :
    (l.acknowledge to_).ranges = l.ranges.filterMap (acknowledged l.bufferBegin to_) := by
  simp only [acknowledge, le_iff]
  rfl

theorem acknowledged_some {b to_ : RingIndex cap} {r r' : RingIndexRange cap}
    (h : acknowledged b to_ r = some r') :
    b.distance to_ < b.distance r.right ∧
      (to_.add 1).distance r'.left = b.distance r.left - (b.distance to_ + 1) ∧
      (to_.add 1).distance r'.right = b.distance r.right - (b.distance to_ + 1) := by
  unfold acknowledged at h
  split_ifs at h with hg hc
  · obtain rfl := Option.some.inj h
    refine ⟨by omega, ?_, distance_after (Nat.not_le.mp hg)⟩
    simp only [distance_self]
    omega
  · obtain rfl := Option.some.inj h
    exact ⟨by omega, distance_after (by omega), distance_after (by omega)⟩

theorem acknowledge_covered (l : ReceiveChunkList cap) (to_ : RingIndex cap) (k : Nat) :
    Covered (to_.add 1) (l.acknowledge to_).ranges k ↔
      Covered l.bufferBegin l.ranges (l.bufferBegin.distance to_ + 1 + k) := by
  rw [acknowledge_ranges]
  constructor
  · rintro ⟨r', hr', hl, hrg⟩
    obtain ⟨r, hr, hk⟩ := mem_filterMap.mp hr'
    obtain ⟨hlt, hlf, hrh⟩ := acknowledged_some hk
    exact ⟨r, hr, by omega, by omega⟩
  · rintro ⟨r, hr, hl, hrg⟩
    have hlt : l.bufferBegin.distance to_ < l.bufferBegin.distance r.right := by omega
    have hk : ∃ r', acknowledged l.bufferBegin to_ r = some r' := by
      unfold acknowledged
      rw [if_neg (by omega)]
      split_ifs
      · exact ⟨_, rfl⟩
      · exact ⟨_, rfl⟩
    obtain ⟨r', hr'⟩ := hk
    obtain ⟨-, hlf, hrh⟩ := acknowledged_some hr'
    exact ⟨r', mem_filterMap.mpr ⟨r, hr, hr'⟩, by omega, by omega⟩

theorem acknowledge_sorted (to_ : RingIndex cap) (hs : SortedFrom l.bufferBegin l.ranges) :
    SortedFrom (to_.add 1) (l.acknowledge to_).ranges := by
  unfold SortedFrom
  rw [acknowledge_ranges, pairwise_filterMap]
  refine Pairwise.imp ?_ hs
  intro x y ho x' hx' y' hy'
  have hl := (acknowledged_some hx').2.1
  have hr := (acknowledged_some hy').2.1
  omega

theorem Recorded.acknowledge (hrc : Recorded l) (hnr : ∀ r ∈ l.ranges, InWindow l.bufferBegin r) :
    Recorded ((l.acknowledge l.receiveChunk.right).setBufferBegin
      (l.receiveChunk.right.add 1)) := by
  have hkp : ∀ node, node ∈ (l.acknowledge l.receiveChunk.right).chunks ↔ node ∈ l.chunks ∧
      l.bufferBegin.distance l.receiveChunk.right < l.bufferBegin.distance node.1 := by
    intro node
    have le := le_iff node.1 l.bufferBegin l.receiveChunk.right
    rw [ReceiveChunkList.acknowledge, mem_filter, Bool.not_eq_true', Bool.eq_false_iff, Ne,
      le, not_le]
  refine ⟨acknowledge_sorted _ hrc.sorted, ?_, ?_⟩
  · intro node hn
    obtain ⟨ho, hl⟩ := (hkp node).mp hn
    obtain ⟨hk, hh⟩ := hrc.keys node ho
    refine ⟨hk, ?_⟩
    have hp := (hnr _ hh).proper
    rw [hk] at hl
    change node.2.range ∈ (l.acknowledge l.receiveChunk.right).ranges
    rw [acknowledge_ranges]
    refine mem_filterMap.mpr ⟨_, hh, ?_⟩
    rw [acknowledged, if_neg (by omega), if_neg (by omega)]
  · intro r' hr'
    change r' ∈ (l.acknowledge l.receiveChunk.right).ranges at hr'
    rw [acknowledge_ranges] at hr'
    obtain ⟨r, hr, hf⟩ := mem_filterMap.mp hr'
    have hen := (acknowledged_some hf).1
    have hb : l.bufferBegin.distance l.receiveChunk.right < l.bufferBegin.distance r.left := by
      by_contra he
      have := run_closed hrc.sorted hnr hr (Nat.not_lt.mp he)
      omega
    rw [acknowledged, if_neg (by omega), if_neg (by omega)] at hf
    obtain rfl := Option.some.inj hf
    obtain ⟨node, hn, hk⟩ := hrc.lefts r hr
    exact ⟨node, (hkp node).mpr ⟨hn, by rw [hk]; exact hb⟩, hk⟩

theorem addChunks_near {cs : List (RingIndexRange cap × UInt8)}
    (hn : ∀ c ∈ cs, InWindow b c.1) : ∀ r ∈ (addChunks b cs).ranges, InWindow b r := by
  intro r hr
  obtain ⟨c, hc, rfl⟩ := mem_map.mp (((addChunks_spec b cs).2.2 r).mp hr)
  exact hn c hc

theorem addChunks_run {cs : List (RingIndexRange cap × UInt8)} (hn : ∀ c ∈ cs, InWindow b c.1) :
    (addChunks b cs).receiveChunk.left = b ∧ RunEnd (Covered b (cs.map Prod.fst))
        (b.distance (addChunks b cs).receiveChunk.right) := by
  obtain ⟨hr, hb, -⟩ := addChunks_spec b cs
  have run := receiveChunk_run hr.sorted (by rw [hb]; exact addChunks_near hn)
  rw [hb] at run
  exact ⟨run.1, run.2.congr (addChunks_covered b cs)⟩

theorem receiveChunk_of_union (b : RingIndex cap) (calls : List (RingIndexRange cap × UInt8))
    (near : ∀ call ∈ calls, InWindow b call.1) :
    let l := addChunks b calls
    let to_ := l.receiveChunk.right
    let c := Covered b (calls.map Prod.fst)
    let rest := (l.acknowledge to_).setBufferBegin (to_.add 1)
    (c 0 → (∀ k ≤ b.distance to_, c k) ∧ ¬ c (b.distance to_ + 1)) ∧
      (¬ c 0 → to_ = b) ∧
      (∀ p, p.Perm calls → (addChunks b p).receiveChunk = l.receiveChunk) ∧
      SortedFrom rest.bufferBegin rest.ranges ∧
      ∀ k, Covered rest.bufferBegin rest.ranges k ↔ c (b.distance to_ + 1 + k) := by
  intro l to_ c rest
  obtain ⟨hr, hb, -⟩ := addChunks_spec b calls
  obtain ⟨hl, run⟩ := addChunks_run near
  refine ⟨fun hz => ⟨run.run hz, run.maximal hz⟩, ?_, ?_, ?_, ?_⟩
  · intro hz
    exact (distance_eq_zero.mp (run.uncovered hz)).symm
  · intro p hp
    obtain ⟨hl', hr'⟩ := addChunks_run (fun call hc => near call (hp.mem_iff.mp hc))
    have he : ∀ k, Covered b (p.map Prod.fst) k ↔ c k := by
      intro k
      unfold c Covered
      simp only [(hp.map Prod.fst).mem_iff]
    have hrg : (addChunks b p).receiveChunk.right = l.receiveChunk.right :=
      distance_inj.mp ((hr'.congr he).unique run)
    generalize (addChunks b p).receiveChunk = mine at hl' hrg ⊢
    generalize l.receiveChunk = other at hl hrg ⊢
    cases mine
    cases other
    simp_all
  · exact acknowledge_sorted to_ hr.sorted
  · intro k
    have ha := acknowledge_covered l to_ k
    rw [show l.bufferBegin = b from hb] at ha
    exact ha.trans (addChunks_covered b calls _)

theorem receiveChunk_of_union_shuffled :
    (addChunks (.ofNat 14 : RingIndex 16)
      [(⟨.ofNat 1, .ofNat 2⟩, 0), (⟨.ofNat 14, .ofNat 1⟩, 0), (⟨.ofNat 15, .ofNat 0⟩, 0)]
        ).receiveChunk.right = .ofNat 2 ∧
    ∀ permuted, permuted.Perm
      [(⟨.ofNat 1, .ofNat 2⟩, 0), (⟨.ofNat 14, .ofNat 1⟩, 0), (⟨.ofNat 15, .ofNat 0⟩, 0)] →
      (addChunks (.ofNat 14 : RingIndex 16) permuted).receiveChunk = ⟨.ofNat 14, .ofNat 2⟩ :=
  ⟨by decide, (receiveChunk_of_union (.ofNat 14 : RingIndex 16)
    [(⟨.ofNat 1, .ofNat 2⟩, 0), (⟨.ofNat 14, .ofNat 1⟩, 0), (⟨.ofNat 15, .ofNat 0⟩, 0)]
    (by decide)).2.2.1⟩

theorem missedLoop_offset (b : RingIndex cap) (rs : List (RingIndexRange cap))
    (e : RingIndex cap) (hn : ∀ r ∈ rs, b.distance r.right + 1 < cap) :
    (missedLoop b rs e).map (fun m => (b.distance m.left, b.distance m.right)) =
      firstBreak (offsets b rs) (b.distance e) := by
  induction rs generalizing e with
  | nil => rfl
  | cons r rs ih =>
    have hnx : b.distance (r.right.add 1) = b.distance r.right + 1 :=
      distance_add_right (hn r mem_cons_self)
    have hr := ih (r.right.add 1) (fun q hq => hn q (mem_cons_of_mem r hq))
    rw [hnx] at hr
    simp only [missedLoop, offsets, map_cons, firstBreak, gt_iff]
    by_cases breaks : b.distance e < b.distance r.left
    · rw [if_pos breaks, if_pos breaks, Option.map_some, distance_sub_one, if_neg (by omega)]
    · rw [if_neg breaks, if_neg breaks]
      exact hr

theorem missedLoop_of_zero {rs : List (RingIndexRange cap)} (hz : ∀ r ∈ rs, b.distance r.left = 0)
    (ex : RingIndex cap) (e : Nat) :
    missedLoop b rs ex = none ∧ firstBreak (offsets b rs) e = none := by
  induction rs generalizing ex e with
  | nil => exact ⟨rfl, rfl⟩
  | cons r rs ih =>
    have hh := hz r mem_cons_self
    have hr := ih (fun q hq => hz q (mem_cons_of_mem r hq)) (r.right.add 1) (b.distance r.right + 1)
    simp only [missedLoop, offsets, map_cons, firstBreak, gt_iff, hh]
    exact ⟨by simpa using hr.1, by simpa [offsets] using hr.2⟩

theorem findMissedChunk_offset (hn : ∀ r ∈ l.ranges, InWindow l.bufferBegin r) :
    l.findMissedChunk.map (fun m => (l.bufferBegin.distance m.left,
      l.bufferBegin.distance m.right)) = firstBreak (offsets l.bufferBegin l.ranges) 0 := by
  rcases lt_or_ge 1 cap with hcap | hcap
  · have hw := missedLoop_offset l.bufferBegin l.ranges l.bufferBegin
      (fun r hr => (hn r hr).next hcap)
    rw [distance_self] at hw
    exact hw
  · have hz : ∀ r ∈ l.ranges, l.bufferBegin.distance r.left = 0 := by
      intro r hr
      have := distance_lt l.bufferBegin r.left
      omega
    obtain ⟨hrn, hw⟩ := missedLoop_of_zero hz l.bufferBegin 0
    rw [hw, findMissedChunk, hrn]
    rfl

/-- Where the sorted ranges first leave a break between neighbours, the range before the
break reaches as far as every range before it. -/
def NoLongerEarlier (b : RingIndex cap) (ranges : List (RingIndexRange cap)) : Prop :=
  ∀ early last next late, ranges = early ++ last :: next :: late →
    Joined (offsets b (early ++ [last])) 0 → b.distance last.right + 1 < b.distance next.left →
    ∀ r ∈ early, b.distance r.right ≤ b.distance last.right

theorem noLongerEarlier_iff : FurthestLast (offsets b ranges) ↔ NoLongerEarlier b ranges := by
  constructor
  · intro furthest e last n la hranges joined breaks r hr
    refine furthest (offsets b e) (b.distance last.left, b.distance last.right)
      (b.distance n.left, b.distance n.right) (offsets b la) ?_ ?_ breaks
      (b.distance r.left, b.distance r.right) (mem_map_of_mem hr)
    · simp [hranges, offsets]
    · simpa [offsets] using joined
  · intro longest xs p q ys hsplit joined breaks x hx
    obtain ⟨e, rest, rfl, rfl, hrest⟩ := map_eq_append_iff.mp hsplit
    obtain ⟨last, a, rfl, rfl, hafter⟩ := map_eq_cons_iff.mp hrest
    obtain ⟨n, la, rfl, rfl, -⟩ := map_eq_cons_iff.mp hafter
    obtain ⟨r, hr, rfl⟩ := mem_map.mp hx
    exact longest e last n la rfl (by simpa [offsets] using joined) breaks r hr

theorem findMissedChunk_first_gap_iff (b : RingIndex cap)
    (calls : List (RingIndexRange cap × UInt8)) (near : ∀ call ∈ calls, InWindow b call.1) :
    let l := addChunks b calls
    let covered := Covered b (calls.map Prod.fst)
    ((l.findMissedChunk = none ↔ Contiguous covered) ∧
      ∀ m, l.findMissedChunk = some m →
        FirstGap covered (b.distance m.left) (b.distance m.right)) ↔
      NoLongerEarlier b l.ranges := by
  intro l covered
  obtain ⟨hrc, hb, -⟩ := addChunks_spec b calls
  have hw : ∀ r ∈ l.ranges, InWindow l.bufferBegin r := by
    rw [show l.bufferBegin = b from hb]
    exact addChunks_near near
  have hwl := findMissedChunk_offset hw
  have hr := reportsGap_iff (sorted_offsets hrc.sorted hw)
  rw [show l.bufferBegin = b from hb] at hwl
  rw [show (addChunks b calls).bufferBegin = b from hb, ← hwl] at hr
  have he : Covers (offsets b l.ranges) = covered := by
    funext k
    exact propext (covers_offsets.trans (addChunks_covered b calls k))
  rw [show Covers (offsets b (addChunks b calls).ranges) = covered from he] at hr
  rw [← noLongerEarlier_iff, ← hr]
  constructor
  · rintro ⟨hni, h1⟩
    refine ⟨by rw [Option.map_eq_none_iff]; exact hni, ?_⟩
    intro gap hg
    obtain ⟨m, hf, rfl⟩ := Option.map_eq_some_iff.mp hg
    exact h1 m hf
  · rintro ⟨hni, h1⟩
    refine ⟨by rw [Option.map_eq_none_iff] at hni; exact hni, ?_⟩
    intro m hf
    exact h1 _ (by rw [hf]; rfl)

theorem findMissedChunk_first_gap_hole :
    FirstGap (Covered (.ofNat 0 : RingIndex 8) [⟨.ofNat 0, .ofNat 1⟩, ⟨.ofNat 3, .ofNat 3⟩]) 2 2 :=
  ((findMissedChunk_first_gap_iff (.ofNat 0 : RingIndex 8)
      [(⟨.ofNat 0, .ofNat 1⟩, 0), (⟨.ofNat 3, .ofNat 3⟩, 0)] (by decide)).mpr (by
    intro e last n la hr
    have hl := congrArg List.length hr
    have ht : (addChunks (.ofNat 0 : RingIndex 8)
      [(⟨.ofNat 0, .ofNat 1⟩, 0), (⟨.ofNat 3, .ofNat 3⟩, 0)]).ranges.length = 2 := by decide
    rw [ht] at hl
    obtain rfl : e = [] := by
      apply eq_nil_of_length_eq_zero
      simp only [length_append, length_cons] at hl
      omega
    simp)).2 ⟨.ofNat 2, .ofNat 2⟩ (by decide)

/-- Two ranges inside the first: the search reports index 4, which was received. -/
theorem findMissedChunk_names_received :
    let calls : List (RingIndexRange 32 × UInt8) :=
      [(⟨.ofNat 0, .ofNat 10⟩, 0), (⟨.ofNat 2, .ofNat 3⟩, 0), (⟨.ofNat 5, .ofNat 8⟩, 0)]
    (∀ c ∈ calls, InWindow (.ofNat 0) c.1) ∧
      (addChunks (.ofNat 0) calls).findMissedChunk = some ⟨.ofNat 4, .ofNat 4⟩ ∧
      Covered (.ofNat 0) (calls.map Prod.fst) 4 := by
  decide

end Ae.SafeStream.ReceivedRanges
