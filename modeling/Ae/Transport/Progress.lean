/- source: transport/data_packet_collector.cpp, memory_buffer.h
   digest: For which inputs the loop of AddData comes to an end. -/

import Ae.Transport.ByteFeed

set_option autoImplicit false

namespace Ae.Transport.Progress
open Ae.Types (TieredInt)
open List PacketCollector ByteFeed MemStreamBuf

/-- The sizes announced in a stretch of input that starts within a header, of those
packets only that get at least one byte of it. -/
def announced (code : TieredInt) : Nat → List UInt8 → List UInt8 → List Nat
  | 0, _, _ => []
  | fuel + 1, temp, bytes =>
    match code.decode (temp ++ bytes) with
    | none => []
    | some (size, n) =>
      let left := bytes.drop (n - temp.length)
      if size = 0 ∨ left = [] then [] else size :: announced code fuel [] (left.drop size)

def Granted (alloc : Allocator) (k size : Nat) : Prop := size < 2 ^ 63 ∧ alloc k size = true

/-- The packets announced, from the `k`-th one on, all get a buffer. -/
def AllGranted (alloc : Allocator) : Nat → List Nat → Prop
  | _, [] => True
  | k, size :: sizes => Granted alloc k size ∧ AllGranted alloc (k + 1) sizes

instance (alloc : Allocator) (k size : Nat) : Decidable (Granted alloc k size) :=
  inferInstanceAs (Decidable (size < 2 ^ 63 ∧ alloc k size = true))

instance decidableAllGranted (alloc : Allocator) :
    (k : Nat) → (sizes : List Nat) → Decidable (AllGranted alloc k sizes)
  | _, [] => isTrue trivial
  | k, size :: sizes =>
    have := decidableAllGranted alloc (k + 1) sizes
    inferInstanceAs (Decidable (Granted alloc k size ∧ AllGranted alloc (k + 1) sizes))

section

variable {alloc : Allocator} {c : Collector}

theorem room_emplace_granted {size : Nat} (hp : size ≠ 0) (h : Granted alloc c.created size) :
    room (c.emplace alloc size) = size := by
  have hb : (c.emplace alloc size).packets.getLast? =
      some (.ofExpectedSize (alloc c.created size) size) := getLast?_concat
  rw [room_of_back hb, h.2]
  simp only [Packet.ofExpectedSize, setExactCapacity, streamsize_of_lt h.1]
  rw [if_neg (by omega)]
  simp [availableCapacity]

theorem room_emplace_refused {size : Nat} (lt : size < 2 ^ 64)
    (h : ¬ Granted alloc c.created size) : room (c.emplace alloc size) = 0 := by
  have hb : (c.emplace alloc size).packets.getLast? =
      some (.ofExpectedSize (alloc c.created size) size) := getLast?_concat
  rw [room_of_back hb]
  simp only [Packet.ofExpectedSize, setExactCapacity]
  by_cases hs : size < 2 ^ 63
  · have hr : alloc c.created size = false := by
      rw [Bool.eq_false_iff]
      exact fun hg => h ⟨hs, hg⟩
    rw [hr]
    split <;> rfl
  · have hn := streamsize_of_ge (not_lt.mp hs) lt
    rw [if_pos (by omega)]
    rfl

theorem awaitsHeader_emplace {size : Nat} (hp : size ≠ 0) (lt : size < 2 ^ 64) :
    (c.emplace alloc size).awaitsHeader = false := by
  rw [Collector.awaitsHeader, Collector.emplace, getLast?_concat]
  show Packet.isPacketComplete _ = false
  rw [Bool.eq_false_iff, Ne,
    isPacketComplete_iff (sized_ofExpectedSize _ (Nat.pos_of_ne_zero hp) lt)]
  simp only [Packet.ofExpectedSize, setExactCapacity]
  repeat' split
  all_goals exact fun hn => hp hn.symm

theorem awaitsHeader_of_full (hs : ∀ p ∈ c.packets, Sized p) {k : Nat}
    (hp : 0 < k) (he : room c = k) (bs : List UInt8) (hen : bs.length = k) :
    (c.writeToBack bs).2.awaitsHeader = true := by
  cases hb : c.packets.getLast? with
  | none => simp [room, hb] at he; omega
  | some p =>
    have hl := hs p (mem_of_getLast? hb)
    have ha := sized_write hs bs
    rw [writeToBack_of_back hb] at ha ⊢
    rw [Collector.awaitsHeader, getLast?_concat]
    have hw := ha _ (mem_append_right _ (mem_singleton_self _))
    show Packet.isPacketComplete _ = true
    rw [isPacketComplete_iff hw]
    rw [room_of_back hb, availableCapacity] at he
    have := hl.capacity
    have := p.memBuffer.within
    simp only [size, sputn, availableCapacity, length_append, length_take]
    omega

end

section

variable {code : TieredInt} {alloc : Allocator} {c : Collector}

@[simp] theorem announced_nil (fuel : Nat) : announced code fuel [] [] = [] := by
  cases fuel with
  | zero => rfl
  | succ fuel => simp [announced]

theorem announced_packet (fuel : Nat) {t bs l : List UInt8} {b : UInt8} {size n : Nat}
    (h : code.decode (t ++ bs) = some (size, n)) (hp : size ≠ 0)
    (hf : bs.drop (n - t.length) = b :: l) :
    announced code (fuel + 1) t bs = size :: announced code fuel [] ((b :: l).drop size) := by
  rw [announced, h]
  simp only [hf, hp, reduceCtorEq, or_self, if_false]

variable (alloc) in
theorem feed_into_packet (ho : Orderly code c) (hn : c.tempDataBuffer = [])
    (hop : 0 < room c) (bs : List UInt8) :
    ∃ n, feed code alloc c bs = feed code alloc n (bs.drop (room c)) ∧
      Orderly code n ∧ n.tempDataBuffer = [] ∧ n.created = c.created ∧
      (bs.drop (room c) ≠ [] → n.awaitsHeader = true) := by
  refine ⟨(c.writeToBack (bs.take (room c))).2,
    feed_write ho.sized (room c) bs le_rfl, orderly_write ho hn _, ?_, ?_, ?_⟩
  · cases back : c.packets.getLast? with
    | none => rw [writeToBack_of_none back]; exact hn
    | some p => rw [writeToBack_of_back back]; exact hn
  · cases back : c.packets.getLast? with
    | none => rw [writeToBack_of_none back]
    | some p => rw [writeToBack_of_back back]
  · intro hm
    apply awaitsHeader_of_full ho.sized hop rfl
    have hl : room c < bs.length := by
      by_contra hs
      exact hm (drop_of_length_le (not_lt.mp hs))
    rw [length_take]
    omega

theorem feed_header_iff (fuel : Nat) (ho : Orderly code c) (hw : c.awaitsHeader = true)
    (bs : List UInt8) (he : bs.length ≤ fuel) :
    feed code alloc c bs ≠ none ↔
      AllGranted alloc c.created (announced code fuel c.tempDataBuffer bs) := by
  induction fuel generalizing c bs with
  | zero =>
    rw [eq_nil_of_length_eq_zero (Nat.le_zero.mp he)]
    simp [feed, announced, AllGranted]
  | succ fuel ih =>
    cases h : code.decode (c.tempDataBuffer ++ bs) with
    | none => simp [announced, h, feed_header_none hw bs h, AllGranted]
    | some r =>
      obtain ⟨size, n⟩ := r
      have hm := code.length_lt_of_decode_append ho.header h
      rw [feed_header_some alloc hw ho.header h]
      by_cases zero : size = 0
      · simp [announced, h, zero, AllGranted]
      rw [if_neg zero]
      cases left_eq : bs.drop (n - c.tempDataBuffer.length) with
      | nil => simp [announced, h, left_eq, feed, AllGranted, -drop_eq_nil_iff]
      | cons b l =>
        have hsh : (b :: l).length < bs.length := by
          have hwh := code.decode_length_le h
          rw [length_append] at hwh
          rw [← left_eq, length_drop]
          omega
        rw [announced_packet fuel h zero left_eq, AllGranted]
        have lt := code.decode_lt h
        have hop := orderly_emplace alloc ho hw zero lt
        by_cases granted : Granted alloc c.created size
        · have hsr := room_emplace_granted (c := { c with tempDataBuffer := [] }) zero granted
          obtain ⟨nx, hs, hk, hcl, hc, hnw⟩ :=
            feed_into_packet alloc hop rfl (by omega) (b :: l)
          rw [hs, hsr, and_iff_right granted]
          rw [hsr] at hnw
          cases hre : (b :: l).drop size with
          | nil => simp [feed, AllGranted]
          | cons d rest =>
            have hl := ih hk (hnw (by simp [hre])) (d :: rest) (by
              rw [← hre, length_drop]
              omega)
            rw [hcl, hc] at hl
            exact hl
        · have hr := room_emplace_refused (c := { c with tempDataBuffer := [] }) lt granted
          rw [feed_stuck (awaitsHeader_emplace zero lt) hr]
          simp [granted]

theorem room_of_awaitsHeader (ho : Orderly code c) (hw : c.awaitsHeader = true) : room c = 0 := by
  by_contra hop
  have hb := awaitsHeader_of_room ho.sized (Nat.pos_of_ne_zero hop)
  rw [hw] at hb
  exact absurd hb (by simp)

/-- `AddData` returns exactly when each packet that gets a byte of the input has a buffer:
the one being received, and every one announced in the input, whose size must be below
`2 ^ 63` and whose allocation must succeed. -/
theorem addData_returns_iff (reachable : Reachable code alloc c) (bytes : List UInt8) :
    (∃ after, c.AddData code alloc bytes after) ↔
      (c.awaitsHeader = false → bytes ≠ [] → 0 < room c) ∧
        AllGranted alloc c.created
          (announced code bytes.length c.tempDataBuffer (bytes.drop (room c))) := by
  have ho := orderly_of_reachable reachable
  have hr : (∃ after, c.AddData code alloc bytes after) ↔ feed code alloc c bytes ≠ none := by
    simp only [addData_iff_feed ho, Option.ne_none_iff_exists']
  rw [hr]
  cases waits : c.awaitsHeader with
  | true =>
    rw [room_of_awaitsHeader ho waits, drop_zero]
    simp only [reduceCtorEq, false_implies, true_and]
    exact feed_header_iff bytes.length ho waits bytes (Nat.le_refl _)
  | false =>
    have hn := ho.headerFirst waits
    cases bytes with
    | nil => simp [feed, hn, AllGranted]
    | cons b bytes =>
      rcases Nat.eq_zero_or_pos (room c) with hf | open_
      · rw [feed_stuck waits hf]
        simp [hf]
      · obtain ⟨n, he, hk, hcl, hc, hnw⟩ :=
          feed_into_packet alloc ho hn open_ (b :: bytes)
        rw [he]
        simp only [open_, implies_true, true_and]
        cases hre : (b :: bytes).drop (room c) with
        | nil => simp [feed, hn, AllGranted]
        | cons d rest =>
          have hl : feed code alloc n (d :: rest) ≠ none ↔ _ :=
            feed_header_iff (b :: bytes).length hk (hnw (by simp [hre]))
              (d :: rest) (by
              rw [← hre, length_drop]
              omega)
          rw [hcl, hc] at hl
          rw [hn]
          exact hl

end

theorem addData_returns_iff_two_packets :
    Reachable TieredInt.twoTiers (fun _ size => size ≤ 2) .empty ∧
      ∃ after, Collector.empty.AddData TieredInt.twoTiers (fun _ size => size ≤ 2)
        [2, 7, 8, 1, 9, 5] after :=
  ⟨⟨[], [], rfl⟩, (addData_returns_iff ⟨[], [], rfl⟩ [2, 7, 8, 1, 9, 5]).mpr (by decide)⟩

/-- A packet of one byte for which `realloc` fails: the loop goes round with that byte and
never takes it. -/
theorem failed_allocation_hangs :
    Reachable TieredInt.twoTiers (fun _ _ => false) .empty ∧
      ¬ ∃ after, Collector.empty.AddData TieredInt.twoTiers (fun _ _ => false) [1, 7] after := by
  refine ⟨⟨[], [], rfl⟩, ?_⟩
  rintro ⟨after, hr⟩
  have hs := (addData_iff_feed orderly_empty [1, 7]).mp hr
  have hst : feed TieredInt.twoTiers (fun _ _ => false) .empty [1, 7] = none := rfl
  rw [hst] at hs
  exact absurd hs (by simp)

end Ae.Transport.Progress
