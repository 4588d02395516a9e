/- source: transport/data_packet_collector.cpp
   digest: When cutting a chunk in two changes nothing for the packets that come out. -/

import Ae.Transport.ByteFeed

set_option autoImplicit false

namespace Ae.Transport.ChunkSplit
open Ae.Types (TieredInt)
open List PacketCollector ByteFeed Types.TieredInt

/-- The bytes complete a header that announces a packet of no bytes. -/
def meetsZeroHeader (code : TieredInt) (alloc : Allocator) : Collector → List UInt8 → Bool
  | _, [] => false
  | c, b :: bytes =>
    match byteEffect code alloc c b with
    | .took c => meetsZeroHeader code alloc c bytes
    | .zeroHeader _ => true
    | .noRoom => false

/-- The bytes start with a whole header that announces a packet of no bytes. -/
def startsWithZeroHeader (code : TieredInt) (bytes : List UInt8) : Bool :=
  match code.decode bytes with
  | some (0, _) => true
  | _ => false

def grantsAll : Allocator := fun _ _ => true

section

variable {code : TieredInt} {alloc : Allocator} {c : Collector}

theorem feed_append (a b : List UInt8) (h : meetsZeroHeader code alloc c a = false) :
    feed code alloc c (a ++ b) = (feed code alloc c a).bind (fun n => feed code alloc n b) := by
  induction a generalizing c with
  | nil => simp [feed]
  | cons x a ih =>
    rw [meetsZeroHeader] at h
    rw [cons_append, feed, feed]
    cases effect : byteEffect code alloc c x with
    | noRoom => rfl
    | zeroHeader n => simp [effect] at h
    | took n =>
      simp only [effect] at h
      exact ih h

theorem meetsZeroHeader_append {n : Collector} (a b : List UInt8)
    (h : meetsZeroHeader code alloc c a = false) (hf : feed code alloc c a = some n) :
    meetsZeroHeader code alloc c (a ++ b) = meetsZeroHeader code alloc n b := by
  induction a generalizing c with
  | nil =>
    rw [feed, Option.some.injEq] at hf
    rw [nil_append, hf]
  | cons x a ih =>
    rw [meetsZeroHeader] at h
    rw [feed] at hf
    rw [cons_append, meetsZeroHeader]
    cases effect : byteEffect code alloc c x with
    | noRoom => simp [effect] at hf
    | zeroHeader n => simp [effect] at h
    | took n =>
      simp only [effect] at h hf
      exact ih h hf

theorem meetsZeroHeader_of_append (a b : List UInt8)
    (h : meetsZeroHeader code alloc c (a ++ b) = false) :
    meetsZeroHeader code alloc c a = false := by
  induction a generalizing c with
  | nil => rfl
  | cons x a ih =>
    rw [cons_append, meetsZeroHeader] at h
    rw [meetsZeroHeader]
    cases effect : byteEffect code alloc c x with
    | noRoom => rfl
    | zeroHeader n => simp [effect] at h
    | took n =>
      simp only [effect] at h
      exact ih h

/-- After a header of no bytes the rest of the chunk is dropped, and the collector waits
for a header. -/
theorem feed_of_meetsZeroHeader (a b : List UInt8) (h : meetsZeroHeader code alloc c a = true) :
    ∃ n, feed code alloc c (a ++ b) = some n ∧ feed code alloc c a = some n ∧
      n.awaitsHeader = true ∧ n.tempDataBuffer = [] := by
  induction a generalizing c with
  | nil => simp [meetsZeroHeader] at h
  | cons x a ih =>
    rw [meetsZeroHeader] at h
    rw [cons_append, feed, feed]
    cases effect : byteEffect code alloc c x with
    | noRoom => simp [effect] at h
    | took n =>
      simp only [effect] at h
      exact ih h
    | zeroHeader n =>
      refine ⟨n, rfl, rfl, ?_⟩
      unfold byteEffect at effect
      cases waits : c.awaitsHeader with
      | false =>
        rw [waits] at effect
        by_cases full : room c = 0
        · simp [full] at effect
        · simp [full] at effect
      | true =>
        rw [waits, if_pos rfl] at effect
        split at effect
        · simp at effect
        · simp only [ByteEffect.zeroHeader.injEq] at effect
          rw [← effect]
          exact ⟨waits, rfl⟩
        · simp at effect

theorem feed_startsWithZeroHeader (hwt : c.awaitsHeader = true) (he : c.tempDataBuffer = [])
    {b : List UInt8} (h : startsWithZeroHeader code b = true) : feed code alloc c b = some c := by
  unfold startsWithZeroHeader at h
  cases first : code.decode b with
  | none => simp [first] at h
  | some r =>
    obtain ⟨v, n⟩ := r
    cases v with
    | succ v => simp [first] at h
    | zero =>
      have ho : code.decode c.tempDataBuffer = none := by rw [he]; exact code.decode_nil
      have hw : code.decode (c.tempDataBuffer ++ b) = some (0, n) := by
        rw [he, nil_append, first]
      rw [feed_header_some alloc hwt ho hw, if_pos rfl, ← he]

theorem feed_split (a b : List UInt8)
    (h : meetsZeroHeader code alloc c a = true → b = [] ∨ startsWithZeroHeader code b = true) :
    feed code alloc c (a ++ b) =
      (feed code alloc c a).bind (fun n => feed code alloc n b) := by
  cases hz : meetsZeroHeader code alloc c a with
  | false => exact feed_append a b hz
  | true =>
    obtain ⟨n, hw, h1, hwt, he⟩ := feed_of_meetsZeroHeader a b hz
    rw [hw, h1]
    rcases h hz with hn | dropped
    · rw [hn]
      rfl
    · exact (feed_startsWithZeroHeader hwt he dropped).symm

theorem results_addData (ho : Orderly code c) (bs : List UInt8) (ops : List Op) :
    results code alloc c (.addData bs :: ops) =
      (feed code alloc c bs).bind (fun n => results code alloc n ops) := by
  rw [results, run, addData_eq_feed ho]
  cases feed code alloc c bs with
  | none | some n => rfl

/-- Cutting a chunk in two leaves the packets that come out, now and after any further use
of the collector, as they are, unless the first part completes a header of no bytes and the
second part holds something else than another one: the rest of a chunk after such a header
is dropped. -/
theorem packets_independent_of_split (reachable : Reachable code grantsAll c) (a b : List UInt8)
    (h : meetsZeroHeader code grantsAll c a = true →
      b = [] ∨ startsWithZeroHeader code b = true) (ops : List Op) :
    results code grantsAll c (.addData (a ++ b) :: ops) =
      results code grantsAll c (.addData a :: .addData b :: ops) := by
  have ho := orderly_of_reachable reachable
  rw [results_addData ho, results_addData ho, feed_split a b h]
  cases h1 : feed code grantsAll c a with
  | none => rfl
  | some n =>
    rw [Option.bind_some, Option.bind_some, results_addData (orderly_feed ho a h1)]

end

theorem packets_independent_of_split_body :
    Reachable twoTiers grantsAll .empty ∧ results twoTiers grantsAll .empty
          [.addData ([2, 7] ++ [8, 1]), .popPacket, .addData [9], .popPacket] =
        results twoTiers grantsAll .empty
          [.addData [2, 7], .addData [8, 1], .popPacket, .addData [9], .popPacket] :=
  ⟨⟨[], [], rfl⟩, packets_independent_of_split ⟨[], [], rfl⟩ [2, 7] [8, 1] (by decide) _⟩

/-- A header of no bytes takes the packet behind it along when both come in one chunk. -/
theorem zero_header_drops_packet :
    Reachable twoTiers grantsAll .empty ∧
      ¬ ∀ ops, results twoTiers grantsAll .empty (.addData ([0] ++ [1, 7]) :: ops) =
        results twoTiers grantsAll .empty (.addData [0] :: .addData [1, 7] :: ops) := by
  refine ⟨⟨[], [], rfl⟩, ?_⟩
  intro he
  have hp := he [.popPacket]
  revert hp
  decide

end Ae.Transport.ChunkSplit
