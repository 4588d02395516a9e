/- source: transport/data_packet_collector.cpp, stream_api/sized_packet_gate.cpp
   digest: The packets written by the gate come out of the collector however their bytes are cut. -/

import Ae.Transport.ChunkSplit
import Ae.Transport.Progress

set_option autoImplicit false

namespace Ae.Transport.Framing
open Ae.Types (TieredInt)
open List PacketCollector ByteFeed ChunkSplit Collector MemStreamBuf

def whole (bytes : List UInt8) : Packet := ⟨⟨bytes.length, bytes, Nat.le_refl _⟩, bytes.length⟩

/-- A packet that the gate can write and a buffer can hold. -/
structure Sendable (code : TieredInt) (packet : List UInt8) : Prop where
  nonempty : packet ≠ []
  representable : packet.length ≤ code.maxValue
  allocatable : packet.length < 2 ^ 63

def unpop (packet : Packet) (c : Collector) : Collector :=
  { c with packets := packet :: c.packets }

def unpopEffect (packet : Packet) : ByteEffect → ByteEffect
  | .took c => .took (unpop packet c)
  | .zeroHeader c => .zeroHeader (unpop packet c)
  | .noRoom => .noRoom

section

variable {code : TieredInt} {c : Collector}

theorem contents_whole (bytes : List UInt8) : (whole bytes).contents = bytes := by
  simp [whole, Packet.contents, size]

theorem whole_complete {bs : List UInt8} (hs : bs.length < 2 ^ 63) :
    (whole bs).isPacketComplete = true := by
  simp [whole, Packet.isPacketComplete, size, streamsize_of_lt hs]

theorem feed_frame (hor : Orderly code c) (hwt : c.awaitsHeader = true)
    (hc : c.tempDataBuffer = []) {packet : List UInt8} (hs : Sendable code packet)
    (rest : List UInt8) :
    ∃ n, n.packets = c.packets ++ [whole packet] ∧ Orderly code n ∧
      n.awaitsHeader = true ∧ n.tempDataBuffer = [] ∧
      feed code grantsAll c (writeIn code packet ++ rest) = feed code grantsAll n rest := by
  have hp : packet.length ≠ 0 := fun hn => hs.nonempty (eq_nil_of_length_eq_zero hn)
  have lt : packet.length < 2 ^ 64 := by have := hs.allocatable; omega
  have ho := orderly_emplace grantsAll hor hwt hp lt
  let f := ({ c with tempDataBuffer := [] } : Collector).emplace grantsAll packet.length
  have hg : Progress.Granted grantsAll c.created packet.length := ⟨hs.allocatable, rfl⟩
  have hsr : room f = packet.length := Progress.room_emplace_granted hp hg
  have hbc : f.packets.getLast? =
      some (.ofExpectedSize true packet.length) := getLast?_concat
  have hw : (f.writeToBack packet).2 =
      { f with packets := c.packets ++ [whole packet] } := by
    rw [writeToBack_of_back hbc]
    have hd : f.packets.dropLast = c.packets := dropLast_concat
    rw [hd]
    simp [whole, Packet.ofExpectedSize, setExactCapacity, sputn,
      availableCapacity, streamsize_of_lt hs.allocatable, hs.nonempty]
  have hh : code.decode (c.tempDataBuffer ++ (writeIn code packet ++ rest)) =
      some (packet.length, (code.encode packet.length).length) := by
    rw [hc, nil_append, writeIn, append_assoc]
    exact code.decode_encode _ hs.representable _
  refine ⟨{ f with packets := c.packets ++ [whole packet] }, rfl, ?_, ?_, rfl, ?_⟩
  · rw [← hw]
    exact orderly_write ho rfl packet
  · rw [← hw]
    exact Progress.awaitsHeader_of_full ho.sized (Nat.pos_of_ne_zero hp) hsr packet rfl
  · rw [feed_header_some grantsAll hwt hor.header hh, if_neg hp, hc]
    have hb : (writeIn code packet ++ rest).drop ((code.encode packet.length).length - 0) =
        packet ++ rest := by
      rw [writeIn, append_assoc, Nat.sub_zero, drop_left]
    rw [length_nil, hb, feed_write ho.sized packet.length _ (Nat.le_of_eq hsr.symm), take_left,
      drop_left]
    exact congrArg (fun s => feed code grantsAll s rest) hw

theorem feed_frames (ps : List (List UInt8)) (hs : ∀ p ∈ ps, Sendable code p)
    (ho : Orderly code c) (hw : c.awaitsHeader = true) (hc : c.tempDataBuffer = []) :
    ∃ last, feed code grantsAll c (ps.flatMap (writeIn code)) = some last ∧
      last.packets = c.packets ++ ps.map whole := by
  induction ps generalizing c with
  | nil => exact ⟨c, rfl, by simp⟩
  | cons packet ps ih =>
    obtain ⟨n, ha, hk, hw, hc, he⟩ :=
      feed_frame ho hw hc (hs packet mem_cons_self)
        (ps.flatMap (writeIn code))
    obtain ⟨last, hf, all⟩ :=
      ih (fun p hm => hs p (mem_cons_of_mem packet hm)) hk hw hc
    refine ⟨last, ?_, ?_⟩
    · rw [flatMap_cons, he, hf]
    · rw [all, ha, map_cons, append_assoc]
      rfl

/-- The frames of the gate hold no header of no bytes: after one, more frames would not
count. -/
theorem frames_meet_no_zeroHeader (ps : List (List UInt8))
    (hs : ∀ p ∈ ps, Sendable code p) :
    meetsZeroHeader code grantsAll .empty (ps.flatMap (writeIn code)) = false := by
  cases ps with
  | nil => rfl
  | cons packet ps =>
    rw [Bool.eq_false_iff]
    intro hz
    have hm : ∀ p ∈ (packet :: ps) ++ [packet], Sendable code p := by
      intro p mem
      rcases mem_append.mp mem with ho | again
      · exact hs p ho
      · rw [mem_singleton.mp again]
        exact hs packet mem_cons_self
    obtain ⟨s, hfs, hps⟩ :=
      feed_frames (packet :: ps) hs (c := .empty) orderly_empty rfl rfl
    obtain ⟨l, hfl, hpl⟩ :=
      feed_frames ((packet :: ps) ++ [packet]) hm (c := .empty) orderly_empty rfl rfl
    rw [flatMap_append] at hfl
    obtain ⟨n, hd, h1, -⟩ :=
      feed_of_meetsZeroHeader _ (flatMap (writeIn code) [packet]) hz
    rw [hd, Option.some.injEq] at hfl
    rw [h1, Option.some.injEq] at hfs
    have he : s.packets.length = l.packets.length := by rw [← hfs, hfl]
    rw [hps, hpl] at he
    simp at he

end

section

variable {code : TieredInt} {alloc : Allocator} {c : Collector} {packet : Packet}

theorem awaitsHeader_unpop (hc : packet.isPacketComplete = true) :
    (unpop packet c).awaitsHeader = c.awaitsHeader := by
  cases packets : c.packets with
  | nil => simp [awaitsHeader, unpop, packets, hc]
  | cons s os => simp [awaitsHeader, unpop, packets]

theorem room_unpop (hb : c.awaitsHeader = false) : room (unpop packet c) = room c := by
  cases packets : c.packets with
  | nil => simp [awaitsHeader, packets] at hb
  | cons s os => simp [room, unpop, packets]

theorem writeToBack_unpop (hb : c.awaitsHeader = false) (bs : List UInt8) :
    ((unpop packet c).writeToBack bs).2 = unpop packet (c.writeToBack bs).2 := by
  cases back : c.packets.getLast? with
  | none => simp [awaitsHeader, back] at hb
  | some last =>
    have hn : c.packets ≠ [] := by
      intro none
      simp [none] at back
    have he : (unpop packet c).packets.getLast? = some last := by
      rw [unpop, getLast?_cons, back]
      rfl
    rw [writeToBack_of_back back, writeToBack_of_back he]
    simp [unpop, dropLast_cons_of_ne_nil hn]

theorem byteEffect_unpop (hc : packet.isPacketComplete = true) (b : UInt8) :
    byteEffect code alloc (unpop packet c) b = unpopEffect packet (byteEffect code alloc c b) := by
  unfold byteEffect
  rw [awaitsHeader_unpop hc]
  cases waits : c.awaitsHeader with
  | true =>
    have ht : (unpop packet c).tempDataBuffer = c.tempDataBuffer := rfl
    rw [if_pos rfl, if_pos rfl, ht]
    cases code.decode (c.tempDataBuffer ++ [b]) with
    | none => rfl
    | some r =>
      obtain ⟨v, n⟩ := r
      cases v with
      | zero => rfl
      | succ v => simp [unpopEffect, unpop, emplace]
  | false =>
    simp only [Bool.false_eq_true, if_false]
    rw [room_unpop waits, writeToBack_unpop waits]
    split
    · rfl
    · rfl

theorem feed_unpop (hc : packet.isPacketComplete = true) (bytes : List UInt8) :
    feed code alloc (unpop packet c) bytes = (feed code alloc c bytes).map (unpop packet) ∧
      meetsZeroHeader code alloc (unpop packet c) bytes = meetsZeroHeader code alloc c bytes := by
  induction bytes generalizing c with
  | nil => exact ⟨rfl, rfl⟩
  | cons b bytes ih =>
    rw [feed, feed, meetsZeroHeader, meetsZeroHeader, byteEffect_unpop hc]
    cases byteEffect code alloc c b with
    | took n => exact ih
    | zeroHeader n | noRoom => exact ⟨rfl, rfl⟩

theorem contents_ne_nil (hs : Sized packet) (hc : packet.isPacketComplete = true) :
    packet.contents ≠ [] := by
  have hsz := (isPacketComplete_iff hs).mp hc
  have hp := hs.pos
  intro hn
  have hl := congrArg length hn
  rw [Packet.contents, length_append, length_replicate, length_nil] at hl
  rw [size] at hsz
  omega

theorem popPacket_cases (ho : Orderly code c) :
    (c.popPacket.1 = [] ∧ c.popPacket.2 = c) ∨
    ∃ packet rest, c = unpop packet rest ∧ packet.isPacketComplete = true ∧
      packet.contents ≠ [] ∧ c.popPacket = (packet.contents, rest) := by
  cases packets : c.packets with
  | nil => simp [popPacket, packets]
  | cons packet os =>
    cases complete : packet.isPacketComplete with
    | false => simp [popPacket, packets, complete]
    | true =>
      have hs := ho.sized packet (by simp [packets])
      refine .inr ⟨packet, { c with packets := os }, ?_, complete, contents_ne_nil hs complete, ?_⟩
      · simp [unpop, ← packets]
      · simp [popPacket, packets, complete]

end

section

variable {code : TieredInt} {alloc : Allocator} {c : Collector}

/-- The packets that the pops of a run take are those in front of what is left, in order,
whatever the chunks were. -/
theorem run_of_feed (ops : List Op) (ho : Orderly code c) {f : Collector}
    (hn : meetsZeroHeader code alloc c (ops.flatMap Op.chunk) = false)
    (hf : feed code alloc c (ops.flatMap Op.chunk) = some f) :
    ∃ o last p, run code alloc c ops = some (o, last) ∧
      f.packets = p ++ last.packets ∧
      o.filter (fun out => out ≠ []) = p.map Packet.contents := by
  induction ops generalizing c f with
  | nil =>
    rw [flatMap_nil, feed, Option.some.injEq] at hf
    exact ⟨[], c, [], rfl, by rw [hf]; rfl, rfl⟩
  | cons op ops ih =>
    cases op with
    | addData bs =>
      rw [flatMap_cons, Op.chunk] at hn hf
      have h1 := meetsZeroHeader_of_append _ _ hn
      rw [feed_append _ _ h1] at hf
      obtain ⟨n, hff, hfr⟩ := Option.bind_eq_some_iff.mp hf
      rw [meetsZeroHeader_append _ _ h1 hff] at hn
      obtain ⟨o, last, p, hr, hs, hsn⟩ :=
        ih (orderly_feed ho bs hff) hn hfr
      refine ⟨o, last, p, ?_, hs, hsn⟩
      rw [run, addData_eq_feed ho, hff]
      exact hr
    | popPacket =>
      rw [flatMap_cons, Op.chunk, nil_append] at hn hf
      have hk := orderly_popPacket ho
      obtain ⟨hnt, he⟩ | ⟨packet, rest, hu, hc, hnn, hpe⟩ :=
        popPacket_cases ho
      · obtain ⟨o, last, p, hr, hs, hsn⟩ := ih ho hn hf
        refine ⟨[] :: o, last, p, ?_, hs, by simpa using hsn⟩
        rw [run, he, hnt, hr]
      · rw [hpe] at hk
        rw [hu, (feed_unpop hc _).1] at hf
        rw [hu, (feed_unpop hc _).2] at hn
        obtain ⟨r, hrf, rfl⟩ := Option.map_eq_some_iff.mp hf
        obtain ⟨o, last, p, hr, hs, hsn⟩ := ih hk hn hrf
        refine ⟨packet.contents :: o, last, packet :: p, ?_, ?_, ?_⟩
        · rw [run, hpe, hr]
        · simp [unpop, hs]
        · rw [filter_cons_of_pos (by simpa using hnn), hsn]
          rfl

theorem run_append (ops m : List Op) :
    run code alloc c (ops ++ m) = (run code alloc c ops).bind (fun r =>
        (run code alloc r.2 m).map (fun r' => (r.1 ++ r'.1, r'.2))) := by
  induction ops generalizing c with
  | nil =>
    cases run code alloc c m with
    | none | some r => simp [run]
  | cons op ops ih =>
    cases op with
    | addData bs =>
      rw [cons_append, run, run]
      cases c.addData code alloc bs with
      | none => rfl
      | some n => exact ih
    | popPacket =>
      rw [cons_append, run, run, ih]
      cases run code alloc c.popPacket.2 ops with
      | none => rfl
      | some r =>
        obtain ⟨o, last⟩ := r
        cases later : run code alloc last m with
        | none | some r' => simp [later]

theorem run_pops (packets : List Packet) (n : Nat) (he : packets.length ≤ n)
    (hh : c.packets = packets) (hc : ∀ p ∈ packets, p.isPacketComplete = true ∧ p.contents ≠ []) :
    ∃ o last, run code alloc c (replicate n .popPacket) = some (o, last) ∧
      o.filter (fun out => out ≠ []) = packets.map Packet.contents := by
  induction n generalizing c packets with
  | zero =>
    rw [eq_nil_of_length_eq_zero (Nat.le_zero.mp he)]
    exact ⟨[], c, rfl, rfl⟩
  | succ n ih =>
    rw [replicate_succ, run]
    cases packets with
    | nil =>
      have hp : c.popPacket = ([], c) := by simp [popPacket, hh]
      obtain ⟨o, last, hr, hs⟩ := ih [] (Nat.zero_le n) hh (by simp)
      rw [hp, hr]
      exact ⟨[] :: o, last, rfl, by simpa using hs⟩
    | cons packet packets =>
      have hf := hc packet mem_cons_self
      have hp : c.popPacket = (packet.contents, { c with packets := packets }) := by
        simp [popPacket, hh, hf.1]
      obtain ⟨o, last, hr, hs⟩ := ih (c := { c with packets := packets }) packets
        (Nat.le_of_succ_le_succ he) rfl
        (fun p hm => hc p (mem_cons_of_mem packet hm))
      rw [hp, hr]
      refine ⟨packet.contents :: o, last, rfl, ?_⟩
      rw [filter_cons_of_pos (by simpa using hf.2), hs]
      rfl

end

/-- The gate's frames, cut into chunks in any way and with packets popped at any moments in
between, come out as the packets that were written, in order. -/
theorem packets_survive_chunking (code : TieredInt) (packets : List (List UInt8))
    (sendable : ∀ p ∈ packets, Sendable code p) (ops : List Op)
    (cut : ops.flatMap Op.chunk = packets.flatMap (writeIn code)) (n : Nat)
    (enough : packets.length ≤ n) :
    (results code grantsAll .empty (ops ++ List.replicate n .popPacket)).map
      (List.filter (fun out => out ≠ [])) = some packets := by
  obtain ⟨fu, hf, all⟩ :=
    feed_frames packets sendable (c := .empty) orderly_empty rfl rfl
  have hn := frames_meet_no_zeroHeader packets sendable
  rw [← cut] at hf hn
  obtain ⟨o, last, po, hr, hs, hsn⟩ := run_of_feed ops orderly_empty hn hf
  rw [hs] at all
  have hwa : po ++ last.packets = packets.map whole := all
  have hlf : ∀ p ∈ last.packets, p.isPacketComplete = true ∧ p.contents ≠ [] := by
    intro p hm
    have ha : p ∈ packets.map whole := hwa ▸ mem_append_right po hm
    obtain ⟨bs, hw, rfl⟩ := mem_map.mp ha
    have hb := sendable bs hw
    exact ⟨whole_complete hb.allocatable, by rw [contents_whole]; exact hb.nonempty⟩
  have hc : last.packets.length ≤ n := by
    have hl := congrArg length hwa
    rw [length_append, length_map] at hl
    omega
  obtain ⟨l, f, hd, hls⟩ :=
    @run_pops code grantsAll last last.packets n hc rfl hlf
  rw [results, run_append, hr]
  simp only [Option.bind_some, hd, Option.map_some, filter_append, hsn, hls,
    ← map_append, hwa, map_map, Option.some.injEq]
  have he : Packet.contents ∘ whole = id := funext contents_whole
  rw [he, map_id]

theorem packets_survive_chunking_in_header :
    (∀ p ∈ [[1, 2], [3]], Sendable TieredInt.twoTiers p) ∧
      (results TieredInt.twoTiers grantsAll .empty
        ([.addData [2, 1], .popPacket, .addData [2], .popPacket, .addData [1, 3]] ++
          List.replicate 2 .popPacket)).map (List.filter (fun out => out ≠ [])) =
        some [[1, 2], [3]] := by
  have hs : ∀ p ∈ [[1, 2], [3]], Sendable TieredInt.twoTiers p := by
    intro p hm
    simp only [mem_cons, not_mem_nil, or_false] at hm
    rcases hm with rfl | rfl
    · exact ⟨by decide, by decide, by decide⟩
    · exact ⟨by decide, by decide, by decide⟩
  exact ⟨hs, packets_survive_chunking TieredInt.twoTiers [[1, 2], [3]] hs
    [.addData [2, 1], .popPacket, .addData [2], .popPacket, .addData [1, 3]] (by decide) 2
    (by decide)⟩

end Ae.Transport.Framing
