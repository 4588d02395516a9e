/- source: transport/data_packet_collector.cpp
   digest: The packet collector reads its input one byte at a time, whatever the chunks. -/

import Ae.Transport.PacketCollector

set_option autoImplicit false

namespace Ae.Transport.ByteFeed
open Ae.Types (TieredInt)
open List PacketCollector Collector MemStreamBuf

/-- What one byte does to the collector. -/
inductive ByteEffect where
  | took (c : Collector)
  /-- The byte completes a header that announces a packet of no bytes. -/
  | zeroHeader (c : Collector)
  /-- The byte belongs to a packet that has no room for it. -/
  | noRoom

def room (c : Collector) : Nat :=
  match c.packets.getLast? with
  | none => 0
  | some packet => packet.memBuffer.availableCapacity

def byteEffect (code : TieredInt) (alloc : Allocator) (c : Collector) (b : UInt8) : ByteEffect :=
  if c.awaitsHeader then
    match code.decode (c.tempDataBuffer ++ [b]) with
    | none => .took { c with tempDataBuffer := c.tempDataBuffer ++ [b] }
    | some (0, _) => .zeroHeader { c with tempDataBuffer := [] }
    | some (v + 1, _) => .took (({ c with tempDataBuffer := [] } : Collector).emplace alloc (v + 1))
  else if room c = 0 then .noRoom
  else .took (c.writeToBack [b]).2

/-- The collector after all bytes of a chunk, `none` when a byte finds no room. What
follows a header of no bytes is left out. -/
def feed (code : TieredInt) (alloc : Allocator) : Collector → List UInt8 → Option Collector
  | c, [] => some c
  | c, b :: bytes =>
    match byteEffect code alloc c b with
    | .took c => feed code alloc c bytes
    | .zeroHeader c => some c
    | .noRoom => none

/-- A packet as the constructor and the writes leave it: of some size, and with a buffer
either of that size or missing. -/
structure Sized (packet : Packet) : Prop where
  pos : 0 < packet.expectedPacketSize
  lt : packet.expectedPacketSize < 2 ^ 64
  capacity : packet.memBuffer.capacity = 0 ∨
    packet.memBuffer.capacity = packet.expectedPacketSize ∧ packet.expectedPacketSize < 2 ^ 63

structure Orderly (code : TieredInt) (c : Collector) : Prop where
  header : code.decode c.tempDataBuffer = none
  headerFirst : c.awaitsHeader = false → c.tempDataBuffer = []
  sized : ∀ packet ∈ c.packets, Sized packet
  complete : ∀ packet ∈ c.packets.dropLast, packet.isPacketComplete = true

variable {packet : Packet} {c : Collector} {code : TieredInt} {alloc : Allocator}

theorem isPacketComplete_iff (hs : Sized packet) :
    packet.isPacketComplete = true ↔ packet.memBuffer.size = packet.expectedPacketSize := by
  have hp := hs.pos
  have hw := packet.memBuffer.within
  rw [Packet.isPacketComplete, beq_iff_eq]
  by_cases hsm : packet.expectedPacketSize < 2 ^ 63
  · rw [streamsize_of_lt hsm]
    omega
  · have hn := streamsize_of_ge (not_lt.mp hsm) hs.lt
    rcases hs.capacity with hnn | some
    · rw [size]
      omega
    · omega

theorem incomplete_of_room (hs : Sized packet) (ho : 0 < packet.memBuffer.availableCapacity) :
    packet.isPacketComplete = false := by
  rw [Bool.eq_false_iff, Ne, isPacketComplete_iff hs]
  have := hs.capacity
  have := hs.pos
  rw [availableCapacity] at ho
  rw [size]
  omega

theorem sputn_nil (buf : MemStreamBuf) : buf.sputn [] = buf := by
  simp [sputn]

theorem sputn_append (buf : MemStreamBuf) (xs ys : List UInt8) :
    (buf.sputn xs).sputn ys = buf.sputn (xs ++ ys) := by
  have := buf.within
  have hs : buf.capacity - (buf.data.length + min (buf.capacity - buf.data.length) xs.length) =
      buf.capacity - buf.data.length - xs.length := by omega
  simp only [sputn, availableCapacity, length_append, length_take, append_assoc, hs, take_append]

theorem sized_ofExpectedSize {n : Nat} (g : Bool) (pos : 0 < n) (lt : n < 2 ^ 64) :
    Sized (.ofExpectedSize g n) := by
  refine ⟨pos, lt, ?_⟩
  simp only [Packet.ofExpectedSize, setExactCapacity]
  split
  · exact .inl rfl
  · rename_i hp
    split
    · right
      have hs : n < 2 ^ 63 := by
        by_contra hl
        have := streamsize_of_ge (not_lt.mp hl) lt
        omega
      rw [streamsize_of_lt hs]
      exact ⟨Int.toNat_natCast n, hs⟩
    · exact .inl rfl

theorem room_of_back (hb : c.packets.getLast? = some packet) :
    room c = packet.memBuffer.availableCapacity := by
  rw [room, hb]

theorem writeToBack_of_back (hb : c.packets.getLast? = some packet) (bs : List UInt8) :
    c.writeToBack bs = (min (room c) bs.length, { c with
        packets := c.packets.dropLast ++
          [{ packet with memBuffer := packet.memBuffer.sputn bs }] }) := by
  rw [room_of_back hb, writeToBack, hb]
  rfl

theorem writeToBack_of_none (none : c.packets.getLast? = none) (bs : List UInt8) :
    c.writeToBack bs = (0, c) := by
  rw [writeToBack, none]

theorem awaitsHeader_of_room (hs : ∀ packet ∈ c.packets, Sized packet) (ho : 0 < room c) :
    c.awaitsHeader = false := by
  cases hb : c.packets.getLast? with
  | none => simp [room, hb] at ho
  | some packet =>
    rw [room_of_back hb] at ho
    rw [awaitsHeader, hb]
    exact incomplete_of_room (hs packet (mem_of_getLast? hb)) ho

@[simp] theorem writeToBack_nil : (c.writeToBack []).2 = c := by
  cases back : c.packets.getLast? with
  | none => rw [writeToBack_of_none back]
  | some packet =>
    rw [writeToBack_of_back back, sputn_nil]
    have hw := dropLast_append_getLast? packet back
    simp only [hw]

theorem writeToBack_append (xs ys : List UInt8) :
    ((c.writeToBack xs).2.writeToBack ys).2 = (c.writeToBack (xs ++ ys)).2 := by
  cases back : c.packets.getLast? with
  | none => simp [writeToBack_of_none back]
  | some packet =>
    rw [writeToBack_of_back back, writeToBack_of_back back]
    rw [writeToBack_of_back getLast?_concat]
    simp only [dropLast_concat, sputn_append]

theorem sized_write (hs : ∀ packet ∈ c.packets, Sized packet) (bs : List UInt8) :
    ∀ packet ∈ (c.writeToBack bs).2.packets, Sized packet := by
  cases hb : c.packets.getLast? with
  | none =>
    rw [writeToBack_of_none hb]
    exact hs
  | some packet =>
    have hl := hs packet (mem_of_getLast? hb)
    rw [writeToBack_of_back hb]
    intro o hm
    rcases mem_append.mp hm with he | isLast
    · exact hs o (dropLast_subset _ he)
    · rw [mem_singleton.mp isLast]
      exact ⟨hl.pos, hl.lt, hl.capacity⟩

theorem room_write (bs : List UInt8) (h : bs.length ≤ room c) :
    room (c.writeToBack bs).2 = room c - bs.length := by
  cases back : c.packets.getLast? with
  | none => simp [writeToBack_of_none back, room, back]
  | some packet =>
    rw [room_of_back back] at h
    rw [writeToBack_of_back back, room_of_back getLast?_concat, room_of_back back]
    simp only [availableCapacity, sputn, length_append, length_take] at h ⊢
    omega

section

theorem feed_write (hs : ∀ packet ∈ c.packets, Sized packet) (k : Nat) (bs : List UInt8)
    (hf : k ≤ room c) :
    feed code alloc c bs = feed code alloc (c.writeToBack (bs.take k)).2 (bs.drop k) := by
  induction k generalizing c bs with
  | zero => simp
  | succ k ih =>
    cases bs with
    | nil => simp
    | cons b bs =>
      have ho : 0 < room c := by omega
      have one : byteEffect code alloc c b = .took (c.writeToBack [b]).2 := by
        rw [byteEffect, awaitsHeader_of_room hs ho]
        simp [ho.ne']
      have hl : room (c.writeToBack [b]).2 = room c - 1 := room_write [b] ho
      rw [feed, one]
      simp only [take_succ_cons, drop_succ_cons]
      rw [ih (sized_write hs [b]) bs (by omega), writeToBack_append]
      rfl

theorem feed_header_none (hw : c.awaitsHeader = true) (bs : List UInt8)
    (h : code.decode (c.tempDataBuffer ++ bs) = none) :
    feed code alloc c bs = some { c with tempDataBuffer := c.tempDataBuffer ++ bs } := by
  induction bs generalizing c with
  | nil => simp [feed]
  | cons b bs ih =>
    rw [append_cons] at h
    have ho : byteEffect code alloc c b =
        .took { c with tempDataBuffer := c.tempDataBuffer ++ [b] } := by
      rw [byteEffect, hw, code.decode_none_of_append h]
      rfl
    have hr := ih (c := { c with tempDataBuffer := c.tempDataBuffer ++ [b] }) hw h
    rw [feed, ho]
    simpa using hr

variable (alloc) in
theorem feed_header_some (hw : c.awaitsHeader = true)
    (ho : code.decode c.tempDataBuffer = none) {bs : List UInt8} {v n : Nat}
    (h : code.decode (c.tempDataBuffer ++ bs) = some (v, n)) :
    feed code alloc c bs = if v = 0 then some { c with tempDataBuffer := [] }
      else feed code alloc (({ c with tempDataBuffer := [] } : Collector).emplace alloc v)
        (bs.drop (n - c.tempDataBuffer.length)) := by
  induction bs generalizing c with
  | nil =>
    rw [append_nil, ho] at h
    exact absurd h (by simp)
  | cons b bs ih =>
    rw [append_cons] at h
    have hm := code.length_lt_of_decode_append ho (t := b :: bs) (by
      rw [append_cons]; exact h)
    cases first : code.decode (c.tempDataBuffer ++ [b]) with
    | none =>
      have one : byteEffect code alloc c b =
          .took { c with tempDataBuffer := c.tempDataBuffer ++ [b] } := by
        rw [byteEffect, hw, first]
        rfl
      have hl := code.length_lt_of_decode_append first h
      simp only [length_append, length_singleton] at hl
      have hs : n - c.tempDataBuffer.length = n - (c.tempDataBuffer.length + 1) + 1 := by omega
      rw [feed, one, hs, drop_succ_cons]
      have hr := ih (c := { c with tempDataBuffer := c.tempDataBuffer ++ [b] }) hw first h
      simpa using hr
    | some r =>
      -- the header ends with this byte
      have he := code.decode_append first bs
      rw [h, Option.some.injEq, Prod.ext_iff] at he
      obtain ⟨rfl, rfl⟩ := he
      have hls := code.decode_length_le first
      simp only [length_append, length_singleton] at hls
      obtain ⟨v, n⟩ := r
      have one : n - c.tempDataBuffer.length = 1 := by omega
      rw [feed, byteEffect, hw, first, one]
      cases v with
      | zero | succ v => rfl

theorem getPacketSize_eq (bytes : List UInt8) :
    c.getPacketSize code bytes = match code.decode (c.tempDataBuffer ++ bytes) with
      | none => (0, bytes.length, { c with tempDataBuffer := c.tempDataBuffer ++ bytes })
      | some (v, n) => (v, n - c.tempDataBuffer.length, { c with tempDataBuffer := [] }) := by
  have ha : bytes.take (min 8 bytes.length) = bytes.take 8 := by
    rw [take_eq_take_iff]
    omega
  rw [getPacketSize, ha]
  cases h : code.decode (c.tempDataBuffer ++ bytes.take 8) with
  | none =>
    have hs := code.length_lt_of_decode_none h
    have all : bytes.take 8 = bytes := by
      apply take_of_length_le
      rw [length_append, length_take] at hs
      omega
    rw [all] at h ⊢
    rw [h]
  | some r =>
    have hw := code.decode_append h (bytes.drop 8)
    rw [append_assoc, take_append_drop] at hw
    rw [hw]

theorem orderly_empty : Orderly code .empty :=
  ⟨code.decode_nil, fun _ => rfl, by simp [empty], by simp [empty]⟩

theorem orderly_header (ho : Orderly code c) (hw : c.awaitsHeader = true)
    {t : List UInt8} (hop : code.decode t = none) :
    Orderly code { c with tempDataBuffer := t } := by
  refine ⟨hop, ?_, ho.sized, ho.complete⟩
  intro hb
  exact absurd (hw.symm.trans hb) (by simp)

variable (alloc) in
theorem orderly_emplace (ho : Orderly code c) (hw : c.awaitsHeader = true) {v : Nat}
    (hp : v ≠ 0) (lt : v < 2 ^ 64) :
    Orderly code (({ c with tempDataBuffer := [] } : Collector).emplace alloc v) := by
  refine ⟨code.decode_nil, fun _ => rfl, ?_, ?_⟩
  · intro packet hm
    rcases mem_append.mp hm with he | isNew
    · exact ho.sized packet he
    · rw [mem_singleton.mp isNew]
      exact sized_ofExpectedSize _ (Nat.pos_of_ne_zero hp) lt
  · intro packet hm
    simp only [emplace, dropLast_concat] at hm
    cases back : c.packets.getLast? with
    | none =>
      rw [getLast?_eq_none_iff.mp back] at hm
      simp at hm
    | some last =>
      rw [← dropLast_append_getLast? last back] at hm
      rcases mem_append.mp hm with he | isLast
      · exact ho.complete packet he
      · rw [awaitsHeader, back] at hw
        rw [mem_singleton.mp isLast]
        exact hw

theorem orderly_write (ho : Orderly code c) (hn : c.tempDataBuffer = [])
    (bs : List UInt8) : Orderly code (c.writeToBack bs).2 := by
  cases back : c.packets.getLast? with
  | none =>
    rw [writeToBack_of_none back]
    exact ho
  | some packet =>
    have hs := sized_write ho.sized bs
    rw [writeToBack_of_back back] at hs ⊢
    refine ⟨ho.header, fun _ => hn, hs, ?_⟩
    simp only [dropLast_concat]
    exact ho.complete

theorem feed_stuck (hb : c.awaitsHeader = false) (hf : room c = 0) (b : UInt8)
    (bs : List UInt8) : feed code alloc c (b :: bs) = none := by
  rw [feed, byteEffect, hb, hf]
  rfl

theorem feed_writeToBack (hs : ∀ packet ∈ c.packets, Sized packet) (bs : List UInt8) :
    feed code alloc c bs = feed code alloc (c.writeToBack bs).2 (bs.drop (c.writeToBack bs).1) := by
  cases back : c.packets.getLast? with
  | none => simp [writeToBack_of_none back]
  | some packet =>
    have he : (c.writeToBack (bs.take (room c))).2 = (c.writeToBack bs).2 := by
      rw [writeToBack_of_back back, writeToBack_of_back back, room_of_back back]
      simp only [sputn, take_take, Nat.min_self]
    have hl : bs.drop (c.writeToBack bs).1 = bs.drop (room c) := by
      rw [writeToBack_of_back back]
      rcases le_total (room c) bs.length with hf | short
      · rw [min_eq_left hf]
      · rw [min_eq_right short, drop_of_length_le short, drop_length]
    rw [feed_write hs (room c) bs le_rfl, he, hl]

variable (alloc) in
/-- What one iteration of the loop does: it ends the call, or it hands on to the next one
with fewer bytes left, unless it can never end. -/
theorem addLoop_iteration (ho : Orderly code c) (b : UInt8) (bs : List UInt8) :
    (∃ after, feed code alloc c (b :: bs) = some after ∧
      ∀ fuel, c.addLoop code alloc (fuel + 1) (b :: bs) = some after) ∨
    ∃ next left, Orderly code next ∧
      feed code alloc c (b :: bs) = feed code alloc next left ∧
      (∀ fuel, c.addLoop code alloc (fuel + 1) (b :: bs) = next.addLoop code alloc fuel left) ∧
      (left.length < (b :: bs).length ∨ feed code alloc c (b :: bs) = none) := by
  cases hw : c.awaitsHeader with
  | false =>
    refine Or.inr ⟨(c.writeToBack (b :: bs)).2, (b :: bs).drop (c.writeToBack (b :: bs)).1,
      orderly_write ho (ho.headerFirst hw) _, feed_writeToBack ho.sized _, ?_, ?_⟩
    · intro fuel
      rw [addLoop, hw]
      rfl
    · rcases Nat.eq_zero_or_pos (room c) with hf | open_
      · exact Or.inr (feed_stuck hw hf b bs)
      · left
        cases back : c.packets.getLast? with
        | none => simp [room, back] at open_
        | some packet =>
          rw [writeToBack_of_back back]
          simp only [length_drop, length_cons]
          omega
  | true =>
    cases h : code.decode (c.tempDataBuffer ++ b :: bs) with
    | none =>
      refine Or.inl ⟨_, feed_header_none hw _ h, ?_⟩
      intro fuel
      rw [addLoop, hw, getPacketSize_eq, h]
      rfl
    | some r =>
      obtain ⟨v, n⟩ := r
      have hm := code.length_lt_of_decode_append ho.header h
      have hh := feed_header_some alloc hw ho.header h
      by_cases hz : v = 0
      · refine Or.inl ⟨_, hh.trans (if_pos hz), ?_⟩
        intro fuel
        rw [addLoop, hw, getPacketSize_eq, h]
        simp [hz]
      · have hop := orderly_emplace alloc ho hw hz (code.decode_lt h)
        let left := (b :: bs).drop (n - c.tempDataBuffer.length)
        let f := ({ c with tempDataBuffer := [] } : Collector).emplace alloc v
        refine Or.inr ⟨(f.writeToBack left).2, left.drop (f.writeToBack left).1,
          orderly_write hop rfl left, ?_, ?_, Or.inl ?_⟩
        · rw [hh, if_neg hz]
          exact feed_writeToBack hop.sized _
        · intro fuel
          rw [addLoop, hw, getPacketSize_eq, h]
          simp only [if_true, if_neg hz]
          rfl
        · simp only [left, length_drop, length_cons]
          omega

variable {after : Collector}

theorem feed_of_addLoop (fuel : Nat) (ho : Orderly code c) (bs : List UInt8)
    (h : c.addLoop code alloc fuel bs = some after) : feed code alloc c bs = some after := by
  induction fuel generalizing c bs with
  | zero =>
    cases bs with
    | nil => rwa [addLoop] at h
    | cons b bs => simp [addLoop] at h
  | succ fuel ih =>
    cases bs with
    | nil => rwa [addLoop] at h
    | cons b bs =>
      obtain ⟨last, hs, he⟩ | ⟨n, l, hk, hsm, hh, -⟩ :=
        addLoop_iteration alloc ho b bs
      · rw [hs, ← he fuel, h]
      · rw [hsm]
        rw [hh fuel] at h
        exact ih hk l h

/-- Where every byte finds its place the loop returns, after at most one iteration for
each byte. -/
theorem addLoop_of_feed (fuel : Nat) (ho : Orderly code c) (bs : List UInt8)
    (he : bs.length ≤ fuel) (h : feed code alloc c bs = some after) :
    c.addLoop code alloc fuel bs = some after := by
  induction fuel generalizing c bs with
  | zero =>
    rw [eq_nil_of_length_eq_zero (Nat.le_zero.mp he)] at h ⊢
    rwa [addLoop]
  | succ fuel ih =>
    cases bs with
    | nil => rwa [addLoop]
    | cons b bs =>
      obtain ⟨last, hs, hen⟩ | ⟨n, l, hk, hsm, hh, hf⟩ :=
        addLoop_iteration alloc ho b bs
      · rw [hen fuel, ← hs, h]
      · rcases hf with hf | never
        · rw [hh fuel]
          refine ih hk l ?_ (hsm ▸ h)
          simp only [length_cons] at he hf
          omega
        · rw [never] at h
          exact absurd h (by simp)

theorem addData_iff_feed (ho : Orderly code c) (bs : List UInt8) :
    c.AddData code alloc bs after ↔ feed code alloc c bs = some after := by
  constructor
  · rintro ⟨fuel, hr⟩
    exact feed_of_addLoop fuel ho bs hr
  · intro hs
    exact ⟨bs.length, addLoop_of_feed _ ho bs le_rfl hs⟩

theorem addData_eq_feed (ho : Orderly code c) (bytes : List UInt8) :
    c.addData code alloc bytes = feed code alloc c bytes := by
  cases hs : feed code alloc c bytes with
  | some after => exact addLoop_of_feed _ ho bytes le_rfl hs
  | none =>
    cases returned : c.addData code alloc bytes with
    | none => rfl
    | some after =>
      rw [feed_of_addLoop _ ho bytes returned] at hs
      exact absurd hs (by simp)

end

section

variable (ho : Orderly code c)
include ho

theorem orderly_byteEffect (b : UInt8) {next : Collector}
    (h : byteEffect code alloc c b = .took next ∨ byteEffect code alloc c b = .zeroHeader next) :
    Orderly code next := by
  unfold byteEffect at h
  cases hw : c.awaitsHeader with
  | false =>
    rw [hw] at h
    by_cases full : room c = 0
    · simp [full] at h
    · simp only [full, Bool.false_eq_true, if_false, ByteEffect.took.injEq, reduceCtorEq,
        or_false] at h
      rw [← h]
      exact orderly_write ho (ho.headerFirst hw) [b]
  | true =>
    rw [hw, if_pos rfl] at h
    cases h1 : code.decode (c.tempDataBuffer ++ [b]) with
    | none =>
      simp only [h1, ByteEffect.took.injEq, reduceCtorEq, or_false] at h
      rw [← h]
      exact orderly_header ho hw h1
    | some r =>
      obtain ⟨v, n⟩ := r
      cases v with
      | zero =>
        simp only [h1, ByteEffect.zeroHeader.injEq, reduceCtorEq, false_or] at h
        rw [← h]
        exact orderly_header ho hw code.decode_nil
      | succ v =>
        simp only [h1, ByteEffect.took.injEq, reduceCtorEq, or_false] at h
        rw [← h]
        exact orderly_emplace alloc ho hw (Nat.succ_ne_zero v) (code.decode_lt h1)

theorem orderly_feed {after : Collector} (bs : List UInt8)
    (h : feed code alloc c bs = some after) : Orderly code after := by
  induction bs generalizing c with
  | nil =>
    rw [feed, Option.some.injEq] at h
    exact h ▸ ho
  | cons b bs ih =>
    rw [feed] at h
    cases he : byteEffect code alloc c b with
    | noRoom => simp [he] at h
    | zeroHeader n =>
      simp only [he, Option.some.injEq] at h
      exact h ▸ orderly_byteEffect ho b (.inr he)
    | took n =>
      simp only [he] at h
      exact ih (orderly_byteEffect ho b (.inl he)) h

theorem orderly_popPacket : Orderly code c.popPacket.2 := by
  cases packets : c.packets with
  | nil => simpa [popPacket, packets] using ho
  | cons packet os =>
    cases done : packet.isPacketComplete with
    | false => simpa [popPacket, packets, done] using ho
    | true =>
      have hp : c.popPacket.2 = { c with packets := os } := by
        simp [popPacket, packets, done]
      rw [hp]
      have hs : ∀ p ∈ os, Sized p := by
        intro p hm
        exact ho.sized p (packets ▸ mem_cons_of_mem packet hm)
      cases os with
      | nil =>
        -- what was popped was the last packet, so a header comes next
        refine ⟨ho.header, ?_, hs, by simp⟩
        intro hb
        simp [awaitsHeader] at hb
      | cons s os =>
        have hc := ho.complete
        rw [packets] at hc
        refine ⟨ho.header, ?_, hs, ?_⟩
        · intro hb
          apply ho.headerFirst
          rw [awaitsHeader] at hb ⊢
          rw [packets, getLast?_cons_cons]
          exact hb
        · intro p hm
          exact hc p (by simp [dropLast, hm])

theorem orderly_run {ops : List Op} {o : List (List UInt8)} {last : Collector}
    (h : run code alloc c ops = some (o, last)) : Orderly code last := by
  induction ops generalizing c o with
  | nil =>
    simp only [run, Option.some.injEq, Prod.mk.injEq] at h
    exact h.2 ▸ ho
  | cons op ops ih =>
    cases op with
    | addData bs =>
      rw [run, addData_eq_feed ho] at h
      cases hf : feed code alloc c bs with
      | none => simp [hf] at h
      | some n =>
        simp only [hf] at h
        exact ih (orderly_feed ho bs hf) h
    | popPacket =>
      rw [run] at h
      cases hl : run code alloc c.popPacket.2 ops with
      | none => simp [hl] at h
      | some r =>
        obtain ⟨ls, l⟩ := r
        simp only [hl, Option.some.injEq, Prod.mk.injEq] at h
        exact ih (orderly_popPacket ho) (h.2 ▸ hl)

end

theorem orderly_of_reachable (hr : Reachable code alloc c) : Orderly code c := by
  obtain ⟨ops, o, ran⟩ := hr
  exact orderly_run orderly_empty ran

end Ae.Transport.ByteFeed
