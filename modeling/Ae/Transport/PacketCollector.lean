/- source: transport/data_packet_collector.cpp, memory_buffer.h, stream_api/sized_packet_gate.cpp
   digest: The collector that cuts a byte stream back into length-prefixed packets. -/

import Ae.Types.TieredInt
import Mathlib.Algebra.Group.Int.Defs

set_option autoImplicit false

namespace Ae.Transport.PacketCollector
open Ae.Types (TieredInt)

def streamsize (n : Nat) : Int := if n < 2 ^ 63 then n else (n : Int) - 2 ^ 64

theorem streamsize_of_lt {n : Nat} (h : n < 2 ^ 63) : streamsize n = n := if_pos h

theorem streamsize_of_ge {n : Nat} (h : 2 ^ 63 ≤ n) (lt : n < 2 ^ 64) : streamsize n < 0 := by
  unfold streamsize
  split <;> omega

abbrev Allocator := Nat → Nat → Bool

structure MemStreamBuf where
  capacity : Nat
  data : List UInt8
  within : data.length ≤ capacity

namespace MemStreamBuf

/-- The buffer a constructor call leaves: none at all when the requested size is not
positive or when `realloc` returns null, and no one is told. -/
def setExactCapacity (granted : Bool) (newSize : Int) : MemStreamBuf :=
  if newSize ≤ 0 then ⟨0, [], Nat.le_refl 0⟩
  else if granted then ⟨newSize.toNat, [], Nat.zero_le _⟩
  else ⟨0, [], Nat.le_refl 0⟩

def size (buf : MemStreamBuf) : Nat := buf.data.length

def availableCapacity (buf : MemStreamBuf) : Nat := buf.capacity - buf.data.length

def sputn (buf : MemStreamBuf) (bytes : List UInt8) : MemStreamBuf :=
  ⟨buf.capacity, buf.data ++ bytes.take buf.availableCapacity, by
    have := buf.within
    rw [List.length_append, List.length_take, availableCapacity]
    omega⟩

end MemStreamBuf

structure Packet where
  memBuffer : MemStreamBuf
  expectedPacketSize : Nat

namespace Packet

def ofExpectedSize (granted : Bool) (expectedSize : Nat) : Packet :=
  ⟨.setExactCapacity granted (streamsize expectedSize), expectedSize⟩

def isPacketComplete (packet : Packet) : Bool :=
  (packet.memBuffer.size : Int) == streamsize packet.expectedPacketSize

def writeToPacket (packet : Packet) (bytes : List UInt8) : Nat × Packet :=
  (min packet.memBuffer.availableCapacity bytes.length,
    { packet with memBuffer := packet.memBuffer.sputn bytes })

/-- The vector `PopPacket` returns: `expected_packet_size` zeros, the data copied over
them. -/
def contents (packet : Packet) : List UInt8 :=
  packet.memBuffer.data ++ List.replicate (packet.expectedPacketSize - packet.memBuffer.size) 0

end Packet

/-- `StreamDataPacketCollector`. `created` counts the packets made so far, each with one
call of the allocator. -/
structure Collector where
  packets : List Packet
  tempDataBuffer : List UInt8
  created : Nat

namespace Collector

def empty : Collector := ⟨[], [], 0⟩

def awaitsHeader (c : Collector) : Bool :=
  match c.packets.getLast? with
  | none => true
  | some packet => packet.isPacketComplete

variable (code : TieredInt)

/-- `GetPacketSize`: the announced size, with 0 for none, how many bytes it takes, and
the collector after. -/
def getPacketSize (c : Collector) (bytes : List UInt8) : Nat × Nat × Collector :=
  let temp := c.tempDataBuffer ++ bytes.take (min 8 bytes.length)
  match code.decode temp with
  | none => (0, bytes.length, { c with tempDataBuffer := temp })
  | some (packetSize, offset) =>
    (packetSize, offset - c.tempDataBuffer.length, { c with tempDataBuffer := [] })

def emplace (alloc : Allocator) (c : Collector) (packetSize : Nat) : Collector :=
  { c with
    packets := c.packets ++ [.ofExpectedSize (alloc c.created packetSize) packetSize]
    created := c.created + 1 }

def writeToBack (c : Collector) (bytes : List UInt8) : Nat × Collector :=
  match c.packets.getLast? with
  | none => (0, c)
  | some packet =>
    let (taken, packet) := packet.writeToPacket bytes
    (taken, { c with packets := c.packets.dropLast ++ [packet] })

/-- The loop of `AddData` over the bytes not yet taken, for at most `fuel` iterations;
`none` when they do not suffice. -/
def addLoop (code : TieredInt) (alloc : Allocator) : Nat → Collector → List UInt8 → Option Collector
  | _, c, [] => some c
  | 0, _, _ :: _ => none
  | fuel + 1, c, byte :: bytes =>
    if c.awaitsHeader then
      let (packetSize, offset, c) := c.getPacketSize code (byte :: bytes)
      -- no packet yet
      if packetSize = 0 then some c
      else
        let left := (byte :: bytes).drop offset
        let (taken, c) := (c.emplace alloc packetSize).writeToBack left
        addLoop code alloc fuel c (left.drop taken)
    else
      let (taken, c) := c.writeToBack (byte :: bytes)
      addLoop code alloc fuel c ((byte :: bytes).drop taken)

/-- `AddData` returns, after some number of iterations, with the collector `after`. -/
def AddData (alloc : Allocator) (c : Collector) (bytes : List UInt8) (after : Collector) : Prop :=
  ∃ fuel, addLoop code alloc fuel c bytes = some after

/-- `PopPacket`: the packet returned, empty for none, and the collector after. -/
def popPacket (c : Collector) : List UInt8 × Collector :=
  match c.packets with
  | [] => ([], c)
  | packet :: packets =>
    if packet.isPacketComplete then (packet.contents, { c with packets := packets }) else ([], c)

/-- The call of `AddData`, whose loop needs at most one iteration for each byte wherever it
ends at all; `none` when it does not. -/
def addData (alloc : Allocator) (c : Collector) (bytes : List UInt8) : Option Collector :=
  addLoop code alloc bytes.length c bytes

end Collector

inductive Op where
  | addData (bytes : List UInt8)
  | popPacket

namespace Op

def chunk : Op → List UInt8
  | .addData bytes => bytes
  | .popPacket => []

end Op

variable (code : TieredInt)

/-- The results of the `PopPacket` calls of a run, with the collector it leaves; `none`
when an `AddData` call does not return. -/
def run (code : TieredInt) (alloc : Allocator) : Collector → List Op →
    Option (List (List UInt8) × Collector)
  | c, [] => some ([], c)
  | c, .addData bytes :: ops =>
    match c.addData code alloc bytes with
    | none => none
    | some c => run code alloc c ops
  | c, .popPacket :: ops =>
    match run code alloc c.popPacket.2 ops with
    | none => none
    | some (results, last) => some (c.popPacket.1 :: results, last)

def results (alloc : Allocator) (c : Collector) (ops : List Op) : Option (List (List UInt8)) :=
  (run code alloc c ops).map Prod.fst

def Reachable (alloc : Allocator) (c : Collector) : Prop :=
  ∃ ops results, run code alloc .empty ops = some (results, c)

/-- `SizedPacketGate::WriteIn`: the size of the buffer and its bytes. -/
def writeIn (buffer : List UInt8) : List UInt8 :=
  code.encode buffer.length ++ buffer

end Ae.Transport.PacketCollector
