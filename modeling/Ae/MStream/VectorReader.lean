/- source: {mstream_buffers,mstream}.h
   digest: The vector reader under an input stream, with a history of its reads. -/

import Ae.Types.TieredInt

set_option autoImplicit false

namespace Ae.MStream.VectorReader
open List
open Ae.Types (TieredInt)

/-- The `size_type` of a buffer, `std::uint32_t` or a `TieredInt`: in both cases a prefix
code. How much of the input a failed read of a size takes is left open. -/
structure SizeType extends TieredInt where
  skipped : List UInt8 → Nat
  skipped_le : ∀ s, skipped s ≤ s.length

def shortSizes : SizeType where
  toTieredInt := TieredInt.twoTiers
  skipped _ := 0
  skipped_le _ := Nat.zero_le _

inductive ReadResult where
  | no
  | yes
  deriving DecidableEq

/-- A call of `resize` on the announced number of elements: these take `need` bytes of input
or more, of which `left` were still there. -/
structure Resize where
  count : Nat
  need : Nat
  left : Nat
  deriving DecidableEq

/-- `VectorReader`. The last three fields are a history that the code does not keep:
whether some read was refused so far, what the decoding cost (one for each read, one for
each element made), and the calls of `resize` that came back. -/
structure Reader where
  data : List UInt8
  offset : Nat
  within : offset ≤ data.length
  result : ReadResult
  failed : Bool
  cost : Nat
  resizes : List Resize

/-- Where a decoding does not come back: a call of `resize` throws `std::length_error`, or a
loop never ends. -/
inductive Stop where
  | lengthError (r : Reader) (call : Resize)
  | endless (r : Reader)

abbrev Outcome (α : Type) := Except Stop (Reader × α)

namespace Reader

def start (data : List UInt8) : Reader := ⟨data, 0, Nat.zero_le _, .no, false, 0, []⟩

variable (r : Reader)

def rest : List UInt8 := r.data.drop r.offset

def refuse : Reader := { r with result := .no, failed := true }

def spend (n : Nat) : Reader := { r with cost := r.cost + n }

def took (n : Nat) (there : n ≤ r.rest.length) : Reader :=
  { r with
    offset := r.offset + n
    within := by
      have := r.within
      rw [rest, length_drop] at there
      omega
    result := .yes
    cost := r.cost + 1 }

def read (size : Nat) : Reader × Option (List UInt8) :=
  if there : size ≤ r.rest.length then (r.took size there, some (r.rest.take size))
  else ((r.refuse).spend 1, none)

def readSize (size : SizeType) (r : Reader) : Reader × Option Nat :=
  match h : size.decode r.rest with
  | some (value, n) => (r.took n (size.decode_length_le h), some value)
  | none =>
    (({ r with
        offset := r.offset + size.skipped r.rest
        within := by
          have := size.skipped_le r.rest
          have := r.within
          rw [rest, length_drop] at *
          omega } : Reader).refuse.spend 1, none)

/-- `t.resize(count)` for elements of `need` bytes in all: `std::length_error` is thrown
where no vector is that long. -/
def resize (count need : Nat) : Except Stop Reader :=
  if 2 ^ 63 ≤ need then .error (.lengthError r ⟨count, need, r.rest.length⟩)
  else .ok { (r.spend count) with resizes := ⟨count, need, r.rest.length⟩ :: r.resizes }

end Reader

/-- The reader `after` stands `n` bytes further on, and no read was refused on the way. -/
structure Consumed (before after : Reader) (n : Nat) : Prop where
  data : after.data = before.data
  offset : after.offset = before.offset + n
  failed : after.failed = before.failed
  result : after.result = .yes ∨ n = 0 ∧ after.result = before.result

namespace Consumed

variable {r s t : Reader} {n m : Nat}

theorem refl (r : Reader) : Consumed r r 0 := ⟨rfl, rfl, rfl, .inr ⟨rfl, rfl⟩⟩

theorem trans (first : Consumed r s n) (second : Consumed s t m) : Consumed r t (n + m) := by
  refine ⟨second.data.trans first.data, ?_, second.failed.trans first.failed, ?_⟩
  · rw [second.offset, first.offset, add_assoc]
  · rcases second.result with hy | ⟨hn, he⟩
    · exact .inl hy
    · rcases first.result with hy | ⟨hn', he'⟩
      · exact .inl (he.trans hy)
      · exact .inr ⟨by omega, he.trans he'⟩

theorem append {xs ys : List UInt8} (h1 : Consumed r s xs.length)
    (h2 : Consumed s t ys.length) : Consumed r t (xs ++ ys).length := by
  rw [length_append]
  exact h1.trans h2

theorem cons {b : UInt8} {ys : List UInt8} (h1 : Consumed r s 1)
    (h2 : Consumed s t ys.length) : Consumed r t (b :: ys).length := by
  rw [length_cons, add_comm]
  exact h1.trans h2

theorem rest {xs ys : List UInt8} (h : Consumed r s xs.length) (hs : r.rest = xs ++ ys) :
    s.rest = ys := by
  rw [Reader.rest, h.data, h.offset, ← drop_drop]
  show drop xs.length r.rest = ys
  rw [hs, drop_left]

theorem yes (h : Consumed r s n) (hs : r.result = .yes) : s.result = .yes := by
  rcases h.result with yes | ⟨-, he⟩
  · exact yes
  · exact he.trans hs

theorem spend (h : Consumed r s n) (k : Nat) : Consumed r (s.spend k) n :=
  ⟨h.data, h.offset, h.failed, h.result⟩

end Consumed

namespace Reader

variable {r : Reader}

theorem no_of_yes {P : Prop} (hy : r.result = .yes) (no : r.result = .no) : P := by
  rw [hy] at no
  cases no

theorem read_of_rest {xs ys : List UInt8} (h : r.rest = xs ++ ys) {n : Nat} (hl : xs.length = n) :
    ∃ r', r.read n = (r', some xs) ∧ r'.result = .yes ∧ Consumed r r' n := by
  have ht : n ≤ r.rest.length := by
    rw [h, length_append]
    omega
  refine ⟨r.took n ht, ?_, rfl, rfl, rfl, rfl, .inl rfl⟩
  have hf : r.rest.take n = xs := by rw [h, take_left' hl]
  rw [read, dif_pos ht, hf]

theorem readSize_of_rest {size : SizeType} {v : Nat} (hs : v ≤ size.maxValue)
    {ys : List UInt8} (h : r.rest = size.encode v ++ ys) :
    ∃ r', r.readSize size = (r', some v) ∧ r'.result = .yes ∧
      Consumed r r' (size.encode v).length := by
  have hd : size.decode r.rest = some (v, (size.encode v).length) := by
    rw [h]
    exact size.decode_encode v hs ys
  refine ⟨r.took _ (size.decode_length_le hd), ?_, rfl, rfl, rfl, rfl, .inl rfl⟩
  unfold readSize
  split
  · rename_i va n hf
    rw [hd, Option.some.injEq, Prod.mk.injEq] at hf
    obtain ⟨rfl, rfl⟩ := hf
    rfl
  · rename_i hf
    rw [hd] at hf
    exact absurd hf (by simp)

theorem resize_of_lt {c nd : Nat} (hs : nd < 2 ^ 63) :
    ∃ r', r.resize c nd = .ok r' ∧ r'.result = r.result ∧ Consumed r r' 0 :=
  ⟨_, if_neg (Nat.not_le.mpr hs), rfl, rfl, rfl, rfl, .inr ⟨rfl, rfl⟩⟩

end Reader

end Ae.MStream.VectorReader
