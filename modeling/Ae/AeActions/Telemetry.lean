/- source: {ae_actions/telemetry.cpp,work_cloud_api/telemetric.h,mstream_buffers.h}
   digest: The limit computed for the telemetry blob, and when the whole fits into a packet. -/

import Ae.Types.TieredInt

set_option autoImplicit false

namespace Ae.AeActions.Telemetry
open List Ae.Types TieredInt

structure LimitVectorWriter where
  dataBuffer : List UInt8
  limit : Nat
  ended : Bool

open LimitVectorWriter

def LimitVectorWriter.write (w : LimitVectorWriter) (bytes : List UInt8) : LimitVectorWriter :=
  if w.ended ∨ w.dataBuffer.length + bytes.length ≥ w.limit then { w with ended := true }
  else { w with dataBuffer := w.dataBuffer ++ bytes }

structure Env where
  libVersion : List UInt8
  os : List UInt8
  compiler : List UInt8

def Env.overhead (env : Env) : Nat :=
  11 + env.libVersion.length + env.os.length + env.compiler.length

def blobMaxSize (maxElementSize : Nat) (env : Env) : Nat :=
  (maxElementSize + 2 ^ 64 - env.overhead % 2 ^ 64) % 2 ^ 64

/-- `CollectTelemetry`, where the trap makes these writes; `reserve` throws for sizes beyond
`max_size()` and otherwise gives the capacity it is asked for, which is the limit. -/
def collectTelemetry (maxElementSize : Nat) (env : Env) (writes : List (List UInt8)) :
    Option (List UInt8) :=
  if blobMaxSize maxElementSize env < 2 ^ 63 then
    some (writes.foldl write ⟨[], blobMaxSize maxElementSize env, false⟩).dataBuffer
  else none

def prefixes (code : TieredInt) (env : Env) (blob : Nat) : Nat :=
  (code.encode blob).length + (code.encode env.libVersion.length).length +
    (code.encode env.os.length).length + (code.encode env.compiler.length).length

def encodedLength (code : TieredInt) (env : Env) (blob : Nat) : Nat :=
  1 + 4 + prefixes code env blob + blob + env.libVersion.length + env.os.length +
    env.compiler.length

/-- The limit is the difference, and what is returned fits. -/
structure Fits (code : TieredInt) (maxElementSize : Nat) (env : Env) : Prop where
  unwrapped : env.overhead + blobMaxSize maxElementSize env = maxElementSize
  short : ∀ writes blob, collectTelemetry maxElementSize env writes = some blob →
    encodedLength code env blob.length ≤ maxElementSize

theorem blob_short {w : LimitVectorWriter} (ws : List (List UInt8))
    (hs : w.dataBuffer = [] ∨ w.dataBuffer.length < w.limit) :
    (ws.foldl write w).dataBuffer = [] ∨ (ws.foldl write w).dataBuffer.length < w.limit := by
  induction ws generalizing w with
  | nil => exact hs
  | cons bs ws ih => grind [write]

/-- The telemetry fits exactly where the limit is not negative, and for each blob below it the
prefixes take no more than the six bytes left for them and what the blob leaves. -/
theorem telemetry_fits_iff (code : TieredInt) (maxElementSize : Nat) (env : Env)
    (word : maxElementSize < 2 ^ 64) :
    Fits code maxElementSize env ↔ env.overhead ≤ maxElementSize ∧
      (maxElementSize - env.overhead < 2 ^ 63 → ∀ n, n = 0 ∨ n < maxElementSize - env.overhead →
        prefixes code env n + n ≤ maxElementSize - env.overhead + 6) := by
  have hlm (hl : env.overhead ≤ maxElementSize) :
      blobMaxSize maxElementSize env = maxElementSize - env.overhead := by
    rw [blobMaxSize]
    omega
  have he (hl : env.overhead ≤ maxElementSize) (n : Nat) :
      encodedLength code env n ≤ maxElementSize ↔
        prefixes code env n + n ≤ maxElementSize - env.overhead + 6 := by
    rw [encodedLength]
    rw [Env.overhead] at hl ⊢
    omega
  constructor
  · intro hf
    have hl : env.overhead ≤ maxElementSize := Nat.le.intro hf.unwrapped
    refine ⟨hl, fun hs n small => ?_⟩
    rw [← he hl, ← length_replicate (n := n) (a := (0 : UInt8))]
    refine hf.short (if n = 0 then [] else [replicate n 0]) _ ?_
    rw [collectTelemetry, hlm hl, if_pos hs]
    rcases small with rfl | small
    · rfl
    · split
      · next hz => rw [hz]; rfl
      · rw [foldl_cons, foldl_nil, write, if_neg (by simp; omega)]
        rfl
  · rintro ⟨hl, hsh⟩
    refine ⟨by rw [hlm hl]; omega, fun ws b hr => ?_⟩
    rw [collectTelemetry, hlm hl] at hr
    split at hr
    · next hs =>
      cases hr
      rw [he hl]
      exact hsh hs _ ((blob_short ws (.inl rfl)).imp_left (congrArg length))
    · cases hr

def shortNames : Env := ⟨[], [], [45]⟩

theorem telemetry_fits_iff_hundred : Fits twoTiers 100 shortNames := by
  refine (telemetry_fits_iff twoTiers 100 shortNames (by decide)).mpr
    ⟨by decide, fun _ n hs => ?_⟩
  have ho : (encodeTwoTiers n).length = 1 := by
    rw [encodeTwoTiers, if_pos]
    · rfl
    · have : 100 - shortNames.overhead = 88 := rfl
      omega
  have ha : prefixes .twoTiers shortNames n =
    (encodeTwoTiers n).length + 1 + 1 + 1 := rfl
  have : 100 - shortNames.overhead = 88 := rfl
  omega

/-- For a packet of ten bytes the limit wraps around. -/
theorem limit_wraps : ¬ Fits twoTiers 10 shortNames := fun hf =>
  absurd hf.unwrapped (by decide)

end Ae.AeActions.Telemetry
