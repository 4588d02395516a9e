/- source: crypto/sodium/sodium_sync_crypto_provider.cpp, crypto/crypto_nonce.h
   digest: The symmetric cipher of libsodium with the nonce behind the ciphertext. -/

import Mathlib.Data.List.Basic

set_option autoImplicit false

namespace Ae.Crypto.SyncProvider
open List

abbrev DataBuffer := List UInt8

/-- `crypto_aead_chacha20poly1305`, with its constants `ABYTES` and `NPUBBYTES`: it decrypts
what it encrypted and rejects everything else. -/
structure Aead (K : Type) where
  aBytes : Nat
  nonceSize : Nat
  encrypt : K → DataBuffer → DataBuffer → DataBuffer
  decrypt : K → DataBuffer → DataBuffer → Option DataBuffer
  length_encrypt : ∀ k nonce m, (encrypt k nonce m).length = m.length + aBytes
  decrypt_iff : ∀ k nonce c m, decrypt k nonce c = some m ↔ encrypt k nonce m = c

def write (buffer : DataBuffer) (start : Nat) (bytes : DataBuffer) : Option DataBuffer :=
  if start + bytes.length ≤ buffer.length then
    some (buffer.take start ++ bytes ++ buffer.drop (start + bytes.length))
  else none

def read (buffer : DataBuffer) (start count : Nat) : Option DataBuffer :=
  if start + count ≤ buffer.length then some ((buffer.drop start).take count) else none

def minus (a b : Nat) : Option Nat := if b ≤ a then some (a - b) else none

def resize (buffer : DataBuffer) (size : Nat) : DataBuffer :=
  buffer.take size ++ replicate (size - buffer.length) 0

variable {K : Type} (lib : Aead K) (key : K)

def encryptWithSymmetric (nonce : { value : DataBuffer // value.length = lib.nonceSize })
    (rawData : DataBuffer) : Option DataBuffer := do
  let ciphertext := replicate (rawData.length + lib.aBytes + lib.nonceSize) 0
  let encrypted := lib.encrypt key nonce.1 rawData
  let ciphertext ← write ciphertext 0 encrypted
  write (resize ciphertext (encrypted.length + lib.nonceSize)) encrypted.length nonce.1

def decryptWithSymmetric (encryptedData : DataBuffer) : Option DataBuffer :=
  if encryptedData.length ≤ lib.nonceSize + lib.aBytes then some []
  else do
    let size ← minus encryptedData.length lib.nonceSize
    let tail ← read encryptedData size (encryptedData.length - size)
    let nonce ← write (replicate lib.nonceSize 0) 0 tail
    let decrypted := replicate (← minus size lib.aBytes) 0
    match lib.decrypt key nonce (← read encryptedData 0 size) with
    | none => some []
    | some m => (write decrypted 0 m).map fun decrypted => resize decrypted m.length

def encryptOverhead : Nat := lib.aBytes + lib.nonceSize

section

variable {lib key}

theorem write_front {b bs : DataBuffer} (hr : bs.length ≤ b.length) :
    write b 0 bs = some (bs ++ b.drop bs.length) := by
  rw [write, Nat.zero_add, if_pos hr, take_zero, nil_append]

theorem write_back {f rest bs : DataBuffer} (he : bs.length = rest.length) :
    write (f ++ rest) f.length bs = some (f ++ bs) := by
  rw [write, length_append, he, if_pos (Nat.le_refl _), take_left, ← length_append,
    drop_length, append_nil]

theorem resize_self {buffer : DataBuffer} {size : Nat} (hw : buffer.length = size) :
    resize buffer size = buffer := by
  rw [resize, ← hw, take_length, Nat.sub_self, replicate_zero, append_nil]

theorem resize_front (m rest : DataBuffer) : resize (m ++ rest) m.length = m := by
  rw [resize, take_left, length_append, Nat.sub_eq_zero_of_le (Nat.le_add_right _ _),
    replicate_zero, append_nil]

theorem encryptWithSymmetric_eq
    (n : { v : DataBuffer // v.length = lib.nonceSize }) (m : DataBuffer) :
    encryptWithSymmetric lib key n m = some (lib.encrypt key n.1 m ++ n.1) := by
  have hl := lib.length_encrypt key n.1 m
  have hr : (replicate (m.length + lib.aBytes + lib.nonceSize) (0 : UInt8)).length =
      (lib.encrypt key n.1 m).length + lib.nonceSize := by
    rw [length_replicate, hl]
  have hb : n.1.length = ((replicate (m.length + lib.aBytes + lib.nonceSize) 0).drop
      (lib.encrypt key n.1 m).length : DataBuffer).length := by
    rw [length_drop, hr, Nat.add_sub_cancel_left, n.2]
  rw [encryptWithSymmetric, write_front (by omega)]
  simp only [Option.bind_eq_bind, Option.bind_some]
  rw [resize_self (by rw [length_append, ← hb, n.2]), write_back hb]

theorem decryptWithSymmetric_append (lib : Aead K) (key : K) (c nonce : DataBuffer)
    (hp : nonce.length = lib.nonceSize) (hln : lib.aBytes < c.length) :
    decryptWithSymmetric lib key (c ++ nonce) = some ((lib.decrypt key nonce c).getD []) := by
  have size : minus (c ++ nonce).length lib.nonceSize = some c.length := by
    rw [minus, length_append, if_pos (by omega), hp, Nat.add_sub_cancel]
  have tail : read (c ++ nonce) c.length ((c ++ nonce).length - c.length) = some nonce := by
    rw [read, length_append, if_pos (by omega), drop_left, take_of_length_le (by omega)]
  have hf : read (c ++ nonce) 0 c.length = some c := by
    rw [read, length_append, if_pos (by omega), drop_zero, take_left]
  have ha : write (replicate lib.nonceSize 0) 0 nonce = some nonce := by
    rw [write_front (by simp [hp]), ← hp, drop_of_length_le (by simp), append_nil]
  have hr : minus c.length lib.aBytes = some (c.length - lib.aBytes) := if_pos (Nat.le_of_lt hln)
  rw [decryptWithSymmetric, if_neg (by rw [length_append]; omega)]
  simp only [Option.bind_eq_bind, size, tail, ha, hr, hf, Option.bind_some]
  rcases ho : lib.decrypt key nonce c with _ | m
  · rfl
  · have hl := lib.length_encrypt key nonce m
    rw [(lib.decrypt_iff key nonce c m).mp ho] at hl
    simp only
    rw [write_front (by rw [length_replicate]; omega), Option.map_some, resize_front]
    rfl

theorem decryptWithSymmetric_short {data : DataBuffer}
    (hs : data.length ≤ encryptOverhead lib) : decryptWithSymmetric lib key data = some [] :=
  if_pos (by rw [encryptOverhead] at hs; omega)

end

/-- Every message comes back, also the empty one, whose ciphertext is taken for one that is too
short; and every buffer is dealt with inside its bounds. -/
theorem decrypt_encrypt_and_total :
    (∀ nonce m, ∃ c, encryptWithSymmetric lib key nonce m = some c ∧
      c.length = m.length + encryptOverhead lib ∧ decryptWithSymmetric lib key c = some m) ∧
    ∀ data, ∃ m, decryptWithSymmetric lib key data = some m ∧
      (data.length ≤ encryptOverhead lib ∨
        lib.decrypt key (data.drop (data.length - lib.nonceSize))
          (data.take (data.length - lib.nonceSize)) = none → m = []) := by
  constructor
  · intro nonce m
    have hl := lib.length_encrypt key nonce.1 m
    refine ⟨_, encryptWithSymmetric_eq nonce m, ?_, ?_⟩
    · rw [length_append, hl, nonce.2, encryptOverhead, Nat.add_assoc]
    · rcases m with _ | ⟨b, rest⟩
      · refine decryptWithSymmetric_short ?_
        rw [length_append, hl, nonce.2, encryptOverhead]
        simp
      · rw [decryptWithSymmetric_append lib key _ _ nonce.2 (by rw [hl, length_cons]; omega),
          (lib.decrypt_iff key nonce.1 _ _).mpr rfl]
        rfl
  · intro data
    by_cases short : data.length ≤ encryptOverhead lib
    · exact ⟨[], decryptWithSymmetric_short short, fun _ => rfl⟩
    · rw [encryptOverhead] at short
      have hw := decryptWithSymmetric_append lib key (data.take (data.length - lib.nonceSize))
        (data.drop (data.length - lib.nonceSize)) (by rw [length_drop]; omega)
        (by rw [length_take]; omega)
      rw [take_append_drop] at hw
      refine ⟨_, hw, fun hr => ?_⟩
      rw [hr.resolve_left (by rw [encryptOverhead]; omega)]
      rfl

def marked : Aead Unit where
  aBytes := 1
  nonceSize := 2
  encrypt _ _ m := 7 :: m
  decrypt _ _ c := if c.head? = some 7 then some c.tail else none
  length_encrypt _ _ _ := rfl
  decrypt_iff _ _ c m := by
    cases c with
    | nil => simp
    | cons b rest =>
      simp only [head?_cons, Option.some.injEq, tail_cons, cons.injEq]
      split
      · rename_i same
        simp [same, eq_comm]
      · rename_i other
        simp [Ne.symm other]

theorem decrypt_encrypt_marked : ∃ c, encryptWithSymmetric marked () ⟨[1, 2], rfl⟩ [3, 4] = some c ∧
    c.length = 5 ∧ decryptWithSymmetric marked () c = some [3, 4] :=
  (decrypt_encrypt_and_total marked ()).1 ⟨[1, 2], rfl⟩ [3, 4]

end Ae.Crypto.SyncProvider
