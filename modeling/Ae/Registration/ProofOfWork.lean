/- source: registration/proof_of_work.cpp
   digest: The search for passwords with a small hash finds the first ones. -/

import Ae.SerialPorts.AtSupport

set_option autoImplicit false

namespace Ae.Registration.ProofOfWork
open List SerialPorts.AtBuffer SerialPorts.AtSupport

structure Password where
  val : List UInt8
  size : val.length = 4

def countUp : List UInt8 → List UInt8
  | [] => []
  | v :: rest => if v < 255 then (v + 1) :: rest else 0 :: countUp rest

def value : List UInt8 → Nat
  | [] => 0
  | v :: rest => v.toNat + 256 * value rest

theorem length_countUp (val : List UInt8) : (countUp val).length = val.length := by
  induction val with
  | nil => rfl
  | cons v rest ih =>
    rw [countUp]
    split
    · rfl
    · rw [length_cons, ih, length_cons]

theorem value_countUp {val : List UInt8} (hm : value val + 1 < 256 ^ val.length) :
    value (countUp val) = value val + 1 := by
  induction val with
  | nil => simp [value] at hm
  | cons v rest ih =>
    rw [countUp]
    split
    · rename_i hl
      have hn : (v + 1).toNat = v.toNat + 1 := by
        rw [UInt8.lt_iff_toNat_lt] at hl
        rw [UInt8.toNat_add]
        exact Nat.mod_eq_of_lt (by simp at hl ⊢; omega)
      rw [value, value, hn]
      omega
    · rename_i hf
      have hf : v.toNat = 255 := by
        rw [UInt8.lt_iff_toNat_lt] at hf
        have := v.toNat_lt
        simp at hf
        omega
      rw [value, length_cons, pow_succ] at hm
      rw [value, value, ih (by omega), hf]
      show 0 + _ = _
      omega

namespace Password

def zero : Password := ⟨[0, 0, 0, 0], rfl⟩

def get (pass : Password) : Nat := value pass.val

def increment (pass : Password) : Password :=
  ⟨countUp pass.val, (length_countUp pass.val).trans pass.size⟩

theorem get_increment (pass : Password) (hm : pass.get + 1 < 2 ^ 32) :
    pass.increment.get = pass.get + 1 :=
  value_countUp (by rw [pass.size]; exact hm)

end Password

section

-- Whether the hash of the password made from a value is small enough; `none` is a failed
-- assertion.
variable (accepts : Nat → Option Bool)

/-- The inner loop of `ComputeProofOfWork`, with a history of the values it hashed. After `2 ^ 32`
rounds it has seen every value, and does not end any more. -/
def search : Nat → Password → List Nat → Option (Password × List Nat)
  | 0, _, _ => none
  | fuel + 1, pass, hashed =>
    match accepts pass.increment.get with
    | none => none
    | some true => some (pass.increment, hashed ++ [pass.increment.get])
    | some false => search fuel pass.increment (hashed ++ [pass.increment.get])

def fill : Nat → Password → List Nat → Option (List Nat × List Nat)
  | 0, _, hashed => some ([], hashed)
  | left + 1, pass, hashed => do
    let (pass, hashed) ← search accepts (2 ^ 32) pass hashed
    let (result, hashed) ← fill left pass hashed
    some (pass.get :: result, hashed)

end

section

-- The crc32 of the bcrypt hash of a password under a salt.
variable (bcryptCrc : Line → Line → UInt32)

def computePassword (val : Nat) (suffix : Line) : Line := digits val ++ suffix

def computeHash (pass salt : Line) : Option UInt32 :=
  if pass.length ≤ 72 then some (bcryptCrc pass salt) else none

/-- A value whose password fails the assertion on its length is not accepted. -/
def accepts (salt suffix : Line) (maxHashValue : UInt32) (val : Nat) : Option Bool :=
  (computeHash bcryptCrc (computePassword val suffix) salt).map fun res => res ≤ maxHashValue

def computeProofOfWork (poolSize : UInt8) (salt suffix : Line) (maxHashValue : UInt32) :
    Option (List Nat × List Nat) :=
  fill (accepts bcryptCrc salt suffix maxHashValue) poolSize.toNat .zero []

end

section

variable {accepts : Nat → Option Bool}

def accepted (accepts : Nat → Option Bool) (n : Nat) : List Nat :=
  (range' (n + 1) (2 ^ 32 - 1 - n)).filter fun v => accepts v = some true

theorem accepted_cons {n : Nat} (hm : n + 1 < 2 ^ 32) : accepted accepts n =
    if accepts (n + 1) = some true then (n + 1) :: accepted accepts (n + 1)
    else accepted accepts (n + 1) := by
  have hl : 2 ^ 32 - 1 - n = 2 ^ 32 - 1 - (n + 1) + 1 := by omega
  rw [accepted, hl, range'_succ, filter_cons]
  simp only [decide_eq_true_eq]
  rfl

theorem lt_of_mem_accepted {n v : Nat} (hm : v ∈ accepted accepts n) :
    n < v ∧ v < 2 ^ 32 ∧ accepts v = some true := by
  obtain ⟨hi, hs⟩ := mem_filter.mp hm
  obtain ⟨ha, hb⟩ := mem_range'_1.mp hi
  exact ⟨ha, by omega, of_decide_eq_true hs⟩

-- A password is not shorter than that of a smaller value.
variable (steady : ∀ w v, w ≤ v → accepts v ≠ none → accepts w ≠ none)
include steady

theorem search_eq (fuel : Nat) (pass : Password) (h : List Nat) {v : Nat} {rest : List Nat}
    (h1 : accepted accepts pass.get = v :: rest) (he : v - pass.get ≤ fuel) :
    ∃ f new, search accepts fuel pass h = some (f, h ++ new) ∧
      f.get = v ∧ accepted accepts v = rest ∧ ∀ w ∈ new, w ≤ v := by
  obtain ⟨hab, hb, hsm⟩ := lt_of_mem_accepted (h1 ▸ mem_cons_self)
  induction fuel generalizing pass h with
  | zero => omega
  | succ fuel ih =>
    have hn := Password.get_increment pass (by omega)
    rw [accepted_cons (by omega)] at h1
    rw [search, hn]
    rcases ht : accepts (pass.get + 1) with _ | _ | _
    · exact absurd ht (steady _ v (by omega) (by rw [hsm]; nofun))
    · rw [ht, if_neg (by decide)] at h1
      have ho : pass.get + 1 ≠ v := by
        rintro rfl
        rw [hsm] at ht
        cases ht
      obtain ⟨f, new, hs, hav, ha, hl⟩ := ih pass.increment
        (h ++ [pass.get + 1]) (by rw [hn]; exact h1) (by omega) (by omega)
      refine ⟨f, (pass.get + 1) :: new, ?_, hav, ha, forall_mem_cons.mpr ⟨hab, hl⟩⟩
      simp only [hs, append_assoc, singleton_append]
    · rw [ht, if_pos rfl] at h1
      obtain ⟨rfl, rfl⟩ := cons.inj h1
      exact ⟨pass.increment, [pass.get + 1], rfl, hn, rfl, by simp⟩

theorem fill_eq (left : Nat) (pass : Password) (h : List Nat)
    (he : left ≤ (accepted accepts pass.get).length) :
    ∃ new, fill accepts left pass h =
        some ((accepted accepts pass.get).take left, h ++ new) ∧
      ∀ w ∈ new, ∃ v ∈ (accepted accepts pass.get).take left, w ≤ v := by
  induction left generalizing pass h with
  | zero => exact ⟨[], by rw [fill, take_zero, append_nil], by simp⟩
  | succ left ih =>
    rcases h1 : accepted accepts pass.get with _ | ⟨v, rest⟩
    · rw [h1] at he
      simp at he
    · have hi := lt_of_mem_accepted (h1 ▸ mem_cons_self)
      obtain ⟨f, new, hs, rfl, ha, hls⟩ := search_eq steady (2 ^ 32) pass
        h h1 (by omega)
      rw [h1, length_cons, ← ha] at he
      obtain ⟨new', hf, hl⟩ := ih f (h ++ new) (by omega)
      rw [ha] at hf hl
      refine ⟨new ++ new', ?_, fun w hm => ?_⟩
      · simp only [fill, hs, hf, Option.bind_eq_bind, Option.bind_some, take_succ_cons,
          append_assoc]
      · rw [take_succ_cons]
        rcases mem_append.mp hm with hh | there
        · exact ⟨_, mem_cons_self, hls w hh⟩
        · obtain ⟨v, ham, le⟩ := hl w there
          exact ⟨v, mem_cons_of_mem _ ham, le⟩

end

theorem length_digits_mono {m n : Nat} (le : m ≤ n) : (digits m).length ≤ (digits n).length := by
  rw [digits, digits, length_map, length_map]
  refine (Nat.length_toDigits_le_iff (by decide) Nat.length_toDigits_pos).mpr ?_
  exact lt_of_le_of_lt le
    ((Nat.length_toDigits_le_iff (by decide) Nat.length_toDigits_pos).mp le_rfl)

/-- Where there are enough values whose hash is small, the smallest of them are returned in
increasing order, and no value above them is hashed. -/
theorem computeProofOfWork_smallest (bcryptCrc : Line → Line → UInt32) (poolSize : UInt8)
    (salt suffix : Line) (maxHashValue : UInt32)
    (enough : poolSize.toNat ≤ (accepted (accepts bcryptCrc salt suffix maxHashValue) 0).length) :
    ∃ result hashed,
      computeProofOfWork bcryptCrc poolSize salt suffix maxHashValue = some (result, hashed) ∧
      result = (accepted (accepts bcryptCrc salt suffix maxHashValue) 0).take poolSize.toNat ∧
      ∀ w ∈ hashed, ∃ v ∈ result, w ≤ v := by
  have steady : ∀ w v, w ≤ v → accepts bcryptCrc salt suffix maxHashValue v ≠ none →
      accepts bcryptCrc salt suffix maxHashValue w ≠ none := by
    intro w v le
    have hs := length_digits_mono le
    simp only [accepts, computeHash, computePassword, length_append, ne_eq, Option.map_eq_none_iff,
      ite_eq_right_iff, reduceCtorEq, imp_false, not_not]
    omega
  obtain ⟨hashed, hf, hl⟩ := fill_eq steady _ .zero [] enough
  exact ⟨_, hashed, hf, rfl, hl⟩

theorem computeProofOfWork_smallest_constant :
    ∃ result hashed, computeProofOfWork (fun _ _ => 0) 2 [] [] 5 = some (result, hashed) ∧
      result = (accepted (accepts (fun _ _ => 0) [] [] 5) 0).take 2 ∧
      ∀ w ∈ hashed, ∃ v ∈ result, w ≤ v := by
  refine computeProofOfWork_smallest (fun _ _ => 0) 2 [] [] 5 ?_
  have ho : accepts (fun _ _ => 0) [] [] 5 1 = some true := by decide
  have ht : accepts (fun _ _ => 0) [] [] 5 2 = some true := by decide
  rw [accepted_cons (by decide), if_pos ho, accepted_cons (by decide), if_pos ht,
    length_cons, length_cons]
  have ht : UInt8.toNat 2 = 2 := rfl
  omega

end Ae.Registration.ProofOfWork
