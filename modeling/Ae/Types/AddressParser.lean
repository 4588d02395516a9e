/- source: types/{address_parser,address,literal_array}.h
   digest: Which texts are taken for addresses, and when the scan of one stays in bounds. -/

import Ae.SerialPorts.AtSupport

set_option autoImplicit false

namespace Ae.Types.AddressParser
open List SerialPorts.AtBuffer
open SerialPorts.AtSupport (isDigit decimal digits mem_digits decimal_digits)

abbrev IpV4Addr := Fin 4 → UInt8

abbrev IpV6Addr := Fin 16 → UInt8

inductive ParsedAddress where
  | ipV4 (a : IpV4Addr)
  | ipV6 (a : IpV6Addr)
  | named (name : Line)

def scanTriplets (a : IpV4Addr) (i : Fin 4) : Line → Option IpV4Addr
  | [] => some a
  | c :: rest =>
    if c = 10 then some a
    else if c = 46 then
      if more : i.val + 1 < 4 then scanTriplets a ⟨i + 1, more⟩ rest else none
    else if isDigit c then scanTriplets (Function.update a i (a i * 10 + (c - 48))) i rest
    else none

def ipV4Parse (addr : Line) : Option IpV4Addr :=
  scanTriplets (fun _ => 0) ⟨0, Nat.zero_lt_succ 3⟩ addr

def isXDigit (c : UInt8) : Bool := isDigit c || (97 ≤ c && c ≤ 102) || (65 ≤ c && c ≤ 70)

def fromHex (c : UInt8) : Nat :=
  if isDigit c then c.toNat - 48
  else if 97 ≤ c ∧ c ≤ 102 then c.toNat - 97 + 10
  else if 65 ≤ c ∧ c ≤ 70 then c.toNat - 65 + 10
  else 0

/-- The inner loop of `IpV6Parse`: the value of a group of at most `left` digits, and the text
behind it. -/
def segment : (left value : Nat) → Line → Option (Nat × Line)
  | 0, value, rest => some (value, rest)
  | _ + 1, value, [] => some (value, [])
  | left + 1, value, c :: rest =>
    if c = 58 ∨ c = 10 then some (value, c :: rest)
    else if isXDigit c then segment left ((value <<< 4) % 2 ^ 16 ||| fromHex c) rest
    else none

/-- What one pass of the outer loop takes from the text; `bad` is a group that ends in a character
which is no digit. -/
inductive Token where
  | group (value : Nat)
  | colon
  | double
  | bad
deriving DecidableEq

theorem segment_length {l va v : Nat} {s rest : Line}
    (h : segment l va s = some (v, rest)) : rest.length ≤ s.length := by
  induction s generalizing l va with
  | nil => cases l <;> cases h <;> exact le_rfl
  | cons c s ih =>
    cases l with
    | zero => cases h; exact le_rfl
    | succ l =>
      rw [segment] at h
      split_ifs at h
      · cases h; exact le_rfl
      · exact Nat.le_succ_of_le (ih h)

def tokens : Line → List Token
  | [] => []
  | c :: rest =>
    if c = 10 then []
    else if c = 58 then
      if rest.head? = some 58 then .double :: tokens rest.tail else .colon :: tokens rest
    else match _ : segment 4 0 (c :: rest) with
      | none => [.bad]
      | some (v, behind) => .group v :: tokens behind
termination_by s => s.length
decreasing_by
  · rw [length_tail]
    exact Nat.lt_succ_of_le (Nat.sub_le _ _)
  · exact Nat.lt_succ_self _
  · rename_i line colon found
    rw [segment, if_neg (not_or.mpr ⟨colon, line⟩)] at found
    split_ifs at found
    exact Nat.lt_succ_of_le (segment_length found)

structure Scan where
  segments : List Nat
  segIndex : Nat
  compressPos : Option Nat

inductive Stop where
  | refused
  | outOfBounds
deriving DecidableEq

def store (segments : List Nat) (i value : Nat) : Except Stop (List Nat) :=
  if i < segments.length then .ok (segments.set i value) else .error .outOfBounds

def Scan.step (s : Scan) (t : Token) : Except Stop Scan :=
  if 8 < s.segIndex then .error .refused
  else match t with
    | .double =>
      if s.compressPos.isSome then .error .refused
      else .ok { s with compressPos := some s.segIndex }
    | .colon => if s.segIndex = 0 then .error .refused else .ok s
    | .group v =>
      (store s.segments s.segIndex v).map fun l => ⟨l, s.segIndex + 1, s.compressPos⟩
    | .bad => .error .refused

/-- The loop that shifts the groups behind the compression, from `j` down. What it reads it
overwrites next, so the stores check all its accesses. -/
def shiftSegments (shift pos : Nat) : Nat → List Nat → Except Stop (List Nat)
  | 0, segments => .ok segments
  | j + 1, segments =>
    if j + 1 ≤ pos then .ok segments
    else if 8 ≤ j ∨ 8 ≤ j + shift then .error .refused
    else
      (store segments (j + shift) (segments.getD j 0)).bind fun moved =>
        (store moved j 0).bind (shiftSegments shift pos j)

def Scan.compress (s : Scan) : Except Stop (List Nat) :=
  match s.compressPos with
  | none => .ok s.segments
  | some pos =>
    let shift := (2 ^ 64 + 8 - s.segIndex + if pos < s.segIndex then 0 else 1) % 2 ^ 64
    shiftSegments shift pos s.segIndex s.segments

def scan (ts : List Token) : Except Stop Scan := ts.foldlM Scan.step ⟨replicate 8 0, 0, none⟩

def ipV6Parse (addr : Line) : Except Stop IpV6Addr :=
  (scan (tokens addr)).bind fun s => s.compress.map fun segments i =>
    UInt8.ofNat (segments.getD (i / 2) 0 >>> ((1 - i.val % 2) * 8))

def stringToAddress (addr : Line) : Option ParsedAddress :=
  match ipV4Parse addr, ipV6Parse addr with
  | some a, _ => some (.ipV4 a)
  | none, .ok a => some (.ipV6 a)
  | none, .error .refused => some (.named addr)
  | none, .error .outOfBounds => none

section

def groups (ts : List Token) : List Nat :=
  ts.filterMap fun
    | .group v => some v
    | _ => none

def Flaw (before : List Token) : Token → Prop
  | .group _ => False
  | .colon => groups before = []
  | .double => .double ∈ before
  | .bad => True

def Refused (ts : List Token) : Prop :=
  ∃ before t, before ++ [t] <+: ts ∧ (groups before).length ≤ 8 ∧ Flaw before t

def position (ts : List Token) : Option Nat :=
  if .double ∈ ts then some (groups (ts.take (ts.idxOf .double))).length else none

def scanned (ts : List Token) : Scan :=
  ⟨groups ts ++ replicate (8 - (groups ts).length) 0, (groups ts).length, position ts⟩

variable {ts : List Token} {t : Token}

theorem groups_append (us : List Token) : groups (ts ++ us) = groups ts ++ groups us :=
  filterMap_append

theorem refused_concat : Refused (ts ++ [t]) ↔ Refused ts ∨ (groups ts).length ≤ 8 ∧ Flaw ts t := by
  constructor
  · rintro ⟨b, u, part, few, hf⟩
    rcases prefix_concat_iff.mp part with hw | part
    · obtain ⟨rfl, he⟩ := append_inj' hw rfl
      cases he
      exact .inr ⟨few, hf⟩
    · exact .inl ⟨b, u, part, few, hf⟩
  · rintro (⟨b, u, part, few, hf⟩ | ⟨few, hf⟩)
    · exact ⟨b, u, part.trans (prefix_append _ _), few, hf⟩
    · exact ⟨ts, t, prefix_rfl, few, hf⟩

theorem position_append (us : List Token) (ha : .double ∉ ts) :
    position (ts ++ .double :: us) = some (groups ts).length := by
  rw [position, if_pos (by simp), idxOf_append_of_notMem ha, idxOf_cons_self, add_zero, take_left]

theorem position_concat (hn : t ≠ .double) : position (ts ++ [t]) = position ts := by
  have he : Token.double ∈ ts ++ [t] ↔ .double ∈ ts := by simp [hn.symm]
  rw [position, position, if_congr he rfl rfl]
  split_ifs with ht
  · rw [idxOf_append_of_mem ht, take_append_of_le_length (idxOf_lt_length_of_mem ht).le]
  · rfl

theorem step_flaw (few : (groups ts).length ≤ 8) (hf : Flaw ts t) :
    (scanned ts).step t = .error .refused := by
  have hm : ¬ 8 < (scanned ts).segIndex := Nat.not_lt.mpr few
  cases t with
  | group v => cases hf
  | colon => exact (if_neg hm).trans (if_pos (congrArg length hf))
  | double =>
    refine (if_neg hm).trans (if_pos ?_)
    simp [scanned, position, show Token.double ∈ ts from hf]
  | bad => exact if_neg hm

theorem step_ninth {v : Nat} (hf : (groups ts).length = 8) :
    (scanned ts).step (.group v) = .error .outOfBounds := by
  simp [Scan.step, scanned, store, hf, Except.map]

theorem step_ok (hs : ¬ Flaw ts t) (hf : (groups (ts ++ [t])).length ≤ 8) :
    (scanned ts).step t = .ok (scanned (ts ++ [t])) := by
  rw [groups_append, length_append] at hf
  have hm : ¬ 8 < (scanned ts).segIndex := by
    show ¬ 8 < (groups ts).length
    omega
  refine (if_neg hm).trans ?_
  cases t with
  | group v =>
    have hf : (groups ts).length < 8 := hf
    have hlf : 8 - (groups ts).length = 8 - ((groups ts).length + 1) + 1 := by omega
    have hl : groups (ts ++ [.group v]) = groups ts ++ [v] := groups_append _
    have hi : (groups ts).length < (groups ts ++ replicate (8 - (groups ts).length) 0).length := by
      rw [length_append, length_replicate]
      omega
    dsimp only [scanned]
    rw [store, if_pos hi, hlf, replicate_succ, set_append_right _ _ (Nat.le_refl _),
      Nat.sub_self, set_cons_zero, hl, position_concat (t := .group v) nofun]
    simp [Except.map]
  | colon =>
    have he : groups (ts ++ [.colon]) = groups ts := by simp [groups]
    dsimp only [scanned]
    rw [position_concat (t := .colon) nofun, he]
    exact if_neg fun none => hs (length_eq_zero_iff.mp none)
  | double =>
    have ha : Token.double ∉ ts := hs
    have he : groups (ts ++ [.double]) = groups ts := by simp [groups]
    have none : position ts = none := if_neg ha
    dsimp only [scanned]
    rw [position_append [] ha, he]
    exact if_neg (by simp [none])
  | bad => exact absurd trivial hs

theorem scan_concat : scan (ts ++ [t]) = (scan ts).bind (·.step t) := by
  rw [scan, foldlM_append]
  exact bind_congr fun s => by simp

/-- The scan refuses a text with a flaw before a ninth group. Otherwise a ninth group is stored
out of bounds. -/
theorem scan_eq (ts : List Token) : (Refused ts → scan ts = .error .refused) ∧
    (¬ Refused ts → (groups ts).length ≤ 8 → scan ts = .ok (scanned ts)) ∧
    (¬ Refused ts → 8 < (groups ts).length → scan ts = .error .outOfBounds) := by
  induction ts using reverseRecOn with
  | nil =>
    refine ⟨fun ⟨b, t, hp, _⟩ => ?_, fun _ _ => rfl, fun _ hm => ?_⟩
    · simp at hp
    · cases hm
  | append_singleton ts t ih =>
    obtain ⟨hr, ok, ho⟩ := ih
    rw [scan_concat, refused_concat]
    by_cases hf : Refused ts
    · rw [hr hf]
      exact ⟨fun _ => rfl, fun hs => absurd (.inl hf) hs, fun hs => absurd (.inl hf) hs⟩
    rcases lt_or_ge 8 (groups ts).length with hm | few
    · rw [ho hf hm]
      have hl : 8 < (groups (ts ++ [t])).length := by
        rw [groups_append, length_append]
        omega
      refine ⟨fun hlt => ?_, fun _ hls => absurd hl (Nat.not_lt.mpr hls), fun _ _ => rfl⟩
      rcases hlt with he | ⟨hls, -⟩
      · exact absurd he hf
      · exact absurd hm (Nat.not_lt.mpr hls)
    · rw [ok hf few]
      refine ⟨fun hlt => step_flaw few (hlt.resolve_left hf).2, fun hs hls => ?_, fun hs hl => ?_⟩
      · exact step_ok (fun hfl => hs (.inr ⟨few, hfl⟩)) hls
      · rw [groups_append, length_append] at hl
        cases t with
        | group v =>
          have hl : 8 < (groups ts).length + 1 := hl
          exact step_ninth (by omega)
        | colon | double | bad => exact absurd hl (Nat.not_lt.mpr few)

theorem shiftSegments_ok {sh pos j : Nat} {l : List Nat} (hs : l.length = 8)
    (hr : j + sh ≤ 8) : ∃ l', shiftSegments sh pos j l = .ok l' := by
  induction j generalizing l with
  | zero => exact ⟨l, rfl⟩
  | succ j ih =>
    rw [shiftSegments]
    split_ifs with hd hw
    · exact ⟨l, rfl⟩
    · omega
    · rw [store, if_pos (by omega)]
      show ∃ l', (store _ j 0).bind _ = _
      rw [store, if_pos (by rw [length_set]; omega)]
      exact ih (by rw [length_set, length_set, hs]) (by omega)

theorem shiftSegments_eq (a b c : List Nat) {k : Nat}
    (hsz : a.length + b.length + (k + 1) + c.length = 8) :
    shiftSegments (k + 1) a.length (a.length + b.length)
        (a ++ b ++ (replicate (k + 1) 0 ++ c)) = .ok (a ++ replicate (k + 1) 0 ++ b ++ c) := by
  induction b using reverseRecOn generalizing c with
  | nil =>
    cases a with
    | nil => simp [shiftSegments]
    | cons x a => simp [shiftSegments]
  | append_singleton b x ih =>
    rw [length_append, length_singleton] at hsz
    have hs : a ++ (b ++ [x]) ++ (replicate (k + 1) 0 ++ c) =
        a ++ b ++ x :: (replicate k 0 ++ 0 :: c) := by
      simp [replicate_succ']
    have moved : store (a ++ b ++ x :: (replicate k 0 ++ 0 :: c)) (a.length + b.length + (k + 1))
        x = .ok (a ++ b ++ x :: (replicate k 0 ++ x :: c)) := by
      rw [store, if_pos (by simp; omega), ← length_append, set_append_right _ _ (by omega)]
      simp
    have hc : store (a ++ b ++ x :: (replicate k 0 ++ x :: c)) (a.length + b.length) 0 =
        .ok (a ++ b ++ (replicate (k + 1) 0 ++ x :: c)) := by
      rw [store, if_pos (by simp), ← length_append, set_append_right _ _ le_rfl]
      simp [replicate_succ]
    have hr : (a ++ b ++ x :: (replicate k 0 ++ 0 :: c)).getD (a.length + b.length) 0 = x := by
      rw [← length_append]
      simp
    rw [length_append, length_singleton, ← add_assoc, shiftSegments, if_neg (by omega),
      if_neg (by omega), hs, hr, moved]
    show (store _ _ 0).bind _ = _
    rw [hc]
    refine (ih (x :: c) (by rw [length_cons]; omega)).trans ?_
    simp

theorem compress_ok (hf : (groups ts).length ≤ 8) : ∃ l, (scanned ts).compress = .ok l := by
  rw [Scan.compress]
  cases place : (scanned ts).compressPos with
  | none => exact ⟨_, rfl⟩
  | some pos =>
    dsimp only
    have ht : (scanned ts).segIndex = (groups ts).length := rfl
    rw [ht]
    split_ifs with hb
    · refine shiftSegments_ok ?_ (by omega)
      simp [scanned]
      omega
    · cases size : (groups ts).length with
      | zero => exact ⟨_, rfl⟩
      | succ n => exact ⟨_, by rw [shiftSegments, if_pos (by omega)]⟩

/-- The parser refuses a text with a flaw before a ninth group, and stores a ninth group out of
bounds otherwise. -/
theorem ipV6Parse_spec (s : Line) : (Refused (tokens s) → ipV6Parse s = .error .refused) ∧
    (¬ Refused (tokens s) → (groups (tokens s)).length ≤ 8 → ∃ a, ipV6Parse s = .ok a) ∧
    (¬ Refused (tokens s) → 8 < (groups (tokens s)).length →
      ipV6Parse s = .error .outOfBounds) := by
  obtain ⟨hr, ok, ho⟩ := scan_eq (tokens s)
  refine ⟨fun hfl => ?_, fun hs hf => ?_, fun hs hm => ?_⟩
  · rw [ipV6Parse, hr hfl]
    rfl
  · obtain ⟨l, run⟩ := compress_ok hf
    rw [ipV6Parse, ok hs hf, Except.bind, run]
    exact ⟨_, rfl⟩
  · rw [ipV6Parse, ho hs hm]
    rfl

/-- The scan stays in bounds exactly when a text has at most eight groups or is refused before
the ninth. -/
theorem scan_in_bounds_iff (addr : Line) : ipV6Parse addr ≠ .error .outOfBounds ↔
    Refused (tokens addr) ∨ (groups (tokens addr)).length ≤ 8 := by
  obtain ⟨hr, ok, ho⟩ := ipV6Parse_spec addr
  by_cases flawed : Refused (tokens addr)
  · simp [hr flawed, flawed]
  rcases lt_or_ge 8 (groups (tokens addr)).length with hm | few
  · simp [ho flawed hm, flawed, hm]
  · obtain ⟨a, run⟩ := ok flawed few
    simp [run, few]

end

section

def HexGroup (g : Line) : Prop := g ≠ [] ∧ g.length ≤ 4 ∧ ∀ c ∈ g, isXDigit c

def hexadecimal (g : Line) : Nat := g.foldl (fun n c => 16 * n + fromHex c) 0

def DenotesIpV4 (s : Line) (a : IpV4Addr) : Prop :=
  ∃ n : Fin 4 → Line, (∀ i, n i ≠ [] ∧ (∀ c ∈ n i, isDigit c) ∧ decimal (n i) ≤ 255) ∧
    s = [46].intercalate (ofFn n) ∧ ∀ i, (a i).toNat = decimal (n i)

def Bytes (l : List Nat) (a : IpV6Addr) : Prop :=
  ∀ i : Fin 16, (a i).toNat = l.getD (i / 2) 0 / 256 ^ (1 - i.val % 2) % 256

/-- Eight groups, or fewer with a double colon for those that are left out, and their bytes. -/
def DenotesIpV6 (s : Line) (a : IpV6Addr) : Prop :=
  ∃ l r : List Line, (∀ g ∈ l ++ r, HexGroup g) ∧ (s = [58].intercalate l ∧ l.length = 8 ∧ r = [] ∨
      s = [58].intercalate l ++ 58 :: 58 :: [58].intercalate r ∧ l.length + r.length < 8) ∧
    Bytes (l.map hexadecimal ++ replicate (8 - l.length - r.length) 0 ++ r.map hexadecimal) a

variable {s rest g : Line} {gs : List Line}

theorem ne_of_isXDigit {c : UInt8} (hd : isXDigit c) : ¬ (c = 58 ∨ c = 10) := by
  rintro (rfl | rfl) <;> exact absurd hd (by decide)

theorem fromHex_lt (c : UInt8) : fromHex c < 16 := by
  rw [fromHex]
  split_ifs with hd hl hu
  · have : c.toNat ≤ 57 := of_decide_eq_true (Bool.and_eq_true_iff.mp hd).2
    omega
  · have : c.toNat ≤ 102 := hl.2
    omega
  · have : c.toNat ≤ 70 := hu.2
    omega
  · exact Nat.succ_pos _

theorem segment_append {l v k : Nat} (hsm : v < 16 ^ k) (ha : k + l = 4)
    (hs : g.length ≤ l) (hex : ∀ c ∈ g, isXDigit c)
    (he : rest = [] ∨ ∃ s, rest = 58 :: s) : segment l v (g ++ rest) =
      some (g.foldl (fun n c => 16 * n + fromHex c) v, rest) := by
  induction g generalizing l v k with
  | nil =>
    cases l with
    | zero => rfl
    | succ l => rcases he with rfl | ⟨s, rfl⟩ <;> rfl
  | cons c g ih =>
    cases l with
    | zero => cases hs
    | succ l =>
      obtain ⟨hd, hdg⟩ := forall_mem_cons.mp hex
      have hl : 16 ^ k ≤ 16 ^ 3 := Nat.pow_le_pow_right (by decide) (by omega)
      have hs' : v < 4096 := hsm.trans_le hl
      have hst : (v <<< 4) % 2 ^ 16 ||| fromHex c = 16 * v + fromHex c := by
        have hf : v <<< 4 < 2 ^ 16 := by
          rw [Nat.shiftLeft_eq]
          omega
        rw [Nat.mod_eq_of_lt hf, ← Nat.shiftLeft_add_eq_or_of_lt (fromHex_lt c), Nat.shiftLeft_eq]
        omega
      rw [cons_append, segment, if_neg (ne_of_isXDigit hd), if_pos hd, hst]
      refine ih (k := k + 1) ?_ (by omega) (Nat.le_of_succ_le_succ hs) hdg
      have := fromHex_lt c
      rw [Nat.pow_succ]
      omega

theorem tokens_group (hg : HexGroup g) (hen : rest = [] ∨ ∃ s, rest = 58 :: s) :
    tokens (g ++ rest) = .group (hexadecimal g) :: tokens rest := by
  obtain ⟨hsm, hs, he⟩ := hg
  have hf := segment_append (k := 0) Nat.one_pos rfl hs he hen
  obtain ⟨c, g, rfl⟩ := exists_cons_of_ne_nil hsm
  have hn := not_or.mp (ne_of_isXDigit (he c mem_cons_self))
  rw [cons_append] at hf ⊢
  rw [tokens, if_neg hn.2, if_neg hn.1]
  split
  · rename_i missing
    cases missing.symm.trans hf
  · rename_i v b ht
    cases ht.symm.trans hf
    rfl

theorem tokens_colon (hn : s.head? ≠ some 58) : tokens (58 :: s) = .colon :: tokens s := by
  rw [tokens, if_neg (by decide), if_pos rfl, if_neg hn]

theorem tokens_double : tokens (58 :: 58 :: s) = .double :: tokens s := by
  rw [tokens, if_neg (by decide), if_pos rfl]
  rfl

def spelled : List Line → List Token
  | [] => []
  | [g] => [.group (hexadecimal g)]
  | g :: gs => .group (hexadecimal g) :: .colon :: spelled gs

theorem tokens_intercalate (ends : rest = [] ∨ ∃ s, rest = 58 :: s) : (gs : List Line) →
    (∀ g ∈ gs, HexGroup g) → tokens ([58].intercalate gs ++ rest) = spelled gs ++ tokens rest
  | [], _ => rfl
  | [g], hex => by
    rw [intercalate_singleton]
    exact tokens_group (hex g mem_cons_self) ends
  | g :: h :: gs, hex => by
    obtain ⟨first, later⟩ := forall_mem_cons.mp hex
    have start : ([58].intercalate (h :: gs) ++ rest).head? ≠ some 58 := by
      obtain ⟨some, -, hex⟩ := later h mem_cons_self
      obtain ⟨c, h, rfl⟩ := exists_cons_of_ne_nil some
      have other := (not_or.mp (ne_of_isXDigit (hex c mem_cons_self))).1
      cases gs <;> simpa using other
    have split : [58].intercalate (g :: h :: gs) ++ rest =
        g ++ 58 :: ([58].intercalate (h :: gs) ++ rest) := by
      simp
    rw [split, tokens_group first (.inr ⟨_, rfl⟩), tokens_colon start,
      tokens_intercalate ends (h :: gs) later]
    rfl

theorem groups_spelled : (gs : List Line) → groups (spelled gs) = gs.map hexadecimal
  | [] => rfl
  | [_] => rfl
  | g :: h :: gs => congrArg (hexadecimal g :: ·) (groups_spelled (h :: gs))

theorem mem_spelled {t : Token} : (gs : List Line) → t ∈ spelled gs → t ≠ .bad ∧ t ≠ .double
  | [_], there => by
    cases mem_singleton.mp there
    exact ⟨nofun, nofun⟩
  | _ :: h :: gs, there => by
    rcases mem_cons.mp there with rfl | there
    · exact ⟨nofun, nofun⟩
    rcases mem_cons.mp there with rfl | there
    · exact ⟨nofun, nofun⟩
    · exact mem_spelled (h :: gs) there

theorem spelled_cons (g : Line) (gs : List Line) :
    ∃ ts, spelled (g :: gs) = .group (hexadecimal g) :: ts := by
  cases gs <;> exact ⟨_, rfl⟩

theorem not_refused {ts : List Token} (bad : .bad ∉ ts) (double : ts.count .double ≤ 1)
    (colon : .colon ∉ ts ∨ ∃ u v w, ts = u ++ .group v :: w ∧ .colon ∉ u) : ¬ Refused ts := by
  rintro ⟨before, t, hp, -, hf⟩
  have ht : t ∈ ts := hp.subset (mem_append_right _ (mem_singleton_self t))
  cases t with
  | group v => cases hf
  | bad => exact bad ht
  | double =>
    have htw := hp.sublist.count_le Token.double
    have ho := one_le_count_iff.mpr (show Token.double ∈ before from hf)
    rw [count_append, count_singleton_self] at htw
    omega
  | colon =>
    rcases colon with hn | ⟨u, v, w, rfl, hn⟩
    · exact hn ht
    have group : u ++ [.group v] <+: u ++ .group v :: w := ⟨w, by simp⟩
    rcases prefix_or_prefix_of_prefix hp group with early | late
    · rcases prefix_concat_iff.mp early with he | early
      · cases (append_inj' he rfl).2
      · exact hn (early.subset (mem_append_right _ (mem_singleton_self _)))
    · rcases prefix_concat_iff.mp late with he | late
      · cases (append_inj' he rfl).2
      · have hi : v ∈ groups before :=
          mem_filterMap.mpr ⟨.group v, late.subset (by simp), rfl⟩
        rw [show groups before = [] from hf] at hi
        cases hi

theorem compress_eq {u w : List Token} (ha : .double ∉ u)
    (few : (groups u).length + (groups w).length < 8) :
    (scanned (u ++ .double :: w)).compress = .ok (groups u ++
      replicate (8 - (groups u).length - (groups w).length) 0 ++ groups w) := by
  have all : groups (u ++ .double :: w) = groups u ++ groups w := groups_append _
  rw [Scan.compress, scanned, position_append w ha, all]
  dsimp only
  obtain ⟨k, hl⟩ : ∃ k, 8 - (groups u).length - (groups w).length = k + 1 :=
    Nat.exists_eq_succ_of_ne_zero (by omega)
  have hf : 8 - (groups u ++ groups w).length = k + 1 := by rw [length_append]; omega
  rw [hf, hl]
  split_ifs with hb
  · have shift : (2 ^ 64 + 8 - (groups u ++ groups w).length + 0) % 2 ^ 64 = k + 1 := by omega
    have hs := shiftSegments_eq (groups u) (groups w) [] (k := k) (by simp; omega)
    rw [shift, length_append]
    simpa using hs
  · have hn : groups w = [] := by
      rw [length_append] at hb
      exact length_eq_zero_iff.mp (by omega)
    rw [hn, append_nil, append_nil]
    cases size : (groups u).length with
    | zero => rfl
    | succ n => rw [shiftSegments, if_pos le_rfl]

theorem bytes_eq {l : List Nat} {a : IpV6Addr} (hb : Bytes l a) :
    (fun i : Fin 16 => UInt8.ofNat (l.getD (i / 2) 0 >>> ((1 - i.val % 2) * 8))) = a := by
  funext i
  apply UInt8.toNat_inj.mp
  rw [hb i, UInt8.toNat_ofNat', Nat.shiftRight_eq_div_pow, mul_comm _ 8, Nat.pow_mul]

theorem not_refused_spelled (l r : List Line) : ¬ Refused (spelled l ++ .double :: spelled r) := by
  refine not_refused (fun ht => ?_) ?_ ?_
  · rcases mem_append.mp ht with he | late
    · exact (mem_spelled l he).1 rfl
    · exact (mem_spelled r ((mem_cons.mp late).resolve_left nofun)).1 rfl
  · rw [count_append, count_cons_self, count_eq_zero.mpr fun ht => (mem_spelled l ht).2 rfl,
      count_eq_zero.mpr fun ht => (mem_spelled r ht).2 rfl]
  · cases l with
    | cons g l =>
      obtain ⟨ts, hs⟩ := spelled_cons g l
      exact .inr ⟨[], _, ts ++ .double :: spelled r, by rw [hs]; rfl, not_mem_nil⟩
    | nil =>
      cases r with
      | nil => exact .inl (by decide)
      | cons g r =>
        obtain ⟨ts, hs⟩ := spelled_cons g r
        exact .inr ⟨[.double], _, ts, by rw [hs]; rfl, by decide⟩

theorem tokens_spelled {l : List Line} (he : ∀ g ∈ l, HexGroup g) :
    tokens ([58].intercalate l) = spelled l ∧ ¬ Refused (spelled l) := by
  have hl := tokens_intercalate (.inl rfl) l he
  rw [append_nil, tokens, append_nil] at hl
  refine ⟨hl, fun ⟨b, t, hp, hf⟩ => not_refused_spelled l [] ?_⟩
  exact ⟨b, t, hp.trans (prefix_append _ _), hf⟩

theorem outOfBounds_of_groups {l : List Line} (he : ∀ g ∈ l, HexGroup g) (hm : 8 < l.length) :
    ipV6Parse ([58].intercalate l) = .error .outOfBounds := by
  obtain ⟨hl, hs⟩ := tokens_spelled he
  refine (ipV6Parse_spec _).2.2 (hl ▸ hs) ?_
  rw [hl, groups_spelled, length_map]
  exact hm

theorem ipV6Parse_of_denotes {a : IpV6Addr} (hd : DenotesIpV6 s a) : ipV6Parse s = .ok a := by
  obtain ⟨l, r, hex, ht, hb⟩ := hd
  obtain ⟨hel, her⟩ := forall_mem_append.mp hex
  have hp {ts : List Token} (hl : tokens s = ts) (hs : ¬ Refused ts)
      (hf : (groups ts).length ≤ 8) (hw : (scanned ts).compress = .ok (l.map hexadecimal ++
        replicate (8 - l.length - r.length) 0 ++ r.map hexadecimal)) : ipV6Parse s = .ok a := by
    rw [ipV6Parse, hl, (scan_eq ts).2.1 hs hf, Except.bind, hw]
    exact congrArg Except.ok (bytes_eq hb)
  have ha (gs : List Line) : .double ∉ spelled gs := fun hth => (mem_spelled gs hth).2 rfl
  rcases ht with ⟨ht, he, rfl⟩ | ⟨ht, hf⟩
  · obtain ⟨hl, hs⟩ := tokens_spelled hel
    refine hp (ht ▸ hl) hs ?_ ?_
    · rw [groups_spelled, length_map, he]
    · rw [Scan.compress, scanned, position, if_neg (ha l), groups_spelled, length_map, he]
      simp
  · have hl := tokens_intercalate (.inr ⟨58 :: [58].intercalate r, rfl⟩) l hel
    rw [← ht, tokens_double, (tokens_spelled her).1] at hl
    have hsz : groups (spelled l ++ .double :: spelled r) =
        l.map hexadecimal ++ r.map hexadecimal :=
      (groups_append _).trans (by rw [groups_spelled]; exact congrArg _ (groups_spelled r))
    refine hp hl (not_refused_spelled l r) ?_ ?_
    · rw [hsz, length_append, length_map, length_map]
      omega
    · have hw := compress_eq (ha l) (w := spelled r)
        (by rw [groups_spelled, groups_spelled, length_map, length_map]; exact hf)
      simpa [groups_spelled] using hw

theorem colon_mem_of_denotes {a : IpV6Addr} (hd : DenotesIpV6 s a) : 58 ∈ s := by
  obtain ⟨l, r, -, ⟨rfl, he, -⟩ | ⟨rfl, -⟩, -⟩ := hd
  · match l, he with
    | g :: h :: l, _ => simp
  · simp

/-- A character that is neither a digit nor a dot, or a fourth dot. -/
def RefusedIpV4 (s : Line) : Prop := (∃ c ∈ s, c ≠ 46 ∧ ¬ isDigit c) ∨ 4 ≤ s.count 46

theorem scanTriplets_none_iff {a : IpV4Addr} {i : Fin 4} (hs : 10 ∉ s) :
    scanTriplets a i s = none ↔ (∃ c ∈ s, c ≠ 46 ∧ ¬ isDigit c) ∨ 4 ≤ i + s.count 46 := by
  induction s generalizing a i with
  | nil => simp [scanTriplets, i.isLt]
  | cons c s ih =>
    rw [mem_cons, not_or] at hs
    rw [scanTriplets, if_neg (Ne.symm hs.1)]
    split_ifs with hd hm hdg
    · rw [ih hs.2]
      simp [hd, Nat.add_assoc, Nat.add_comm 1]
    · simp [hd]
      right
      omega
    · rw [ih hs.2]
      simp [hd, hdg]
    · simp [hd, hdg]

theorem scanTriplets_digits {a : IpV4Addr} {i : Fin 4} (hd : ∀ c ∈ g, isDigit c) :
    scanTriplets a i (g ++ rest) =
      scanTriplets (Function.update a i (g.foldl (fun x c => x * 10 + (c - 48)) (a i))) i rest := by
  induction g generalizing a with
  | nil => simp
  | cons c g ih =>
    obtain ⟨h1, hl⟩ := forall_mem_cons.mp hd
    have hn : ¬ c = 10 ∧ ¬ c = 46 := by
      constructor <;> rintro rfl <;> exact absurd h1 (by decide)
    rw [cons_append, scanTriplets, if_neg hn.1, if_neg hn.2, if_pos h1, ih hl]
    simp

theorem toNat_foldl (hd : ∀ c ∈ g, isDigit c) (x : UInt8) (n : Nat)
    (he : x.toNat = n % 256) : (g.foldl (fun x c => x * 10 + (c - 48)) x).toNat =
      g.foldl (fun n c => 10 * n + (c.toNat - 48)) n % 256 := by
  induction g generalizing x n with
  | nil => exact he
  | cons c g ih =>
    obtain ⟨h1, hl⟩ := forall_mem_cons.mp hd
    refine ih hl _ _ ?_
    have ha : 48 ≤ c.toNat := of_decide_eq_true (Bool.and_eq_true_iff.mp h1).1
    rw [UInt8.toNat_add, UInt8.toNat_mul, UInt8.toNat_sub_of_le _ _ ha, he]
    simp
    omega

theorem ipV4Parse_of_denotes {a : IpV4Addr} (hd : DenotesIpV4 s a) : ipV4Parse s = some a := by
  obtain ⟨n, hf, rfl, hb⟩ := hd
  have hv (i : Fin 4) : (n i).foldl (fun x c => x * 10 + (c - 48)) 0 = a i := by
    apply UInt8.toNat_inj.mp
    rw [toNat_foldl (hf i).2.1 0 0 rfl, hb i]
    exact Nat.mod_eq_of_lt (Nat.lt_succ_of_le (hf i).2.2)
  have dot {b : IpV4Addr} {i : Fin 4} {rest : Line} (hm : i.val + 1 < 4) :
      scanTriplets b i (46 :: rest) = scanTriplets b ⟨i + 1, hm⟩ rest := by
    rw [scanTriplets, if_neg (by decide), if_pos rfl, dif_pos hm]
  have ht : [46].intercalate (ofFn n) = n 0 ++ 46 :: (n 1 ++ 46 :: (n 2 ++ 46 :: n 3)) := by
    simp [ofFn_succ]
  have hl := append_nil (n 3)
  rw [ipV4Parse, ht, scanTriplets_digits (hf 0).2.1, dot (by decide),
    scanTriplets_digits (hf 1).2.1, dot (by decide), scanTriplets_digits (hf 2).2.1,
    dot (by decide), ← hl, scanTriplets_digits (hf 3).2.1, scanTriplets]
  congr 1
  funext i
  simp [Function.update, hv]
  match i with
  | 0 | 1 | 2 | 3 => rfl

end

section

def Exact (s : Line) : Prop :=
  (∀ a, stringToAddress s = some (.ipV4 a) ↔ DenotesIpV4 s a) ∧
  (∀ a, stringToAddress s = some (.ipV6 a) ↔ DenotesIpV6 s a) ∧
  ((∀ a, ¬ DenotesIpV4 s a) → (∀ a, ¬ DenotesIpV6 s a) → stringToAddress s = some (.named s))

variable {s : Line}

theorem named_iff (hs : 10 ∉ s) : stringToAddress s = some (.named s) ↔
    RefusedIpV4 s ∧ Refused (tokens s) := by
  have h1 : ipV4Parse s = none ↔ RefusedIpV4 s := by
    rw [ipV4Parse, scanTriplets_none_iff hs, RefusedIpV4]
    simp
  obtain ⟨hr, ok, ho⟩ := ipV6Parse_spec s
  cases ht : ipV4Parse s with
  | some a =>
    refine iff_of_false (by simp [stringToAddress, ht]) fun hb => ?_
    cases ht.symm.trans (h1.mpr hb.1)
  | none =>
    rw [and_iff_right (h1.mp ht)]
    by_cases flawed : Refused (tokens s)
    · simp [stringToAddress, ht, hr flawed, flawed]
    rcases lt_or_ge 8 (groups (tokens s)).length with hm | few
    · simp [stringToAddress, ht, ho flawed hm, flawed]
    · obtain ⟨a, run⟩ := ok flawed few
      simp [stringToAddress, ht, run, flawed]

/-- A text in one line is recognised exactly when it denotes an address, or is refused by both
scans: by the second before it comes to a ninth group. -/
theorem exact_iff (s : Line) (single : 10 ∉ s) : Exact s ↔
    (∃ a, DenotesIpV4 s a) ∨ (∃ a, DenotesIpV6 s a) ∨ RefusedIpV4 s ∧ Refused (tokens s) := by
  have hf {a : IpV4Addr} (hd : DenotesIpV4 s a) : stringToAddress s = some (.ipV4 a) := by
    rw [stringToAddress, ipV4Parse_of_denotes hd]
  have hs {a : IpV6Addr} (hd : DenotesIpV6 s a) : stringToAddress s = some (.ipV6 a) := by
    have none : ipV4Parse s = none :=
      (scanTriplets_none_iff single).mpr (.inl ⟨58, colon_mem_of_denotes hd, by decide⟩)
    rw [stringToAddress, none, ipV6Parse_of_denotes hd]
  constructor
  · rintro ⟨-, -, hn⟩
    by_cases hd : ∃ a, DenotesIpV4 s a
    · exact .inl hd
    by_cases hd' : ∃ a, DenotesIpV6 s a
    · exact .inr (.inl hd')
    · exact .inr (.inr ((named_iff single).mp
        (hn (not_exists.mp hd) (not_exists.mp hd'))))
  · intro hr
    rw [← named_iff single] at hr
    refine ⟨fun b => ⟨fun ht => ?_, hf⟩, fun b => ⟨fun ht => ?_, hs⟩, fun hnf hns => ?_⟩
    all_goals rcases hr with ⟨a, hd⟩ | ⟨a, hd⟩ | name
    · cases ht.symm.trans (hf hd)
      exact hd
    · cases ht.symm.trans (hs hd)
    · cases ht.symm.trans name
    · cases ht.symm.trans (hf hd)
    · cases ht.symm.trans (hs hd)
      exact hd
    · cases ht.symm.trans name
    · exact absurd hd (hnf a)
    · exact absurd hd (hns a)
    · exact name

theorem exact_zero : Exact [48, 46, 48, 46, 48, 46, 48] := by
  have hz : ([48] : Line) ≠ [] ∧ (∀ c ∈ [48], isDigit c) ∧ decimal [48] ≤ 255 :=
    ⟨by decide, forall_mem_singleton.mpr rfl, by decide⟩
  exact (exact_iff _ (by decide)).mpr
    (.inl ⟨fun _ => 0, fun _ => [48], fun _ => hz, rfl, fun _ => rfl⟩)

/-- The name "abc" is taken for an address. -/
theorem hex_name_taken_for_address : (∃ a, stringToAddress [97, 98, 99] = some (.ipV6 a)) ∧
    ∀ a, ¬ DenotesIpV6 [97, 98, 99] a := by
  constructor
  · have hl : tokens [97, 98, 99] = [.group 2748] := by
      simp [tokens, segment, isXDigit, isDigit, fromHex]
    exact ⟨_, by rw [stringToAddress, ipV6Parse, hl]; rfl⟩
  · intro a hd
    exact absurd (colon_mem_of_denotes hd) (by decide)

end

theorem ninth_group_out_of_bounds :
    ipV6Parse ([58].intercalate (replicate 9 [49])) = .error .outOfBounds := by
  refine outOfBounds_of_groups (fun g ht => ?_) (by decide)
  rw [eq_of_mem_replicate ht]
  exact ⟨by decide, by decide, forall_mem_singleton.mpr rfl⟩

/-- `AE_SUPPORT_IPV4` and `AE_SUPPORT_IPV6`. -/
structure Config where
  supportIpV4 : Bool
  supportIpV6 : Bool

def formatIpV4 (c : Config) (a : IpV4Addr) : Line :=
  if c.supportIpV4 then [46].intercalate (ofFn fun i => digits (a i).toNat) else []

def hexDigit (n : Nat) : UInt8 := UInt8.ofNat (if n < 10 then 48 + n else 87 + n)

def hexText (b : UInt8) : Line :=
  if b.toNat < 16 then [hexDigit b.toNat] else [hexDigit (b.toNat / 16), hexDigit (b.toNat % 16)]

def formatIpV6 (c : Config) (a : IpV6Addr) : Line :=
  if c.supportIpV6 then [58].intercalate ((ofFn a).map hexText) else []

theorem hexGroup_hexText (b : UInt8) : HexGroup (hexText b) := by
  have hd : ∀ n < 16, isXDigit (hexDigit n) := by decide
  have hs := b.toNat_lt
  rw [hexText]
  split_ifs with ho
  · exact ⟨nofun, by simp, by simpa using hd _ ho⟩
  · refine ⟨nofun, by simp, ?_⟩
    simpa using ⟨hd (b.toNat / 16) (by omega), hd (b.toNat % 16) (by omega)⟩

/-- An IPv4 address comes back from its text, where the text is written at all; an IPv6 address
never does. -/
theorem round_trips_iff (c : Config) :
    (∀ a, stringToAddress (formatIpV4 c a) = some (.ipV4 a) ↔
      c.supportIpV4 = true ∨ a = fun _ => 0) ∧
    ∀ a, stringToAddress (formatIpV6 c a) ≠ some (.ipV6 a) := by
  refine ⟨fun a => ?_, fun a ht => ?_⟩
  · cases support : c.supportIpV4 with
    | true =>
      have hn (i : Fin 4) : digits (a i).toNat ≠ [] ∧
          (∀ c ∈ digits (a i).toNat, isDigit c) ∧ decimal (digits (a i).toNat) ≤ 255 := by
        refine ⟨?_, fun c => mem_digits, ?_⟩
        · simp [digits, Nat.toDigits_ne_nil]
        · rw [decimal_digits]
          exact Nat.le_of_lt_succ (a i).toNat_lt
      have hd : DenotesIpV4 (formatIpV4 c a) a :=
        ⟨_, hn, if_pos support, fun i => (decimal_digits _).symm⟩
      simp [stringToAddress, ipV4Parse_of_denotes hd]
    | false =>
      have hr : stringToAddress (formatIpV4 c a) = some (.ipV4 fun _ => 0) := by
        rw [formatIpV4, support]
        rfl
      simp [hr, eq_comm]
  · cases support : c.supportIpV6 with
    | true =>
      have he : ∀ g ∈ (ofFn a).map hexText, HexGroup g :=
        forall_mem_map.mpr fun b _ => hexGroup_hexText b
      have ho := outOfBounds_of_groups he (by simp)
      rw [formatIpV6, if_pos support, stringToAddress, ho] at ht
      split at ht <;> simp_all
    | false =>
      rw [formatIpV6, support] at ht
      cases ht

/-- By default an IPv6 address is written as nothing and read as 0.0.0.0; with `AE_SUPPORT_IPV6`
it is written as sixteen groups, which go out of bounds. -/
theorem ipV6_read_as_zero :
    stringToAddress (formatIpV6 ⟨true, false⟩ fun _ => 1) = some (.ipV4 fun _ => 0) ∧
      ipV6Parse (formatIpV6 ⟨true, true⟩ fun _ => 1) = .error .outOfBounds := by
  refine ⟨rfl, ?_⟩
  rw [formatIpV6, if_pos rfl]
  exact outOfBounds_of_groups (forall_mem_map.mpr fun b _ => hexGroup_hexText b) (by simp)

end Ae.Types.AddressParser
