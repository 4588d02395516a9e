/- source: serial_ports/at_support/at_support.{h,cpp}
   digest: A command is written with the rest of its buffer, and what a response is parsed to. -/

import Ae.Lib.Lists
import Ae.SerialPorts.AtBuffer
import Mathlib.Algebra.Group.Nat.Defs

set_option autoImplicit false

namespace Ae.SerialPorts.AtSupport
open List Lib.Lists AtBuffer

abbrev Buffer := { bytes : Line // bytes.length = 1024 }

/-- `SendATCommand` to a port that is open: what it returns, the array it leaves, and the bytes
it gives to `Write`. A command that does not fit fails the assertion. -/
def sendATCommand (buffer : Buffer) (command : Line) : Option (Nat × Buffer × Line) :=
  if fits : command.length + 2 < 1024 then
    let filled := command ++ crlf ++ buffer.1.drop (command.length + 2)
    some (command.length, ⟨filled, by simp [filled, buffer.2, crlf]; omega⟩, filled)
  else none

def written : Buffer → List Line → Line
  | _, [] => []
  | buffer, command :: rest =>
    match sendATCommand buffer command with
    | none => []
    | some (_, buffer', bytes) => bytes ++ written buffer' rest

/-- The bytes written are the commands with their line ends only where there is no command: each
call writes the whole array. -/
theorem only_commands_written_iff (buffer : Buffer) (commands : List Line)
    (fit : ∀ command ∈ commands, command.length ≤ 1021) :
    written buffer commands = (commands.map (· ++ crlf)).flatten ↔ commands = [] := by
  refine ⟨fun he => ?_, fun hn => by rw [hn]; rfl⟩
  have hl (buffer : Buffer) : ∀ commands : List Line,
      (∀ command ∈ commands, command.length ≤ 1021) →
      (commands.map (· ++ crlf)).flatten.length + commands.length ≤
        (written buffer commands).length := by
    intro commands
    induction commands generalizing buffer with
    | nil => simp
    | cons command rest ih =>
      intro fit
      obtain ⟨h1, fit⟩ := forall_mem_cons.mp fit
      rw [written, sendATCommand, dif_pos (by omega)]
      have hm := ih ⟨command ++ crlf ++ buffer.1.drop (command.length + 2), by
        simp [buffer.2, crlf]; omega⟩ fit
      simp only [map_cons, flatten_cons, length_append, length_cons, length_drop, buffer.2, crlf]
        at hm ⊢
      omega
  have hln := congrArg length he
  have := hl buffer commands fit
  exact length_eq_zero_iff.mp (by omega)

def zeroed : Buffer := ⟨replicate 1024 0, length_replicate⟩

theorem only_commands_written_not :
    written zeroed [[65], [65, 84]] ≠ [65, 13, 10, 65, 84, 13, 10] :=
  mt (only_commands_written_iff zeroed [[65], [65, 84]] (by decide)).mp nofun

/-- `AT` is written with a thousand bytes behind it. -/
theorem short_command_padded : written zeroed [[65, 84]] ≠ [65, 84, 13, 10] := by
  intro he
  have hl := congrArg length he
  simp [written, sendATCommand, crlf, zeroed.2] at hl

def isDigit (c : UInt8) : Bool :=
  48 ≤ c && c ≤ 57

def decimal (digits : Line) : Nat :=
  digits.foldl (fun n c => 10 * n + (c.toNat - 48)) 0

/-- `FromChars` of a library beside this one, assumed to be right: it reads the digit strings
whose number fits the type. -/
structure FromChars where
  read : (max : Nat) → Line → Option Nat
  exact : ∀ max token n, read max token = some n ↔
    (token ≠ [] ∧ ∀ c ∈ token, isDigit c) ∧ decimal token = n ∧ n ≤ max

def FromChars.standard : FromChars where
  read max token :=
    if token ≠ [] ∧ token.all isDigit ∧ decimal token ≤ max then some (decimal token) else none
  exact max token n := by
    rw [← all_eq_true]
    split_ifs with good
    · simp only [Option.some.injEq]
      exact ⟨fun same => ⟨⟨good.1, good.2.1⟩, same, same ▸ good.2.2⟩, fun formed => formed.2.1⟩
    · exact iff_of_false nofun fun formed =>
        good ⟨formed.1.1, formed.1.2, formed.2.1 ▸ formed.2.2⟩

inductive Arg where
  | int (max : Nat)
  | str

inductive Value where
  | int (n : Nat)
  | str (s : Line)

def quote : UInt8 := 34

/-- `ParseArg` for a string. With one quote only, the count of bytes wraps to `npos`. -/
def parseString (token : Line) : Option Line :=
  if quote ∈ token then
    let start := token.idxOf quote
    let stop := token.length - 1 - token.reverse.idxOf quote
    some ((token.drop (start + 1)).take (if start = stop then 2 ^ 64 - 1 else stop - start - 1))
  else none

def parseArg (conv : FromChars) (token : Line) : Arg → Option Value
  | .int max => (conv.read max token).map .int
  | .str => (parseString token).map .str

def separator (c : UInt8) : Bool :=
  c = 44 || c = 32 || c = 10 || c = 13

/-- The bytes from an index up to the next separator or the end. -/
def tokenAt (response : Line) (start : Nat) : Line :=
  (response.drop start).takeWhile (!separator ·)

/-- The fold of `ParseResponse` over its arguments: whether all were parsed, the last index, and
what the arguments were set to. -/
def parseArgs (conv : FromChars) (response : Line) :
    List Arg → (start stop : Nat) → (res : Bool) → Bool × Nat × List (Option Value)
  | [], _, stop, res => (res, stop, [])
  | arg :: rest, start, stop, res =>
    if response.length ≤ start then
      let (res', stop', values) := parseArgs conv response rest start stop false
      (res', stop', none :: values)
    else
      let token := tokenAt response start
      let stop := start + token.length
      if stop ≤ start then
        let (res', stop', values) := parseArgs conv response rest start stop false
        (res', stop', none :: values)
      else
        let value := if res then parseArg conv token arg else none
        let (res', stop', values) := parseArgs conv response rest (stop + 1) stop value.isSome
        (res', stop', value :: values)

/-- `ParseResponse`. Without the command it returns `false`, which is an index of zero. -/
def parseResponse (conv : FromChars) (response cmd : Line) (args : List Arg) :
    Option Nat × List (Option Value) :=
  match cutAt cmd response with
  | none => (some 0, args.map fun _ => none)
  | some (before, _) =>
    let start := before.length + cmd.length + 2
    let (res, stop, values) := parseArgs conv response args start start true
    (if res then some stop else none, values)

/-- A value that a token stands for: the number of a digit string, or the text between the first
quote and another, the last. -/
def WellFormed (token : Line) : Arg → Value → Prop
  | .int max, .int n => (token ≠ [] ∧ ∀ c ∈ token, isDigit c) ∧ decimal token = n ∧ n ≤ max
  | .str, .str s => ∃ pre post, token = pre ++ quote :: (s ++ quote :: post) ∧
      quote ∉ pre ∧ quote ∉ post
  | _, _ => False

def positions (response : Line) : List Arg → Nat → List (Arg × Nat)
  | [], _ => []
  | arg :: rest, start =>
    (arg, start) :: positions response rest (start + (tokenAt response start).length + 1)

def finish (response : Line) : List Arg → (start stop : Nat) → Nat
  | [], _, stop => stop
  | _ :: rest, start, _ =>
    let stop := start + (tokenAt response start).length
    finish response rest (stop + 1) stop

/-- The response holds the command, and behind it a value for each argument. -/
def Responds (response cmd : Line) (args : List Arg) (values : List Value) (stop : Nat) : Prop :=
  ∃ before after, cutAt cmd response = some (before, after) ∧
    let start := before.length + cmd.length + 2
    Forall₂ (fun p v => WellFormed (tokenAt response p.2) p.1 v) (positions response args start)
      values ∧ stop = finish response args start start

/-- The parse succeeds exactly for the responses that have a value for each argument, and gives
these values and the index behind them. -/
def ParsesExactly (conv : FromChars) (response cmd : Line) (args : List Arg) : Prop :=
  ((parseResponse conv response cmd args).1.isSome ↔
    ∃ values stop, Responds response cmd args values stop) ∧
  ∀ values stop, Responds response cmd args values stop →
    parseResponse conv response cmd args = (some stop, values.map some)

/-- A token that `ParseArg` takes for its argument. -/
def Accepted (token : Line) : Arg → Prop
  | .int max => (token ≠ [] ∧ ∀ c ∈ token, isDigit c) ∧ decimal token ≤ max
  | .str => quote ∈ token

variable {conv : FromChars} {response : Line}

theorem parseString_between {pre s p : Line} (h1 : quote ∉ pre) (hl : quote ∉ p) :
    parseString (pre ++ quote :: (s ++ quote :: p)) = some s := by
  have start : (pre ++ quote :: (s ++ quote :: p)).idxOf quote = pre.length := by
    rw [idxOf_append_of_notMem h1, idxOf_cons_self, add_zero]
  have stop : (pre ++ quote :: (s ++ quote :: p)).reverse.idxOf quote = p.length := by
    simp only [reverse_append, reverse_cons, append_assoc, cons_append]
    rw [idxOf_append_of_notMem (by simpa using hl), idxOf_cons_self, length_reverse, add_zero]
  rw [parseString, if_pos (by simp), start, stop]
  dsimp only
  have ha : ¬ pre.length = (pre ++ quote :: (s ++ quote :: p)).length - 1 - p.length := by
    simp
    omega
  have hc : (pre ++ quote :: (s ++ quote :: p)).length - 1 - p.length - pre.length - 1 =
      s.length := by
    simp
    omega
  rw [if_neg ha, hc, drop_append, drop_eq_nil_of_le (Nat.le_succ _)]
  simp

variable {t : Line} {arg : Arg} {v : Value}

theorem exists_wellFormed (ha : Accepted t arg) (hp : arg = .str → t.count quote ≠ 1) :
    ∃ v, WellFormed t arg v := by
  cases arg with
  | int max => exact ⟨.int (decimal t), ha.1, rfl, ha.2⟩
  | str =>
    obtain ⟨pre, rest, rfl, h1⟩ := eq_append_cons_of_mem ha
    have hm : quote ∈ rest.reverse := by
      rw [mem_reverse, ← count_pos_iff]
      have := hp rfl
      rw [count_append, count_cons_self, count_eq_zero.mpr h1] at this
      omega
    obtain ⟨p, s, hw, hl⟩ := eq_append_cons_of_mem hm
    refine ⟨.str s.reverse, pre, p.reverse, ?_, h1, by simpa using hl⟩
    rw [← reverse_reverse rest, hw]
    simp

theorem accepted_of_wellFormed (hf : WellFormed t arg v) :
    Accepted t arg ∧ (arg = .str → t.count quote ≠ 1) := by
  cases arg <;> cases v <;> try exact hf.elim
  · exact ⟨⟨hf.1, hf.2.1 ▸ hf.2.2⟩, nofun⟩
  · obtain ⟨pre, p, rfl, h1, hl⟩ := hf
    exact ⟨by simp [Accepted], by simp; omega⟩

theorem parseArg_of_wellFormed (hf : WellFormed t arg v) : parseArg conv t arg = some v := by
  cases arg <;> cases v <;> try exact hf.elim
  · rw [parseArg, (conv.exact _ _ _).mpr hf]
    rfl
  · obtain ⟨pre, p, rfl, h1, hl⟩ := hf
    rw [parseArg, parseString_between h1 hl]
    rfl

theorem parseArg_isSome_iff : (parseArg conv t arg).isSome ↔ Accepted t arg := by
  cases arg with
  | int max =>
    rw [parseArg, Option.isSome_map, Option.isSome_iff_exists, Accepted]
    simp [conv.exact]
  | str =>
    rw [parseArg, Option.isSome_map, parseString, Accepted]
    split_ifs with hq <;> simp [hq]

theorem Accepted.ne_nil (ha : Accepted t arg) : t ≠ [] := by
  cases arg with
  | int max => exact ha.1.1
  | str => exact ne_nil_of_mem ha

theorem parseArgs_failed (a : List Arg) (s st : Nat) :
    (parseArgs conv response a s st false).1 = false := by
  induction a generalizing s st with
  | nil => rfl
  | cons arg rest ih =>
    simp only [parseArgs]
    split_ifs <;> first | exact ih .. | simp_all

theorem parseArgs_spec (conv : FromChars) (a : List Arg) (start s : Nat) :
    let all := ∀ p ∈ positions response a start, Accepted (tokenAt response p.2) p.1
    ((parseArgs conv response a start s true).1 = true ↔ all) ∧
    (all → parseArgs conv response a start s true = (true, finish response a start s,
      (positions response a start).map fun p => parseArg conv (tokenAt response p.2) p.1)) := by
  induction a generalizing start s with
  | nil => simp [parseArgs, positions, finish]
  | cons arg rest ih =>
    simp only [positions, forall_mem_cons, finish, map_cons]
    by_cases accepted : Accepted (tokenAt response start) arg
    · have hs := length_pos_iff.mpr accepted.ne_nil
      have hw : ¬ response.length ≤ start := by
        intro hb
        simp [tokenAt, drop_eq_nil_of_le hb] at hs
      have value : (parseArg conv (tokenAt response start) arg).isSome :=
        parseArg_isSome_iff.mpr accepted
      have hl := ih (start + (tokenAt response start).length + 1)
        (start + (tokenAt response start).length)
      have hm : ¬ start + (tokenAt response start).length ≤ start := by omega
      simp only [parseArgs, if_neg hw, if_neg hm, if_true, value, true_and, accepted]
      exact ⟨hl.1, fun all => by rw [hl.2 all]⟩
    · have value : ¬ (parseArg conv (tokenAt response start) arg).isSome :=
        mt parseArg_isSome_iff.mp accepted
      have hf : (parseArgs conv response (arg :: rest) start s true).1 = false := by
        simp only [parseArgs]
        split_ifs <;> simp_all [parseArgs_failed]
      simp [hf, accepted]

theorem accepted_of_engaged {cmd b a : Line} {ar : List Arg} {s : Nat}
    {vs : List (Option Value)} (hf : cutAt cmd response = some (b, a))
    (hp : parseResponse conv response cmd ar = (some s, vs)) :
    let ps := positions response ar (b.length + cmd.length + 2)
    (∀ p ∈ ps, Accepted (tokenAt response p.2) p.1) ∧
      vs = ps.map fun p => parseArg conv (tokenAt response p.2) p.1 := by
  rw [parseResponse, hf] at hp
  dsimp only at hp
  rcases hr : parseArgs conv response ar (b.length + cmd.length + 2)
    (b.length + cmd.length + 2) true with ⟨_ | _, s', vs'⟩
  · rw [hr] at hp
    cases hp
  · obtain ⟨ha, ht⟩ := parseArgs_spec conv ar _ _
    have all := ha.mp (congrArg Prod.fst hr)
    rw [hr] at hp
    cases hp
    exact ⟨all, congrArg (·.2.2) (hr.symm.trans (ht all))⟩

theorem parse_of_responds {cmd : Line} {ar : List Arg} {vs : List Value} {s : Nat}
    (h : Responds response cmd ar vs s) :
    parseResponse conv response cmd ar = (some s, vs.map some) := by
  obtain ⟨b, a, hfn, hf, rfl⟩ := h
  rw [parseResponse, hfn]
  dsimp only
  rw [(parseArgs_spec conv ar _ _).2 fun p hm => ?_]
  · exact congrArg (some _, ·) (map_eq_map hf fun p v => parseArg_of_wellFormed)
  · obtain ⟨v, -, hf⟩ := exists_right hf hm
    exact (accepted_of_wellFormed hf).1

/-- The parse is exact where the command occurs, unless all arguments are taken and the token of
one that is a string holds a single quote. -/
theorem exactly_iff (response cmd : Line) (ar : List Arg) :
    ParsesExactly conv response cmd ar ↔
      ∃ b a, cutAt cmd response = some (b, a) ∧
      let ps := positions response ar (b.length + cmd.length + 2)
      (∀ p ∈ ps, Accepted (tokenAt response p.2) p.1) →
        ∀ p ∈ ps, p.1 = .str → (tokenAt response p.2).count quote ≠ 1 := by
  rw [ParsesExactly, and_iff_left fun _ _ => parse_of_responds]
  cases hfn : cutAt cmd response with
  | none => simp [parseResponse, Responds, hfn]
  | some cut =>
    have hp : (parseResponse conv response cmd ar).1.isSome ↔
        ∀ p ∈ positions response ar (cut.1.length + cmd.length + 2),
          Accepted (tokenAt response p.2) p.1 := by
      rw [← (parseArgs_spec conv ar _ (cut.1.length + cmd.length + 2)).1, parseResponse, hfn]
      dsimp only
      split_ifs with ha <;> simp [ha]
    rw [hp]
    constructor
    · intro hex
      refine ⟨cut.1, cut.2, rfl, fun ha p hm => ?_⟩
      obtain ⟨values, s, b, a, he, hf, -⟩ := hex.mp ha
      cases hfn.symm.trans he
      obtain ⟨v, -, hf⟩ := exists_right hf hm
      exact (accepted_of_wellFormed hf).2
    · rintro ⟨b, a, he, hpr⟩
      cases he
      constructor
      · intro ha
        have hf := hpr ha
        have values (ps : List (Arg × Nat))
            (hec : ∀ p ∈ ps, ∃ v, WellFormed (tokenAt response p.2) p.1 v) :
            ∃ values, Forall₂ (fun p v => WellFormed (tokenAt response p.2) p.1 v) ps values := by
          induction ps with
          | nil => exact ⟨[], .nil⟩
          | cons p ps ih =>
            obtain ⟨⟨v, hf⟩, hec⟩ := forall_mem_cons.mp hec
            obtain ⟨values, hr⟩ := ih hec
            exact ⟨v :: values, .cons hf hr⟩
        obtain ⟨values, hf⟩ := values _ fun p hm =>
          exists_wellFormed (ha p hm) (hf p hm)
        exact ⟨values, _, b, a, hfn, hf, rfl⟩
      · rintro ⟨values, s, b, a, he, hf, -⟩ p hm
        cases hfn.symm.trans he
        obtain ⟨v, -, hf⟩ := exists_right hf hm
        exact (accepted_of_wellFormed hf).1

def digits (n : Nat) : Line :=
  (Nat.toDigits 10 n).map Char.toUInt8

def format : Value → Line
  | .int n => digits n
  | .str s => quote :: (s ++ [quote])

def joined : List Value → Line
  | [] => []
  | [v] => format v
  | v :: w :: rest => format v ++ 44 :: joined (w :: rest)

/-- A value of the argument's type, without separators. -/
def Fits : Arg → Value → Prop
  | .int max, .int n => n ≤ max
  | .str, .str s => ∀ c ∈ s, separator c = false
  | _, _ => False

/-- A response made of a command and values is parsed to these values. -/
def RoundTrips (conv : FromChars) (cmd : Line) (args : List Arg) : Prop :=
  ∀ values, Forall₂ Fits args values →
    parseResponse conv (cmd ++ [58, 32] ++ joined values) cmd args =
      (some (cmd ++ [58, 32] ++ joined values).length, values.map some)

theorem toNat_of_mem_toDigits {n : Nat} {d : Char} (h : d ∈ Nat.toDigits 10 n) :
    (48 ≤ d.toNat ∧ d.toNat ≤ 57) ∧ d.toUInt8.toNat = d.toNat := by
  have hd := Nat.isDigit_of_mem_toDigits (by decide) (by decide) h
  rw [Char.isDigit, Bool.and_eq_true, decide_eq_true_eq, decide_eq_true_eq] at hd
  have hl : 48 ≤ d.toNat := UInt32.le_iff_toNat_le.mp hd.1
  have hh : d.toNat ≤ 57 := UInt32.le_iff_toNat_le.mp hd.2
  refine ⟨⟨hl, hh⟩, ?_⟩
  rw [Char.toUInt8, UInt32.toNat_toUInt8]
  exact Nat.mod_eq_of_lt (hh.trans_lt (by decide))

theorem mem_digits {n : Nat} {c : UInt8} (h : c ∈ digits n) : isDigit c := by
  obtain ⟨d, hm, rfl⟩ := mem_map.mp h
  obtain ⟨hb, he⟩ := toNat_of_mem_toDigits hm
  simpa [isDigit, UInt8.le_iff_toNat_le, he] using hb

theorem decimal_digits (n : Nat) : decimal (digits n) = n := by
  have hr := Nat.ofDigitChars_toDigits (b := 10) (n := n) (by decide) (by decide)
  rw [Nat.ofDigitChars] at hr
  rw [decimal, digits, foldl_map]
  refine Eq.trans (foldl_ext _ _ _ fun m d hm => ?_) hr
  rw [(toNat_of_mem_toDigits hm).2]
  rfl

theorem separator_of_isDigit {c : UInt8} (hd : isDigit c) : separator c = false := by
  by_contra sep
  simp only [separator, Bool.or_eq_true, decide_eq_true_eq, Bool.not_eq_false] at sep
  obtain ((rfl | rfl) | rfl) | rfl := sep <;> exact absurd hd (by decide)

theorem tokenAt_append (pre : Line) {f : Line} (rest : Line) (plain : ∀ c ∈ f, separator c = false)
    (stops : ∀ c ∈ rest.head?, separator c = true) :
    tokenAt (pre ++ (f ++ rest)) pre.length = f := by
  rw [tokenAt, drop_left, takeWhile_append_of_pos (by simpa using plain)]
  cases rest with
  | nil => simp
  | cons c rest => simp [stops c rfl]

theorem wellFormed_format (hf : Fits arg v) :
    WellFormed (format v) arg v ∧ ∀ c ∈ format v, separator c = false := by
  cases arg <;> cases v <;> try exact hf.elim
  · refine ⟨⟨⟨by simp [format, digits, Nat.toDigits_ne_nil], fun c => mem_digits⟩,
      decimal_digits _, hf⟩, fun c hm => separator_of_isDigit (mem_digits hm)⟩
  · refine ⟨⟨[], [], by simp [format], by simp, by simp⟩, fun c hm => ?_⟩
    simp only [format, mem_cons, mem_append, not_mem_nil, or_false] at hm
    obtain rfl | inside | rfl := hm
    · rfl
    · exact hf c inside
    · rfl

theorem formed_of_fits {a : List Arg} {vs : List Value} (fit : Forall₂ Fits a vs)
    (pre : Line) (stop : Nat) (he : a = [] → stop = pre.length) :
    Forall₂ (fun p v => WellFormed (tokenAt (pre ++ joined vs) p.2) p.1 v)
      (positions (pre ++ joined vs) a pre.length) vs ∧
    (pre ++ joined vs).length = finish (pre ++ joined vs) a pre.length stop := by
  induction fit generalizing pre stop with
  | nil => exact ⟨.nil, by simp [joined, finish, he]⟩
  | @cons arg v a vs first rest ih =>
    obtain ⟨hf, hp⟩ := wellFormed_format first
    rw [positions, finish]
    cases rest with
    | nil =>
      have ht : tokenAt (pre ++ format v) pre.length = format v := by
        simpa using tokenAt_append pre [] hp (by simp)
      simp only [joined, ht, positions, finish]
      exact ⟨.cons (ht.symm ▸ hf) .nil, by simp⟩
    | @cons arg' v' a vs second rest =>
      have ht := tokenAt_append pre (44 :: joined (v' :: vs)) hp (by rintro _ ⟨⟩; rfl)
      simp only [joined, ht]
      have hs := ih (pre ++ format v ++ [44]) (pre.length + (format v).length) nofun
      simp only [append_assoc, singleton_append, length_append, length_singleton] at hs
      rw [← add_assoc] at hs
      refine ⟨.cons (ht.symm ▸ hf) hs.1, ?_⟩
      simpa using hs.2

theorem roundTrips (cmd : Line) (args : List Arg) : RoundTrips conv cmd args := by
  intro vs fit
  have hf := formed_of_fits fit (cmd ++ [58, 32]) (cmd ++ [58, 32]).length fun _ => rfl
  refine parse_of_responds ⟨[], [58, 32] ++ joined vs, ?_, by simpa using hf⟩
  rw [append_assoc]
  exact cutAt_append

/-- The parse is exact where the command occurs, unless all arguments are taken and the token of
one that is a string holds a single quote; and values without separators come back. -/
theorem parses_exactly_iff (conv : FromChars) (response cmd : Line) (args : List Arg) :
    (ParsesExactly conv response cmd args ↔
      ∃ before after, cutAt cmd response = some (before, after) ∧
        let ps := positions response args (before.length + cmd.length + 2)
        (∀ p ∈ ps, Accepted (tokenAt response p.2) p.1) →
          ∀ p ∈ ps, p.1 = .str → (tokenAt response p.2).count quote ≠ 1) ∧
    RoundTrips conv cmd args :=
  ⟨exactly_iff response cmd args, roundTrips cmd args⟩

/-- A response without the command is parsed with success, and a lone quote is enough for a
string. -/
theorem missing_command_engaged :
    parseResponse .standard [79, 75] [43] [.str] = (some 0, [none]) ∧
      parseResponse .standard [43, 58, 32, 34, 65] [43] [.str] = (some 5, [some (.str [65])]) :=
  ⟨rfl, rfl⟩

end Ae.SerialPorts.AtSupport
