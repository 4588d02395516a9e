/- source: modems/sim7070_at_modem.{cpp,h}
   digest: Which connection an opened network stands for, and when received bytes are whole. -/

import Mathlib.Data.Finset.Insert
import Ae.SerialPorts.AtDispatcher
import Ae.SerialPorts.AtSupport

set_option autoImplicit false

namespace Ae.Modems.Sim7070
open List Lib.EventRun SerialPorts AtBuffer AtSupport
open AtDispatcher (holds)

/-- `Format` of an integer, of an `int8_t` too, is taken to be decimal. -/
def number (n : Int) : Line :=
  if n < 0 then 45 :: digits n.natAbs else digits n.natAbs

section

def caOpen : Line := [43, 67, 65, 79, 80, 69, 78]

structure Answer where
  cid : Int
  result : Nat
deriving DecidableEq

def Answer.line (a : Answer) : Line :=
  caOpen ++ [58, 32] ++ number a.cid ++ 44 :: digits a.result

/-- The wait of `Pipeline`, for the command with index `handle`: the trigger, and what its handler
says of a line. It takes the first number, the index, for the result code. -/
def accepts (conv : FromChars) (handle : Int) (line : Line) : Bool :=
  holds (caOpen ++ [58, 32] ++ number handle ++ [44, 48]) line &&
    match parseResponse conv line caOpen [.int (2 ^ 31 - 1), .int (2 ^ 31 - 1)] with
    | (some _, some (.int resultCode) :: _) => resultCode = 0
    | (some _, _) => true
    | (none, _) => false

structure Modem where
  next : BitVec 8
  connections : Finset (BitVec 8)

/-- `OpenNetworkOperationImpl` with the answers that come to it in time: what it returns, or none
for an error. The member `handle_` that is reported stays at -1. -/
def Modem.openNetwork (conv : FromChars) (m : Modem) (answers : List Answer) :
    Modem × Option (BitVec 8) :=
  if answers.any fun a => accepts conv m.next.toInt a.line then
    (⟨m.next + 1, insert (-1) m.connections⟩, some (-1))
  else (⟨m.next + 1, m.connections⟩, none)

/-- The operation succeeds exactly with a good answer for its index, and then stands for it. -/
def Identified (conv : FromChars) (m : Modem) (answers : List Answer) : Prop :=
  let (after, result) := m.openNetwork conv answers
  (result.isSome ↔ ⟨m.next.toInt, 0⟩ ∈ answers) ∧
    (result.isSome → result = some m.next ∧ m.next ∈ after.connections)

theorem plain_digits {n : Nat} {c : UInt8} (hm : c ∈ digits n) : separator c = false ∧ c ≠ 43 := by
  have hd := mem_digits hm
  refine ⟨separator_of_isDigit hd, ?_⟩
  rintro rfl
  exact absurd hd (by decide)

theorem plain_number {n : Int} {c : UInt8} (mem : c ∈ number n) : separator c = false ∧ c ≠ 43 := by
  rw [number] at mem
  split_ifs at mem
  · obtain rfl | mem := mem_cons.mp mem
    · decide
    · exact plain_digits mem
  · exact plain_digits mem

theorem number_inj {m n : Int} (he : number m = number n) : m = n := by
  have hu {m n : Nat} {s : Line} : digits m ≠ 45 :: s := by
    intro hs
    have : isDigit 45 := mem_digits (hs ▸ mem_cons_self : (45 : UInt8) ∈ digits m)
    exact absurd this (by decide)
  have hi {m n : Nat} (he : digits m = digits n) : m = n := by
    rw [← decimal_digits m, he, decimal_digits]
  rw [number, number] at he
  split_ifs at he with h1 h2 h2
  · have := hi (cons.inj he).2
    omega
  · exact (hu (n := 0) he.symm).elim
  · exact (hu (n := 0) he).elim
  · have := hi he
    omega

theorem digits_zero {n : Nat} {s : Line} (hs : digits n = 48 :: s) : n = 0 := by
  induction n using Nat.strong_induction_on generalizing s with
  | _ n ih =>
    rw [digits, Nat.toDigits_eq_if (by decide)] at hs
    split_ifs at hs with hsm
    · have hoz : ∀ m < 10, (Nat.digitChar m).toUInt8 = 48 → m = 0 := by decide
      exact hoz n hsm (cons.inj hs).1
    · rw [map_append, ← digits] at hs
      cases h1 : digits (n / 10) with
      | nil => simp [digits, Nat.toDigits_ne_nil] at h1
      | cons d ds =>
        rw [h1] at hs
        cases (cons.inj hs).1
        have := ih (n / 10) (by omega) h1
        omega

section

variable {conv : FromChars} {handle : Int} {a : Answer}

theorem line_eq (a : Answer) :
    a.line = caOpen ++ [58, 32] ++ (number a.cid ++ 44 :: digits a.result) := by
  simp [Answer.line]

theorem starts_of_holds (hf : holds (caOpen ++ [58, 32] ++ number handle ++ [44, 48]) a.line) :
    number handle ++ [44, 48] <+: number a.cid ++ 44 :: digits a.result := by
  rw [holds, cutAt_isSome_iff, line_eq, append_assoc] at hf
  obtain h1 | later := infix_cons_iff.mp hf
  · exact (prefix_append_right_inj (caOpen ++ [58, 32])).mp h1
  · have hnp : ∀ c ∈ caOpen.tail ++ [58, 32] ++ (number a.cid ++ 44 :: digits a.result), c ≠ 43 :=
      forall_mem_append.mpr ⟨by simp [caOpen], forall_mem_append.mpr
        ⟨fun _ hm => (plain_number hm).2, forall_mem_cons.mpr
          ⟨by decide, fun _ hm => (plain_digits hm).2⟩⟩⟩
    exact (hnp 43 (later.subset (by simp [caOpen])) rfl).elim

theorem tokenAt_number (b rest : Line) (n : Int) :
    tokenAt (b ++ (number n ++ 44 :: rest)) b.length = number n :=
  tokenAt_append b _ (fun c hm => (plain_number hm).1) (by rintro _ ⟨⟩; rfl)

theorem eq_of_starts (hs : number handle ++ [44, 48] <+: number a.cid ++ 44 :: digits a.result) :
    a = ⟨handle, 0⟩ := by
  obtain ⟨rest, hw⟩ := hs
  rw [append_assoc] at hw
  have he : number handle = number a.cid := by
    have h1 := tokenAt_number [] (48 :: rest) handle
    have h2 := tokenAt_number [] (digits a.result) a.cid
    rw [← h1, ← h2]
    exact congrArg (tokenAt · 0) hw
  rw [he, append_cancel_left_eq] at hw
  have hg : a.result = 0 := digits_zero (cons.inj hw).2.symm
  rw [number_inj he, ← hg]

/-- Only the first connection is ever accepted: the result code that the handler reads is the
index. -/
theorem eq_zero_of_accepts (ha : accepts conv handle a.line) : a = ⟨handle, 0⟩ ∧ handle = 0 := by
  rw [accepts, Bool.and_eq_true] at ha
  obtain ⟨hf, hp⟩ := ha
  obtain rfl := eq_of_starts (starts_of_holds hf)
  refine ⟨rfl, ?_⟩
  have ht : tokenAt (Answer.line ⟨handle, 0⟩) 9 = number handle := by
    rw [line_eq]
    exact tokenAt_number (caOpen ++ [58, 32]) _ handle
  have cut : cutAt caOpen (Answer.line ⟨handle, 0⟩) =
      some ([], [58, 32] ++ (number handle ++ 44 :: digits 0)) := by
    rw [line_eq, append_assoc]
    exact cutAt_append
  rcases hpr : parseResponse conv (Answer.line ⟨handle, 0⟩) caOpen
    [.int (2 ^ 31 - 1), .int (2 ^ 31 - 1)] with ⟨_ | stop, vs⟩
  · rw [hpr] at hp
    cases hp
  · obtain ⟨all, rfl⟩ := accepted_of_engaged cut hpr
    have h1 : Accepted (tokenAt (Answer.line ⟨handle, 0⟩) 9) (.int (2 ^ 31 - 1)) :=
      all _ mem_cons_self
    rw [ht] at h1
    have hr : conv.read (2 ^ 31 - 1) (number handle) = some (decimal (number handle)) :=
      (conv.exact _ _ _).mpr ⟨h1.1, rfl, h1.2⟩
    have hv : parseArg conv (tokenAt (Answer.line ⟨handle, 0⟩) 9) (.int (2 ^ 31 - 1)) =
        some (.int (decimal (number handle))) := by
      rw [ht, parseArg, hr]
      rfl
    have hnn : ([] : Line).length + caOpen.length + 2 = 9 := rfl
    have hc : decimal (number handle) = 0 := by
      simp only [hpr, hnn, AtSupport.positions, map_cons, hv] at hp
      exact of_decide_eq_true hp
    have hps : ¬ handle < 0 := by
      intro hn
      rw [number, if_pos hn] at h1
      exact absurd (h1.1.2 45 mem_cons_self) (by decide)
    rw [number, if_neg hps, decimal_digits] at hc
    exact Int.natAbs_eq_zero.mp hc

end

/-- An operation keeps the identity of its connection exactly when it gets no good answer for it:
the index that it reports and adds is always -1. -/
theorem identified_iff {conv : FromChars} {m : Modem} {answers : List Answer} :
    Identified conv m answers ↔ ⟨m.next.toInt, 0⟩ ∉ answers := by
  have hg {a : Answer} (hm : a ∈ answers) (ha : accepts conv m.next.toInt a.line) :
      ⟨m.next.toInt, 0⟩ ∈ answers ∧ m.next.toInt = 0 := by
    obtain ⟨rfl, hz⟩ := eq_zero_of_accepts ha
    exact ⟨hm, hz⟩
  rw [Identified, Modem.openNetwork]
  split_ifs with ha
  · obtain ⟨a, hm, ha⟩ := any_eq_true.mp ha
    obtain ⟨hm, hz⟩ := hg hm ha
    refine iff_of_false (fun i => ?_) (fun hn => hn hm)
    have he := Option.some.inj (i.2 rfl).1
    rw [← he] at hz
    exact absurd hz (by decide)
  · refine ⟨fun i hm => ?_, fun hn => ⟨iff_of_false Bool.false_ne_true hn, nofun⟩⟩
    exact Bool.false_ne_true (i.1.mpr hm)

/-- Operations one after the other stand for the connections of their commands exactly as long
as none of them gets a good answer. -/
theorem connections_identified_iff (conv : FromChars) (m : Modem) (runs : List (List Answer)) :
    Along (fun m answers => (m.openNetwork conv answers).1) (Identified conv) m runs ↔
      Along (fun m answers => (m.openNetwork conv answers).1)
        (fun m answers => ⟨m.next.toInt, 0⟩ ∉ answers) m runs :=
  along_iff_of_invariant (I := fun _ => True) (fun _ _ _ _ => trivial)
    (fun _ _ _ => identified_iff) trivial

/-- The first connection is opened as -1, and the second one is not opened. -/
theorem first_connection_opened_as_minus_one :
    Modem.openNetwork .standard ⟨0, ∅⟩ [⟨0, 0⟩] = (⟨1, {-1}⟩, some (-1)) ∧
      Modem.openNetwork .standard ⟨1, {-1}⟩ [⟨1, 0⟩] = (⟨2, {-1}⟩, none) := by
  constructor
  · have hp : parseResponse .standard (Answer.line ⟨0, 0⟩) caOpen _ = _ := roundTrips caOpen
      [.int (2 ^ 31 - 1), .int (2 ^ 31 - 1)] [.int 0, .int 0] (by simp [Fits])
    have ha : accepts .standard 0 (Answer.line ⟨0, 0⟩) := by
      rw [accepts, hp]
      decide
    rw [Modem.openNetwork, if_pos (by simpa using ha)]
    rfl
  · rw [Modem.openNetwork, if_neg]
    · rfl
    · intro ha
      obtain ⟨a, hm, ha⟩ := any_eq_true.mp ha
      exact absurd (eq_zero_of_accepts ha).2 (by decide)

end

def caRecv : Line := [43, 67, 65, 82, 69, 67, 86]

def received (conv : FromChars) : List Line → Option Line
  | [] => none
  | line :: rest =>
    match parseResponse conv line caRecv [.int (2 ^ 64 - 1)] with
    | (none, _) => none
    | (some stop, values) =>
      let size := match values with
        | [some (.int n)] => n
        | _ => 0
      let data := getCrate size (stop + 1) (line :: rest)
      if data.length = size then some data else none

/-- What is emitted when one read comes while the receive request is active. The listeners for
other lines emit nothing. -/
def emitted (conv : FromChars) (data : Line) : List Line :=
  (AtDispatcher.positions (caRecv ++ [58, 32]) (lines data)).filterMap (received conv)

def delivery (p : Line) : Line :=
  caRecv ++ [58, 32] ++ digits p.length ++ 44 :: p ++ crlf ++ [79, 75]

theorem clean_append {h p : Line} (hp : 13 ∉ h) (hc : ¬ crlf <:+: p) : ¬ crlf <:+: h ++ p := by
  induction h with
  | nil => exact hc
  | cons c h ih =>
    rw [mem_cons, not_or] at hp
    obtain ⟨hn, hp⟩ := hp
    intro hf
    obtain hs | later := infix_cons_iff.mp hf
    · exact hn (cons_prefix_cons.mp hs).1
    · exact ih hp later

theorem sublist_of_received {conv : FromChars} {pos : List Line} {p : Line}
    (he : received conv pos = some p) : p.Sublist pos.flatten := by
  cases pos with
  | nil => cases he
  | cons l rest =>
    rw [received] at he
    split at he
    · cases he
    · dsimp only at he
      split_ifs at he
      cases he
      rw [getCrate_eq]
      exact (take_sublist _ _).trans (drop_sublist _ _)

theorem plain_header (n : Nat) : 13 ∉ caRecv ++ [58, 32] ++ digits n ++ [44] := by
  intro hm
  have hp : ∀ c ∈ caRecv ++ [58, 32] ++ digits n ++ [44], c ≠ 13 := by
    refine forall_mem_append.mpr ⟨forall_mem_append.mpr ⟨by simp [caRecv], fun c hm => ?_⟩, by simp⟩
    rintro rfl
    exact absurd (mem_digits hm) (by decide)
  exact hp 13 hm rfl

theorem emitted_clean {conv : FromChars} {p : Line} (hsm : p.length ≤ 1024)
    (hc : ¬ crlf <:+: p) : emitted conv (delivery p) = [p] := by
  set line := caRecv ++ [58, 32] ++ digits p.length ++ 44 :: p
  have hw : line = caRecv ++ ([58, 32] ++ (digits p.length ++ 44 :: p)) := by simp [line]
  have hs : lines (delivery p) = [line, [79, 75]] := by
    have hcl : ¬ crlf <:+: line := by
      have := clean_append (plain_header p.length) hc
      simpa [line] using this
    rw [delivery, lines_append_crlf, lines_clean hcl, lines_clean (by decide), nonEmpty,
      if_neg (by simp [line])]
    rfl
  have ht : AtDispatcher.positions (caRecv ++ [58, 32]) [line, [79, 75]] =
      [[line, [79, 75]]] := by
    have h1 : holds (caRecv ++ [58, 32]) line := by
      rw [holds, cutAt_isSome_iff, hw, ← append_assoc]
      exact (prefix_append _ _).isInfix
    rw [AtDispatcher.positions, if_pos h1]
    rfl
  have htk : tokenAt line 9 = digits p.length := by
    rw [hw, ← append_assoc]
    exact tokenAt_append (caRecv ++ [58, 32]) _ (fun c hm => (plain_digits hm).1)
      (by rintro _ ⟨⟩; rfl)
  have hf : Fits (.int (2 ^ 64 - 1)) (.int p.length) := le_trans hsm (by decide)
  have hr : Responds line caRecv [.int (2 ^ 64 - 1)] [.int p.length]
      (9 + (digits p.length).length) := by
    refine ⟨[], [58, 32] ++ (digits p.length ++ 44 :: p), ?_, .cons ?_ .nil, ?_⟩
    · rw [hw]
      exact cutAt_append
    · change WellFormed (tokenAt line 9) _ _
      rw [htk]
      exact (wellFormed_format hf).1
    · change _ = 9 + (tokenAt line 9).length
      rw [htk]
  have data : getCrate p.length (9 + (digits p.length).length + 1) [line, [79, 75]] = p := by
    have hh : (caRecv ++ [58, 32] ++ digits p.length ++ [44]).length =
        9 + (digits p.length).length + 1 := by
      simp [caRecv]
      omega
    rw [getCrate_eq, ← hh]
    simp [line]
  rw [emitted, hs, ht, filterMap_cons, received, parse_of_responds hr]
  simp [data]

/-- The payload comes out whole exactly when there is no line end in it. -/
theorem received_whole_iff (conv : FromChars) (p : Line) (small : p.length ≤ 1024) :
    emitted conv (delivery p) = [p] ↔ ¬ crlf <:+: p := by
  refine ⟨fun hw => ?_, emitted_clean small⟩
  rintro ⟨u, v, rfl⟩
  obtain ⟨pos, hf, he⟩ := mem_filterMap.mp (hw ▸ mem_singleton_self _ :
    u ++ crlf ++ v ∈ emitted conv (delivery (u ++ crlf ++ v)))
  obtain ⟨-, b, hs⟩ := AtDispatcher.of_mem_positions hf
  have hk : (u ++ crlf ++ v).Sublist (lines (delivery (u ++ crlf ++ v))).flatten := by
    rw [← hs, flatten_append]
    exact (sublist_of_received he).trans (sublist_append_right _ _)
  have hc : delivery (u ++ crlf ++ v) =
      caRecv ++ [58, 32] ++ digits (u ++ crlf ++ v).length ++ [44] ++ u ++ crlf ++
        (v ++ crlf ++ [79, 75]) := by
    simp [delivery]
  rw [hc, lines_append_crlf, lines_append_crlf, flatten_append, flatten_append] at hk
  have hl := (hk.trans ((flatten_lines_sublist _).append
    ((flatten_lines_sublist v).append (flatten_lines_sublist _)))).count_le 13
  have hh := count_eq_zero.mpr (plain_header (u ++ crlf ++ v).length)
  have hen : count (13 : UInt8) [13, 10] = 1 := rfl
  have ok : count (13 : UInt8) [79, 75] = 0 := rfl
  simp only [count_append, crlf] at hl hh
  omega

theorem received_trigger_words : emitted .standard (delivery (caRecv ++ [79, 75])) =
    [caRecv ++ [79, 75]] :=
  (received_whole_iff .standard (caRecv ++ [79, 75]) (by decide)).mpr (by decide)

/-- For a payload that is a line end the answer's last line is taken. -/
theorem line_end_received_as_ok : emitted FromChars.standard (delivery [13, 10]) = [[79, 75]] := by
  have hc : delivery [13, 10] = caRecv ++ [58, 32, 50, 44] ++ crlf ++ ([] ++ crlf ++ [79, 75]) := by
    decide
  have hs : lines (delivery [13, 10]) = [caRecv ++ [58, 32, 50, 44], [79, 75]] := by
    rw [hc, lines_append_crlf, lines_append_crlf, lines_nil, lines_clean (by decide),
      lines_clean (by decide)]
    rfl
  rw [emitted, hs]
  decide

end Ae.Modems.Sim7070
