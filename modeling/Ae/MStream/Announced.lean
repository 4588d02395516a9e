/- source: {mstream,mstream_buffers}.h
   digest: A walk over an input along a type, which ends at a length prefix that is too large. -/

import Ae.MStream.TypeDesc

set_option autoImplicit false

namespace Ae.MStream.Announced
open List VectorReader TypeDesc Option

/-- Where a decoding stands: what is left of the input, and the result of the last read. -/
structure Left where
  rest : List UInt8
  result : ReadResult

/-- A walk over the input. It is given up at a length prefix that announces more than what is
left behind it. -/
abbrev Scan := Left → Option Left

def taking (n : Nat) : Scan := fun s =>
  some (if n ≤ s.rest.length then ⟨s.rest.drop n, .yes⟩ else ⟨s.rest, .no⟩)

def sized (size : SizeType) (body : Nat → Scan) : Scan := fun s =>
  match size.decode s.rest with
  | some (n, m) => body n ⟨s.rest.drop m, .yes⟩
  | none => some ⟨s.rest.drop (size.skipped s.rest), .no⟩

def fitting (need : Nat) (body : Scan) : Scan := fun s =>
  if need ≤ s.rest.length then body s else none

def each (element : Scan) : Nat → Scan
  | 0, s => some s
  | n + 1, s => (element s).bind fun s => if s.result = .no then some s else each element n s

/-- A counter of 32 bits does not get to a larger size: the loop goes on while there is input. -/
def listRounds (n : Nat) (s : Left) : Nat := if n < 2 ^ 32 then n else s.rest.length + 1

def andThen (first second : Scan) : Scan := fun s => (first s).bind second

mutual

/-- The walk along a type of strings, vectors, deques, lists, maps and records. Lists and maps
are not allocated for, so that any prefix of theirs will do. -/
def scan (size : SizeType) {k : Kind} {α : Type} : Desc k α → Scan
  | .int w _ => taking w
  | .enum w _ => taking w
  | .bool => taking 1
  | .string => sized size fun n => fitting n (taking n)
  | .scalarVector w _ => sized size fun n => fitting (n * w) (taking (n * w))
  | .scalarArray n w _ => taking (n * w)
  | .boolArray n => taking n
  | .vector e => sized size fun n => fitting n (each (scan size e) n)
  | .deque e => sized size fun n => fitting n (each (scan size e) n)
  | .array n e => each (scan size e) n
  | .list e => sized size fun n s => each (scan size e) (listRounds n s) s
  | .pair a b => andThen (scan size a) (scan size b)
  | .map _ a b => sized size fun n => each (andThen (scan size a) (scan size b)) n
  | .record fields => scanAll size fields
  | _ => fun _ => none

def scanAll (size : SizeType) {n : Nat} {β : Type} : Fields n β → Scan
  | .nil => some
  | .plain e _ others => andThen (scan size e) (scanAll size others)
  | .optional _ _ _ => fun _ => none

end

/-- Every length prefix of a string, vector or deque in the input announces no more than what
is left behind it. -/
def kept (size : SizeType) {k : Kind} {α : Type} (d : Desc k α) (bytes : List UInt8) : Bool :=
  (scan size d ⟨bytes, .no⟩).isSome

/-- What the type alone says of a reading: whether nothing at all is read (a read of no bytes
is a read), whether a byte is taken whenever it succeeds, whether the containers have elements
that do so, more bytes than a refused reading leaves, and a rate of its cost. -/
structure Shape where
  silent : Bool
  advances : Bool
  linear : Bool
  tail : Nat
  rate : Nat

namespace Shape

def once (w : Nat) : Shape := ⟨false, w != 0, true, w, 1⟩

def block : Shape := ⟨false, true, true, 8, 2⟩

def vector (e : Shape) : Shape :=
  ⟨false, true, e.advances && e.linear, 8 + e.tail, 1 + (e.rate + 2) * (2 + e.tail)⟩

def array (n : Nat) (e : Shape) : Shape :=
  ⟨n == 0 || e.silent, n != 0 && e.advances, e.linear, e.tail, (e.rate + 1) * (n + 1)⟩

def list (e : Shape) : Shape :=
  ⟨false, true, e.advances && e.linear, 8 + e.tail, 1 + (e.rate + 1) * 2⟩

/-- The last part that is read at all decides whether a byte is taken. -/
def pair (a b : Shape) : Shape :=
  ⟨a.silent && b.silent, b.advances || a.advances && b.silent, a.linear && b.linear,
    a.tail + b.tail, a.rate + b.rate⟩

def nothing : Shape := ⟨true, false, true, 0, 0⟩

def other : Shape := ⟨false, false, false, 0, 0⟩

end Shape

mutual

def shape {k : Kind} {α : Type} : Desc k α → Shape
  | .int w _ => .once w
  | .enum w _ => .once w
  | .bool => .once 1
  | .string => .block
  | .scalarVector _ _ => .block
  | .scalarArray n w _ => .once (n * w)
  | .boolArray n => .once n
  | .vector e => .vector (shape e)
  | .deque e => .vector (shape e)
  | .array n e => .array n (shape e)
  | .list e => .list (shape e)
  | .pair a b => .pair (shape a) (shape b)
  | .map _ a b => .list (.pair (shape a) (shape b))
  | .record fields => shapeOfAll fields
  | _ => .other

def shapeOfAll {n : Nat} {β : Type} : Fields n β → Shape
  | .nil => .nothing
  | .plain e _ others => .pair (shape e) (shapeOfAll others)
  | .optional _ _ _ => .other

end

structure Shaped (e : Shape) (walk : Scan) : Prop where
  smaller : ∀ {s t}, walk s = some t → t.rest.length ≤ s.rest.length
  still : e.silent = true → ∀ s, walk s = some s
  moves : e.advances = true → ∀ {s t}, walk s = some t → t.result = .yes →
    t.rest.length < s.rest.length
  short : ∀ {s t}, walk s = some t → t.result = .no → t.rest.length < e.tail ∨ t = s

section

variable {size : SizeType} {e : Shape} {walk : Scan} {s t : Left}

theorem taking_cases {n : Nat} (h : taking n s = some t) :
    n ≤ s.rest.length ∧ t = ⟨s.rest.drop n, .yes⟩ ∨ s.rest.length < n ∧ t = ⟨s.rest, .no⟩ := by
  rw [taking, some.injEq] at h
  split at h
  · rename_i there
    exact .inl ⟨there, h.symm⟩
  · rename_i missing
    exact .inr ⟨not_le.mp missing, h.symm⟩

theorem shaped_taking (w : Nat) : Shaped (.once w) (taking w) where
  smaller h := by
    rcases taking_cases h with ⟨-, rfl⟩ | ⟨-, rfl⟩
    · simp
    · exact le_rfl
  still := nofun
  moves pos _ _ h yes := by
    rcases taking_cases h with ⟨there, rfl⟩ | ⟨-, rfl⟩
    · have := Nat.pos_of_ne_zero (bne_iff_ne.mp pos)
      rw [length_drop]
      omega
    · cases yes
  short h no := by
    rcases taking_cases h with ⟨-, rfl⟩ | ⟨missing, rfl⟩
    · cases no
    · exact .inl missing

theorem fitting_some {need : Nat} (h : fitting need walk s = some t) :
    need ≤ s.rest.length ∧ walk s = some t := by
  rw [fitting] at h
  split at h
  · rename_i there
    exact ⟨there, h⟩
  · cases h

theorem decode_pos {bytes : List UInt8} {n m : Nat} (found : size.decode bytes = some (n, m)) :
    0 < m ∧ m ≤ bytes.length := by
  obtain ⟨small, rfl, -⟩ := size.encode_of_decode _ _ _ found
  exact ⟨length_pos_of_ne_nil (size.encode_ne_nil n small), size.decode_length_le found⟩

theorem shaped_sized {body : Nat → Scan} {linear : Bool} (tail : Nat) {rate : Nat}
    (smaller : ∀ {n s t}, body n s = some t → t.rest.length ≤ s.rest.length)
    (short : ∀ {n s t}, body n s = some t → s.result = .yes → t.result = .no →
      t.rest.length < tail) :
    Shaped ⟨false, true, linear, 8 + tail, rate⟩ (sized size body) := by
  have cases {s t : Left} (h : sized size body s = some t) :
      (∃ n m, 0 < m ∧ m ≤ s.rest.length ∧ body n ⟨s.rest.drop m, .yes⟩ = some t) ∨
        t.result = .no ∧ t.rest.length ≤ s.rest.length ∧ t.rest.length < 8 := by
    rw [sized] at h
    split at h
    · rename_i n m found
      exact .inl ⟨n, m, (decode_pos found).1, (decode_pos found).2, h⟩
    · rename_i missing
      cases h
      have few := size.length_lt_of_decode_none missing
      refine .inr ⟨rfl, ?_, ?_⟩
      · simp
      · rw [length_drop]
        omega
  constructor
  · intro s t h
    rcases cases h with ⟨n, m, -, -, walked⟩ | ⟨-, less, -⟩
    · have := smaller walked
      rw [length_drop] at this
      omega
    · exact less
  · nofun
  · intro _ s t h yes
    rcases cases h with ⟨n, m, pos, there, walked⟩ | ⟨no, -⟩
    · have := smaller walked
      rw [length_drop] at this
      omega
    · cases yes.symm.trans no
  · intro s t h no
    rcases cases h with ⟨n, m, -, -, walked⟩ | ⟨-, -, few⟩
    · exact .inl ((short walked rfl no).trans_le (Nat.le_add_left tail 8))
    · exact .inl (few.trans_le (Nat.le_add_right 8 tail))

theorem shaped_block (need : Nat → Nat) :
    Shaped .block (sized size fun n => fitting (need n) (taking (need n))) := by
  apply shaped_sized 0
  · intro n s t h
    exact (shaped_taking _).smaller (fitting_some h).2
  · intro n s t h _ no
    obtain ⟨there, taken⟩ := fitting_some h
    rcases taking_cases taken with ⟨-, rfl⟩ | ⟨missing, -⟩
    · cases no
    · omega

theorem each_succ {n : Nat} (h : each walk (n + 1) s = some t) :
    ∃ u, walk s = some u ∧ (u.result = .no ∧ t = u ∨ u.result = .yes ∧ each walk n u = some t) := by
  obtain ⟨u, element, h⟩ := bind_eq_some_iff.mp h
  refine ⟨u, element, ?_⟩
  cases result : u.result with
  | no =>
    rw [if_pos result] at h
    exact .inl ⟨rfl, (some.inj h).symm⟩
  | yes =>
    rw [if_neg (by rw [result]; nofun)] at h
    exact .inr ⟨rfl, h⟩

theorem each_smaller (h : Shaped e walk) {n : Nat} (walked : each walk n s = some t) :
    t.rest.length ≤ s.rest.length ∧
      (e.advances = true → t.result = .yes → t.rest.length + n ≤ s.rest.length) := by
  induction n generalizing s with
  | zero =>
    cases walked
    exact ⟨le_rfl, fun _ _ => le_rfl⟩
  | succ n ih =>
    obtain ⟨u, element, ⟨no, rfl⟩ | ⟨yes, others⟩⟩ := each_succ walked
    · refine ⟨h.smaller element, ?_⟩
      intro _ yes
      cases no.symm.trans yes
    · obtain ⟨less, all⟩ := ih others
      refine ⟨less.trans (h.smaller element), ?_⟩
      intro advances granted
      have one := h.moves advances element yes
      have others := all advances granted
      omega

theorem each_short (h : Shaped e walk) {n : Nat} (walked : each walk n s = some t)
    (no : t.result = .no) : t.rest.length < e.tail ∨ t = s := by
  induction n generalizing s with
  | zero =>
    cases walked
    exact .inr rfl
  | succ n ih =>
    obtain ⟨u, element, ⟨-, rfl⟩ | ⟨yes, others⟩⟩ := each_succ walked
    · exact h.short element no
    · rcases ih others with few | rfl
      · exact .inl few
      · cases yes.symm.trans no

theorem each_short_of_yes (h : Shaped e walk) {n : Nat} (walked : each walk n s = some t)
    (yes : s.result = .yes) (no : t.result = .no) : t.rest.length < e.tail := by
  rcases each_short h walked no with few | rfl
  · exact few
  · cases yes.symm.trans no

theorem shaped_vector (h : Shaped e walk) :
    Shaped (.vector e) (sized size fun n => fitting n (each walk n)) := by
  apply shaped_sized e.tail
  · intro n s t walked
    exact (each_smaller h (fitting_some walked).2).1
  · intro n s t walked
    exact each_short_of_yes h (fitting_some walked).2

theorem shaped_list (h : Shaped e walk) (rounds : Nat → Left → Nat) :
    Shaped (.list e) (sized size fun n s => each walk (rounds n s) s) := by
  apply shaped_sized e.tail
  · intro n s t walked
    exact (each_smaller h walked).1
  · intro n s t walked
    exact each_short_of_yes h walked

theorem shaped_array (n : Nat) (h : Shaped e walk) : Shaped (.array n e) (each walk n) where
  smaller walked := (each_smaller h walked).1
  still silent s := by
    rcases Bool.or_eq_true_iff.mp silent with none | still
    · obtain rfl : n = 0 := beq_iff_eq.mp none
      rfl
    · clear silent
      induction n with
      | zero => rfl
      | succ n ih =>
        rw [each, h.still still, bind_some, ih]
        exact ite_self _
  moves both s t walked yes := by
    obtain ⟨some, advances⟩ := Bool.and_eq_true_iff.mp both
    have := (each_smaller h walked).2 advances yes
    have := Nat.pos_of_ne_zero (bne_iff_ne.mp some)
    omega
  short := each_short h

theorem shaped_pair {a b : Shape} {first second : Scan} (h1 : Shaped a first)
    (h2 : Shaped b second) : Shaped (.pair a b) (andThen first second) where
  smaller walked := by
    obtain ⟨u, one, two⟩ := Option.bind_eq_some_iff.mp walked
    exact (h2.smaller two).trans (h1.smaller one)
  still both s := by
    obtain ⟨one, two⟩ := Bool.and_eq_true_iff.mp both
    rw [andThen, h1.still one, Option.bind_some, h2.still two]
  moves some s t walked yes := by
    obtain ⟨u, one, two⟩ := Option.bind_eq_some_iff.mp walked
    rcases Bool.or_eq_true_iff.mp some with last | both
    · exact (h2.moves last two yes).trans_le (h1.smaller one)
    · obtain ⟨advances, silent⟩ := Bool.and_eq_true_iff.mp both
      rw [h2.still silent, Option.some.injEq] at two
      obtain rfl := two
      exact h1.moves advances one yes
  short walked no := by
    obtain ⟨u, one, two⟩ := Option.bind_eq_some_iff.mp walked
    rcases h2.short two no with few | rfl
    · exact .inl (few.trans_le (Nat.le_add_left _ _))
    · exact (h1.short one no).imp_left (fun few => few.trans_le (Nat.le_add_right _ _))

theorem shaped_nothing : Shaped .nothing some where
  smaller h := by
    cases h
    exact le_rfl
  still _ _ := rfl
  moves := nofun
  short h _ := .inr (some.inj h).symm

end

end Ae.MStream.Announced
