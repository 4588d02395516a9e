/- source: serial_ports/at_support/at_request.h
   digest: A request counts the lines its waits accept, not the waits that were met. -/

import Ae.SerialPorts.AtDispatcher
import Mathlib.Algebra.Group.Nat.Defs
import Mathlib.Data.List.Perm.Subperm

set_option autoImplicit false

namespace Ae.SerialPorts.AtRequest
open List Lib.EventRun AtBuffer AtDispatcher

variable {σ : Type}

/-- `Wait`: the handler sees the lines from the one that holds the trigger on, and may change
what it shares with others. -/
structure Wait (σ : Type) where
  trigger : Line
  handler : σ → List Line → Bool × σ

/-- `listeners_` and `error_listener_`. -/
inductive Listener where
  | wait (index : Nat)
  | error

inductive Completion where
  | value
  | error (code : Int)
deriving DecidableEq

/-- `AtRequestOp`. The completions of the receiver and the waits of the accepted lines are
histories, oldest first. -/
structure AtRequestOp where
  waitsCounter : Nat
  completions : List Completion := []
  matched : List Nat := []

inductive Event where
  | call (call : Call Listener)
  | sent (result : Except Int Nat)

/-- What reaches the request: the bytes of a read, or the result of its command. A read may come
while the command is sent. -/
inductive Input where
  | read (data : Line)
  | sent (result : Except Int Nat)

def table (waits : List (Wait σ)) : Table Listener :=
  listen [69, 82, 82, 79, 82] .error
    (waits.zipIdx.foldl (fun t w => listen w.1.trigger (.wait w.2) t) [])

def Input.events (waits : List (Wait σ)) : Input → List Event
  | .read data => (observed (lines data) (table waits)).map .call
  | .sent result => [.sent result]

/-- What a received line or the result of the command comes to: a line that the handler of a
wait accepts, an `ERROR` line or a failed command, and a command that was sent. -/
inductive Occurrence where
  | accepted (index : Nat)
  | failed (code : Int)
  | sent
deriving DecidableEq

section

variable (waits : List (Wait σ))

/-- The occurrence of an event, and what the handlers share after it. -/
def occurrence (shared : σ) : Event → Option Occurrence × σ
  | .call ⟨_, some (.wait index), pos⟩ =>
    match waits[index]? with
    | none => (none, shared)
    | some w =>
      let (accepted, shared) := w.handler shared pos
      (if accepted then some (.accepted index) else none, shared)
  | .call ⟨_, some .error, _⟩ => (some (.failed (-1)), shared)
  | .call ⟨_, none, _⟩ => (none, shared)
  | .sent (.error code) => (some (.failed code), shared)
  | .sent (.ok _) => (some .sent, shared)

def occurrences : σ → List Event → List Occurrence
  | _, [] => []
  | shared, e :: events =>
    (occurrence waits shared e).1.toList ++ occurrences (occurrence waits shared e).2 events

end

namespace AtRequestOp

def complete (op : AtRequestOp) (completion : Completion) : AtRequestOp :=
  { op with completions := op.completions ++ [completion] }

def accept (op : AtRequestOp) (index : Nat) : AtRequestOp :=
  let counter := if op.waitsCounter = 0 then 2 ^ 64 - 1 else op.waitsCounter - 1
  let op := { op with waitsCounter := counter, matched := op.matched ++ [index] }
  if counter = 0 then op.complete .value else op

def handle (op : AtRequestOp) : Occurrence → AtRequestOp
  | .accepted index => op.accept index
  | .failed code => op.complete (.error code)
  | .sent => if op.waitsCounter = 0 then op.complete .value else op

end AtRequestOp

open AtRequestOp

/-- The operation beside what its handlers share. -/
def step (waits : List (Wait σ)) (s : σ × AtRequestOp) (e : Event) : σ × AtRequestOp :=
  ((occurrence waits s.1 e).2, (occurrence waits s.1 e).1.elim s.2 s.2.handle)

/-- The receiver is completed once at most, and with success only after each wait was matched. -/
def Once (count : Nat) (op : AtRequestOp) : Prop :=
  op.completions.length ≤ 1 ∧ (.value ∈ op.completions → ∀ index < count, index ∈ op.matched)

def accepted (heard : List Occurrence) : List Nat :=
  heard.filterMap fun | .accepted index => some index | _ => none

def Occurrence.isFailed : Occurrence → Bool
  | .failed _ => true
  | _ => false

/-- The accepted lines and sent commands that find exactly `count` lines accepted. -/
def atCount (count : Nat) (heard : List Occurrence) : Nat :=
  heard.inits.countP fun p =>
    p.getLast?.any (fun o => !o.isFailed) && (accepted p).length = count

/-- Of the failures, the accepted line that is the last needed, and a command sent after it, only
one comes; and the accepted lines, when they are as many as the waits, are of different waits. -/
structure Orderly (count : Nat) (heard : List Occurrence) : Prop where
  single : heard.countP Occurrence.isFailed + atCount count heard ≤ 1
  distinct : ∀ p ∈ heard.inits, (accepted p).length = count → (accepted p).Nodup

section

variable {waits : List (Wait σ)} {count : Nat} {heard : List Occurrence}

/-- Only the occurrences count for the receiver. -/
theorem always_once_iff (s : σ × AtRequestOp) (events : List Event) :
    Always (step waits) (fun s => Once count s.2) s events ↔
      Always handle (Once count) s.2 (occurrences waits s.1 events) := by
  induction events generalizing s with
  | nil => rfl
  | cons e events ih =>
    rw [Always, ih, occurrences]
    cases found : (occurrence waits s.1 e).1 with
    | none =>
      simp only [step, found, Option.elim, Option.toList, nil_append]
      exact and_iff_right_of_imp fun later => later.head
    | some o => simp only [step, found, Option.elim, Option.toList, cons_append, nil_append, Always]

theorem atCount_append (p : List Occurrence) (o : Occurrence) :
    atCount count (p ++ [o]) = atCount count p +
      if o.isFailed = false ∧ (accepted (p ++ [o])).length = count then 1 else 0 := by
  rw [atCount, inits_append, countP_append, atCount]
  simp [inits, countP_cons]

theorem atCount_pos {p : List Occurrence} (some : 0 < count) (all : (accepted p).length = count) :
    0 < atCount count p := by
  induction p using reverseRecOn with
  | nil => exact absurd all some.ne
  | append_singleton p o ih =>
    rw [atCount_append]
    cases o with
    | failed code =>
      have before : (accepted p).length = count := by simpa [accepted] using all
      exact (ih before).trans_le (Nat.le_add_right ..)
    | accepted index | sent => simp [Occurrence.isFailed, all]

/-- The counter after `k` accepted lines, which wraps once. -/
def remaining (count k : Nat) : Nat := if k ≤ count then count - k else 2 ^ 64 + count - k

theorem remaining_eq_zero_iff {k : Nat} (few : k < 2 ^ 64) : remaining count k = 0 ↔ k = count := by
  rw [remaining]
  split <;> omega

theorem remaining_succ {k : Nat} (few : k + 1 < 2 ^ 64) :
    (if remaining count k = 0 then 2 ^ 64 - 1 else remaining count k - 1) =
      remaining count (k + 1) := by
  rw [remaining, remaining]
  split_ifs <;> omega

/-- The state after fewer than `2 ^ 64` occurrences, in which the counter comes to 0 once. -/
structure Reached (count : Nat) (heard : List Occurrence) (op : AtRequestOp) : Prop where
  counter : op.waitsCounter = remaining count (accepted heard).length
  matched : op.matched = accepted heard
  completed : op.completions.length = heard.countP Occurrence.isFailed + atCount count heard
  success : .value ∈ op.completions ↔ 0 < atCount count heard

theorem Reached.handle {op : AtRequestOp} (h : Reached count heard op)
    (few : heard.length + 1 < 2 ^ 64) (o : Occurrence) :
    Reached count (heard ++ [o]) (op.handle o) := by
  have bound : (accepted heard).length ≤ heard.length := length_filterMap_le ..
  obtain ⟨counter, matched, completed, success⟩ := h
  cases o with
  | failed code =>
    have same : accepted (heard ++ [.failed code]) = accepted heard := by simp [accepted]
    constructor <;> simp [AtRequestOp.handle, complete, same, atCount_append, Occurrence.isFailed,
      counter, matched, completed, success, Nat.add_right_comm]
  | sent =>
    have same : accepted (heard ++ [.sent]) = accepted heard := by simp [accepted]
    have zero : op.waitsCounter = 0 ↔ (accepted heard).length = count :=
      counter ▸ remaining_eq_zero_iff (by omega)
    rw [AtRequestOp.handle]
    split
    · next none =>
      constructor <;> simp [complete, same, atCount_append, Occurrence.isFailed, zero.mp none,
        counter, matched, completed, Nat.add_assoc]
    · next some =>
      constructor <;> simp [same, atCount_append, Occurrence.isFailed, mt zero.mpr some, counter,
        matched, completed, success]
  | accepted index =>
    have more : accepted (heard ++ [.accepted index]) = accepted heard ++ [index] := by
      simp [accepted]
    have zero : remaining count ((accepted heard).length + 1) = 0 ↔
        (accepted heard).length + 1 = count := remaining_eq_zero_iff (by omega)
    rw [AtRequestOp.handle, accept, counter, remaining_succ (by omega)]
    split
    · next none =>
      constructor <;> simp [complete, more, atCount_append, Occurrence.isFailed, zero.mp none,
        matched, completed, Nat.add_assoc]
    · next some =>
      constructor <;> simp [more, atCount_append, Occurrence.isFailed, mt zero.mpr some, matched,
        completed, success]

variable (count) in
theorem reached (few : heard.length < 2 ^ 64) :
    Reached count heard (run handle ⟨count, [], []⟩ heard) := by
  induction heard using reverseRecOn with
  | nil => constructor <;> simp [run, accepted, atCount, remaining]
  | append_singleton heard o ih =>
    rw [length_append, length_singleton] at few
    rw [run, foldl_append]
    exact (ih (by omega)).handle few o

/-- Accepted lines that are as many as the waits and of every wait are of different ones. -/
theorem nodup_of_all {l : List Nat} (length : l.length = count) (all : ∀ i < count, i ∈ l) :
    l.Nodup := by
  have within : range count ⊆ l := fun i hi => all i (mem_range.mp hi)
  have perm := (subperm_of_subset (nodup_range (n := count)) within).perm_of_length_le
    (by simp [length])
  exact perm.nodup_iff.mp nodup_range

theorem mem_of_nodup {l : List Nat} (length : l.length = count) (distinct : l.Nodup)
    (known : ∀ i ∈ l, i < count) : ∀ i < count, i ∈ l := by
  have within : l ⊆ range count := fun i hi => mem_range.mpr (known i hi)
  have perm := (subperm_of_subset distinct within).perm_of_length_le (by simp [length])
  exact fun i hi => perm.mem_iff.mpr (mem_range.mpr hi)

theorem always_handle_iff (few : heard.length < 2 ^ 64) (known : ∀ i ∈ accepted heard, i < count) :
    Always handle (Once count) ⟨count, [], []⟩ heard ↔ Orderly count heard := by
  have reach : ∀ p, p <+: heard → Reached count p (run handle ⟨count, [], []⟩ p) :=
    fun p hp => reached count (hp.length_le.trans_lt few)
  rw [always_iff_prefixes]
  constructor
  · intro once
    refine ⟨?_, fun p hp all => ?_⟩
    · rw [← (reach heard prefix_rfl).completed]
      exact (once heard prefix_rfl).1
    · rw [mem_inits] at hp
      rcases Nat.eq_zero_or_pos count with none | some
      · rw [length_eq_zero_iff.mp (all.trans none)]
        exact nodup_nil
      · refine nodup_of_all all ?_
        rw [← (reach p hp).matched]
        exact (once p hp).2 ((reach p hp).success.mpr (atCount_pos some all))
  · intro orderly p hp
    refine ⟨?_, fun value => ?_⟩
    · rw [(reach p hp).completed]
      have single := orderly.single
      obtain ⟨rest, rfl⟩ := hp
      rw [atCount, inits_append, countP_append, countP_append] at single
      rw [atCount]
      omega
    · obtain ⟨q, hq, last⟩ := countP_pos_iff.mp ((reach p hp).success.mp value)
      have all : (accepted q).length = count := by simpa using (Bool.and_eq_true_iff.mp last).2
      have before : q <+: p := (mem_inits q p).mp hq
      have distinct := orderly.distinct q ((mem_inits q heard).mpr (before.trans hp)) all
      have known : ∀ i ∈ accepted q, i < count :=
        fun i hi => known i (((before.trans hp).filterMap _).subset hi)
      intro i hi
      rw [(reach p hp).matched]
      exact (before.filterMap _).subset (mem_of_nodup all distinct known i hi)

variable (waits) in
theorem lt_of_mem_accepted (shared : σ) (events : List Event) :
    ∀ i ∈ accepted (occurrences waits shared events), i < waits.length := by
  induction events generalizing shared with
  | nil => simp [occurrences, accepted]
  | cons e events ih =>
    intro i hi
    rw [occurrences, accepted, filterMap_append, mem_append] at hi
    refine hi.elim (fun here => ?_) (ih _ i)
    obtain ⟨o, ho, kind⟩ := mem_filterMap.mp here
    cases o with
    | failed code | sent => cases kind
    | accepted index =>
      obtain rfl : index = i := Option.some.inj kind
      rw [Option.mem_toList] at ho
      match e with
      | .call ⟨_, some (.wait k), pos⟩ =>
        rw [occurrence] at ho
        cases found : waits[k]? with
        | none => simp [found] at ho
        | some w =>
          simp only [found] at ho
          split at ho
          · obtain rfl : k = index := by simpa using ho
            exact (List.getElem?_eq_some_iff.mp found).1
          · cases ho
      | .call ⟨_, some .error, _⟩ | .call ⟨_, none, _⟩ | .sent (.error _) | .sent (.ok _) =>
        simp [occurrence] at ho

/-- Of fewer than `2 ^ 64` lines and results, the receiver is completed once at most, and with
success only after each wait was matched, exactly when they come in order. -/
theorem request_completes_once_iff (waits : List (Wait σ)) (shared : σ) (inputs : List Input)
    (few : (occurrences waits shared (inputs.flatMap (Input.events waits))).length < 2 ^ 64) :
    Always (step waits) (fun s => Once waits.length s.2) (shared, ⟨waits.length, [], []⟩)
        (inputs.flatMap (Input.events waits)) ↔
      Orderly waits.length (occurrences waits shared (inputs.flatMap (Input.events waits))) := by
  rw [always_once_iff]
  exact always_handle_iff few (lt_of_mem_accepted waits shared _)

end

def okWaits : List (Wait Unit) := [⟨[79], fun _ _ => (true, ())⟩, ⟨[75], fun _ _ => (true, ())⟩]

theorem heard_okWaits : occurrences okWaits ()
    ([.sent (.ok 2), .read [75], .read [79]].flatMap (Input.events okWaits)) =
      [.sent, .accepted 1, .accepted 0] := by
  have first : lines [75] = [[75]] := lines_clean (by decide)
  have second : lines [79] = [[79]] := lines_clean (by decide)
  simp only [flatMap_cons, flatMap_nil, Input.events, first, second]
  decide

/-- The command is sent, and then a line for each of the two waits is accepted. -/
theorem both_waits_complete_once : Always (step okWaits) (fun s => Once 2 s.2) ((), ⟨2, [], []⟩)
    ([.sent (.ok 2), .read [75], .read [79]].flatMap (Input.events okWaits)) := by
  refine (request_completes_once_iff okWaits () _ ?_).mpr ?_
  · rw [heard_okWaits]
    decide
  · rw [heard_okWaits]
    constructor <;> decide

/-- Two lines for the first of two waits complete the request with success. -/
theorem repeated_line_succeeds :
    let op := (run (step okWaits) ((), ⟨2, [], []⟩)
      ([.read [79], .read [79]].flatMap (Input.events okWaits))).2
    op.completions = [.value] ∧ op.matched = [0, 0] := by
  have line : lines [79] = [[79]] := lines_clean (by decide)
  simp only [flatMap_cons, flatMap_nil, Input.events, line]
  decide

end Ae.SerialPorts.AtRequest
