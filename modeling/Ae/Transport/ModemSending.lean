/- source: transport/modems/modem_transport.cpp, write_action/write_action.h
   digest: An immediate result ends the loop over the chunks, and a refusal can turn to success. -/

import Ae.Transport.TcpSending

set_option autoImplicit false

namespace Ae.Transport.ModemSending
open List Lib.EventRun
open TcpSending (Status)

def kMaxPacketSize : Nat := 1024

/-- What `WritePacket` gives: no operation, one that has its result, or one that completes
later. -/
inductive WriteOperation where
  | refused
  | immediate (ok : Bool)
  | later
deriving DecidableEq

/-- `taskSub` is the status that the task of `SetStatus` will emit, and `reported` what was emitted.
`offered` are the chunks given to `WritePacket`, and `results` the results of the operations it
gave, in their order. -/
structure SendTcpAction where
  data : List UInt8
  isDone : Bool
  inProgress : Bool
  packetsOnTheGo : Nat
  taskSub : Option Status
  reported : List Status
  offered : List (List UInt8)
  results : List (Option Bool)
deriving DecidableEq

/-- A further `Send` of the queue, the result of an operation, and the task of `SetStatus`. -/
inductive Event where
  | send
  | completed (i : Nat) (ok : Bool)
  | task
deriving DecidableEq

/-- The chunks of the loop, with its number of turns bounded by the fuel. -/
def chunksWithin (size : Nat) : Nat → List UInt8 → List (List UInt8)
  | 0, _ => []
  | fuel + 1, data =>
    if data = [] then [] else data.take size :: chunksWithin size fuel (data.drop size)

def chunks (data : List UInt8) : List (List UInt8) := chunksWithin kMaxPacketSize data.length data

namespace SendTcpAction

def make (data : List UInt8) : SendTcpAction := ⟨data, false, false, 0, none, [], [], []⟩

variable (s : SendTcpAction)

def setStatus (status : Status) : SendTcpAction :=
  { s with isDone := true, taskSub := some status }

def resultHandler (ok : Bool) : SendTcpAction :=
  if ok then
    let s := { s with packetsOnTheGo := s.packetsOnTheGo - 1 }
    if s.packetsOnTheGo = 0 then s.setStatus .success else s
  else s.setStatus .fail

def submit (chunk : List UInt8) : SendTcpAction :=
  { s with
    packetsOnTheGo := s.packetsOnTheGo + 1
    offered := s.offered ++ [chunk]
    results := s.results ++ [none] }

def refuse (chunk : List UInt8) : SendTcpAction :=
  { s with offered := s.offered ++ [chunk] }.setStatus .fail

def complete (i : Nat) (ok : Bool) : SendTcpAction :=
  { s with results := s.results.set i (some ok) }.resultHandler ok

/-- The loop of `Send`; `driver` gives the operation for each chunk by its position. -/
def sendChunks (driver : Nat → WriteOperation) :
    SendTcpAction → List (List UInt8) → SendTcpAction
  | s, [] => s
  | s, chunk :: rest =>
    match driver s.offered.length with
    | .refused => s.refuse chunk
    | .immediate ok => (s.submit chunk).complete s.results.length ok
    | .later => sendChunks driver (s.submit chunk) rest

variable (driver : Nat → WriteOperation)

def send (s : SendTcpAction) : SendTcpAction :=
  if s.inProgress then s
  else sendChunks driver { s with inProgress := true } (chunks s.data)

def sent (data : List UInt8) : SendTcpAction :=
  (make data).send driver

def step (s : SendTcpAction) : Event → SendTcpAction
  | .send => s.send driver
  | .completed i ok => if s.results[i]? = some none then s.complete i ok else s
  | .task =>
    match s.taskSub with
    | none => s
    | some status => { s with taskSub := none, reported := s.reported ++ [status] }

end SendTcpAction

open SendTcpAction

def Refused (s : SendTcpAction) : Prop := s.results.length < s.offered.length

def Covers (s : SendTcpAction) : Prop :=
  ∃ rest, chunks s.data = s.offered ++ rest ∧ (rest = [] ∨ Refused s)

/-- Success is reported, or the task that reports it is enqueued. -/
def SaysSuccess (s : SendTcpAction) : Prop :=
  .success ∈ s.reported ∨ s.taskSub = some .success

/-- What an action that was sent owes. -/
structure Truthful (s : SendTcpAction) : Prop where
  /-- The chunks are offered in order, all of them unless one is refused. -/
  covers : Covers s
  /-- Success means that all bytes were submitted and all operations succeeded. -/
  success : SaysSuccess s →
    (s.offered.take s.results.length).flatten = s.data ∧ ∀ result ∈ s.results, result = some true
  /-- The action is done when all operations have completed. -/
  done : (∀ result ∈ s.results, result ≠ none) → s.isDone = true

/-- No chunk but the last one completes immediately where the loop comes to it. -/
def Uninterrupted (driver : Nat → WriteOperation) (data : List UInt8) : Prop :=
  ∀ i, i + 1 < (chunks data).length → (∀ j < i, driver j = .later) → ∀ ok, driver i ≠ .immediate ok

/-- After a refusal the last outstanding operation does not complete with success. -/
def StaysFailed (s : SendTcpAction) : Event → Prop
  | .completed i true => Refused s → s.results[i]? = some none → s.packetsOnTheGo ≠ 1
  | _ => True

section

variable {size : Nat}

theorem chunksWithin_flatten (hp : 0 < size) (fuel : Nat) (data : List UInt8)
    (he : data.length ≤ fuel) : (chunksWithin size fuel data).flatten = data := by
  induction fuel generalizing data with
  | zero => exact (length_eq_zero_iff.mp (Nat.le_zero.mp he)).symm
  | succ fuel ih =>
    rw [chunksWithin]
    split
    · next hh => exact hh.symm
    · next hn =>
      have hs : (data.drop size).length ≤ fuel := by
        have hsd := length_pos_iff.mpr hn
        rw [length_drop]
        omega
      rw [flatten_cons, ih _ hs, take_append_drop]

theorem chunksWithin_ne_nil (hp : 0 < size) (fuel : Nat) (data c : List UInt8)
    (hm : c ∈ chunksWithin size fuel data) : c ≠ [] := by
  induction fuel generalizing data with
  | zero => exact absurd hm not_mem_nil
  | succ fuel ih =>
    rw [chunksWithin] at hm
    split at hm
    · exact absurd hm not_mem_nil
    · next hn =>
      rcases mem_cons.mp hm with rfl | later
      · rw [Ne, take_eq_nil_iff, not_or]
        exact ⟨hp.ne', hn⟩
      · exact ih _ later

theorem chunks_flatten (data : List UInt8) : (chunks data).flatten = data :=
  chunksWithin_flatten (by decide) _ data le_rfl

theorem chunks_eq_nil_iff (data : List UInt8) : chunks data = [] ↔ data = [] := by
  constructor
  · intro hn
    rw [← chunks_flatten data, hn]
    rfl
  · rintro rfl
    rfl

theorem ne_nil_of_split {data c : List UInt8} {f rest : List (List UInt8)}
    (hs : chunks data = f ++ c :: rest) : data ≠ [] := by
  rw [Ne, ← chunks_eq_nil_iff, hs]
  exact append_ne_nil_of_right_ne_nil _ (cons_ne_nil c rest)

end

section

variable {driver : Nat → WriteOperation}

def opened (data : List UInt8) (front : List (List UInt8)) : SendTcpAction :=
  ⟨data, false, true, front.length, none, [], front, List.replicate front.length none⟩

theorem opened_submit (data : List UInt8) (f : List (List UInt8)) (c : List UInt8) :
    (opened data f).submit c = opened data (f ++ [c]) := by
  simp [opened, submit, replicate_succ']

/-- How the first `Send` can end: with all chunks waiting, at a refused chunk, or at a chunk with
an immediate result. -/
inductive Sent (driver : Nat → WriteOperation) (data : List UInt8) : SendTcpAction → Prop where
  | whole : (∀ j < (chunks data).length, driver j = .later) →
      Sent driver data (opened data (chunks data))
  | refused (front : List (List UInt8)) (chunk : List UInt8) (rest : List (List UInt8)) :
      chunks data = front ++ chunk :: rest →
      (∀ j < front.length, driver j = .later) → driver front.length = .refused →
      Sent driver data ((opened data front).refuse chunk)
  | immediate (front : List (List UInt8)) (chunk : List UInt8) (rest : List (List UInt8))
      (ok : Bool) : chunks data = front ++ chunk :: rest →
      (∀ j < front.length, driver j = .later) → driver front.length = .immediate ok →
      Sent driver data ((opened data (front ++ [chunk])).complete front.length ok)

theorem sent_sendChunks {data : List UInt8} (f rest : List (List UInt8))
    (hs : chunks data = f ++ rest) (hw : ∀ j < f.length, driver j = .later) :
    Sent driver data (sendChunks driver (opened data f) rest) := by
  induction rest generalizing f with
  | nil =>
    rw [append_nil] at hs
    rw [sendChunks, ← hs]
    exact .whole (hs ▸ hw)
  | cons c rest ih =>
    rw [sendChunks]
    have hp : (opened data f).offered.length = f.length := rfl
    have hr : (opened data f).results.length = f.length := length_replicate
    rw [hp, hr, opened_submit]
    cases operation : driver f.length with
    | refused => exact .refused f c rest hs hw operation
    | immediate ok => exact .immediate f c rest ok hs hw operation
    | later =>
      refine ih (f ++ [c]) (by rw [hs]; simp) fun j hb => ?_
      rw [length_append, length_singleton] at hb
      rcases Nat.lt_succ_iff_lt_or_eq.mp hb with he | rfl
      · exact hw j he
      · exact operation

theorem sent_cases (driver : Nat → WriteOperation) (data : List UInt8) :
    Sent driver data (sent driver data) :=
  sent_sendChunks [] _ rfl fun j hb => absurd hb (Nat.not_lt_zero j)

theorem uninterrupted_iff_of_immediate {data : List UInt8} {f rest : List (List UInt8)}
    {c : List UInt8} {ok : Bool} (hs : chunks data = f ++ c :: rest)
    (hw : ∀ j < f.length, driver j = .later)
    (ho : driver f.length = .immediate ok) : Uninterrupted driver data ↔ rest = [] := by
  have hc : (chunks data).length = f.length + (rest.length + 1) := by
    rw [hs, length_append, length_cons]
  constructor
  · intro hu
    by_contra more
    have hsr := length_pos_iff.mpr more
    exact hu f.length (by omega) hw ok ho
  · rintro rfl i hb _ o hn
    rw [length_nil] at hc
    rw [hw i (by omega)] at hn
    exact WriteOperation.noConfusion hn

end

variable {i : Nat}

section

variable {s : SendTcpAction}

theorem reported_of_fail (hc : SaysSuccess (s.setStatus .fail)) : .success ∈ s.reported :=
  hc.resolve_right fun he => Status.noConfusion (Option.some.inj he)

structure Tracked (s : SendTcpAction) : Prop where
  started : s.inProgress = true
  /-- A failed operation stays on the go. -/
  counted : s.packetsOnTheGo = s.results.countP (· ≠ some true)
  failed : some false ∈ s.results → s.isDone = true
  announced : SaysSuccess s → s.packetsOnTheGo = 0
  settled : s.results ≠ [] → (∀ result ∈ s.results, result ≠ none) → s.isDone = true

theorem Tracked.all_succeeded_iff (ht : Tracked s) :
    s.packetsOnTheGo = 0 ↔ ∀ r ∈ s.results, r = some true := by
  rw [ht.counted, countP_eq_zero]
  simp

theorem Tracked.not_saysSuccess (ht : Tracked s) (ho : s.results[i]? = some none) :
    ¬SaysSuccess s := by
  intro hc
  have hs := ht.all_succeeded_iff.mp (ht.announced hc) none (mem_of_getElem? ho)
  exact Option.some_ne_none true hs.symm

theorem Tracked.countP_set (ht : Tracked s) (ho : s.results[i]? = some none)
    (ok : Bool) : (s.results.set i (some ok)).countP (· ≠ some true) =
      s.packetsOnTheGo - 1 + (if ok then 0 else 1) := by
  obtain ⟨hw, hi⟩ := List.getElem?_eq_some_iff.mp ho
  rw [List.countP_set hw, ← ht.counted, hi]
  cases ok <;> rfl

theorem Tracked.one_le (ht : Tracked s) (ho : s.results[i]? = some none) :
    1 ≤ s.packetsOnTheGo := by
  rw [ht.counted]
  exact countP_pos_iff.mpr ⟨none, mem_of_getElem? ho, by decide⟩

inductive Completion (s : SendTcpAction) (i : Nat) : Bool → SendTcpAction → Prop where
  | error : Completion s i false
      ({ s with results := s.results.set i (some false) }.setStatus .fail)
  | last : s.packetsOnTheGo = 1 → Completion s i true ({ s with
        results := s.results.set i (some true)
        packetsOnTheGo := 0 }.setStatus .success)
  | ok (n : Nat) : s.packetsOnTheGo = n + 2 → Completion s i true
      { s with results := s.results.set i (some true), packetsOnTheGo := n + 1 }

theorem Tracked.completion (ht : Tracked s) (ho : s.results[i]? = some none)
    (ok : Bool) : Completion s i ok (s.complete i ok) := by
  have hp := ht.one_le ho
  rw [complete, resultHandler]
  cases ok with
  | false => exact .error
  | true =>
    rw [if_pos rfl]
    obtain one | ⟨n, hm⟩ : s.packetsOnTheGo = 1 ∨ ∃ n, s.packetsOnTheGo = n + 2 := by
      rcases Nat.lt_or_ge 1 s.packetsOnTheGo with hmn | one
      · exact .inr ⟨s.packetsOnTheGo - 2, by omega⟩
      · exact .inl (by omega)
    · simp only [one, Nat.sub_self, if_true]
      exact .last one
    · simp only [hm, Nat.add_succ_sub_one, Nat.succ_ne_zero, if_false]
      exact .ok n hm

theorem Tracked.complete (ht : Tracked s) (ho : s.results[i]? = some none)
    (ok : Bool) : Tracked (s.complete i ok) := by
  have hc := ht.countP_set ho ok
  have hp := ht.one_le ho
  have hs := ht.not_saysSuccess ho
  have hot := ht.completion ho ok
  generalize s.complete i ok = t at hot ⊢
  cases hot with
  | error =>
    refine ⟨ht.started, ?_, fun _ => rfl, fun hcl => ?_, fun _ _ => rfl⟩
    · exact (Nat.sub_add_cancel hp).symm.trans hc.symm
    · exact absurd (.inl (reported_of_fail hcl)) hs
  | last one =>
    refine ⟨ht.started, ?_, fun _ => rfl, fun _ => rfl, fun _ _ => rfl⟩
    rw [one] at hc
    exact hc.symm
  | ok n hm =>
    have hfb : some false ∈ s.results.set i (some true) → s.isDone = true := by
      intro hf
      rcases mem_or_eq_of_mem_set hf with hb | same
      · exact ht.failed hb
      · exact absurd (Option.some.inj same) Bool.false_ne_true
    refine ⟨ht.started, ?_, fun hf => ?_, fun hcl => absurd hcl hs, fun _ hcm => ?_⟩
    · rw [hm] at hc
      exact hc.symm
    · exact hfb hf
    · -- Some operation has not succeeded, and none is outstanding.
      have hso : 0 < (s.results.set i (some true)).countP (· ≠ some true) := by
        rw [hc, hm]
        exact Nat.succ_pos _
      obtain ⟨r, mem, hu⟩ := countP_pos_iff.mp hso
      have hf : some false ∈ s.results.set i (some true) := by
        match r with
        | none => exact absurd rfl (hcm none mem)
        | some true => exact absurd rfl (of_decide_eq_true hu)
        | some false => exact mem
      exact hfb hf

theorem not_saysSuccess_opened (data : List UInt8) (f : List (List UInt8)) :
    ¬SaysSuccess (opened data f) := by
  rintro (hr | enqueued)
  · exact absurd hr not_mem_nil
  · exact absurd enqueued.symm (Option.some_ne_none Status.success)

theorem tracked_opened (data : List UInt8) (f : List (List UInt8)) :
    Tracked (opened data f) := by
  refine ⟨rfl, ?_, fun hf => ?_, fun hcl => ?_, fun hn hc => ?_⟩
  · simp [opened, countP_replicate]
  · exact absurd (eq_of_mem_replicate hf) (Option.some_ne_none false)
  · exact absurd hcl (not_saysSuccess_opened data f)
  · obtain ⟨r, hm⟩ := exists_mem_of_ne_nil _ hn
    exact absurd (eq_of_mem_replicate hm) (hc r hm)

end

section

variable {driver : Nat → WriteOperation} {s t : SendTcpAction}

theorem submitted_iff (hc : Covers s) :
    (s.offered.take s.results.length).flatten = s.data ↔ ¬Refused s := by
  obtain ⟨rest, hs, hrs⟩ := hc
  constructor
  · intro all hr
    -- The refused chunk is not empty, and it is missing.
    let missing := s.offered.drop s.results.length ++ rest
    have hp : chunks s.data = s.offered.take s.results.length ++ missing := by
      rw [hs, ← append_assoc, take_append_drop]
    have hw := congrArg flatten hp
    rw [chunks_flatten, flatten_append, all, self_eq_append_right] at hw
    have hwt : s.results.length < s.offered.length := hr
    have hm : s.offered[s.results.length] ∈ missing :=
      mem_append_left _ (mem_drop_iff_getElem.mpr ⟨0, by omega, by simp⟩)
    have hch : s.offered[s.results.length] ∈ chunks s.data :=
      hp ▸ mem_append_right _ hm
    exact chunksWithin_ne_nil (by decide) _ _ _ hch (flatten_eq_nil_iff.mp hw _ hm)
  · intro ha
    rw [hrs.resolve_right ha, append_nil] at hs
    rw [take_of_length_le (not_lt.mp ha), ← hs, chunks_flatten]

theorem Tracked.truthful_iff (ht : Tracked s) (hcv : Covers s) :
    Truthful s ↔ (SaysSuccess s → ¬Refused s) ∧ (s.results = [] → s.isDone = true) := by
  constructor
  · rintro ⟨-, hs, hd⟩
    refine ⟨fun hc => (submitted_iff hcv).mp (hs hc).1, fun hn => hd ?_⟩
    rw [hn]
    exact fun r hm => absurd hm not_mem_nil
  · rintro ⟨ha, hi⟩
    refine ⟨hcv, fun hc => ?_, fun hcm => ?_⟩
    · exact ⟨(submitted_iff hcv).mpr (ha hc), ht.all_succeeded_iff.mp (ht.announced hc)⟩
    · by_cases hn : s.results = []
      · exact hi hn
      · exact ht.settled hn hcm

theorem Truthful.of_frame (ht : Truthful s) (htr : Tracked t) (data : t.data = s.data)
    (ho : t.offered = s.offered) (hr : t.results.length = s.results.length)
    (hd : s.isDone = true → t.isDone = true) : Truthful t ↔ (SaysSuccess t → ¬Refused s) := by
  have he : Refused t ↔ Refused s := by rw [Refused, Refused, ho, hr]
  have hc : Covers t := by
    rw [Covers, data, ho, he]
    exact ht.covers
  rw [htr.truthful_iff hc, he]
  refine and_iff_left fun hn => hd (ht.done fun r hm => ?_)
  rw [hn] at hr
  rw [length_eq_zero_iff.mp hr.symm] at hm
  exact absurd hm not_mem_nil

theorem Truthful.complete_iff (ht : Truthful s) (htr : Tracked s)
    (ho : s.results[i]? = some none) (ok : Bool) :
    Truthful (s.complete i ok) ↔ (ok = true → Refused s → s.packetsOnTheGo ≠ 1) := by
  have hs := htr.not_saysSuccess ho
  have ha := htr.complete ho ok
  have hot := htr.completion ho ok
  generalize s.complete i ok = t at hot ha ⊢
  cases hot with
  | error =>
    rw [ht.of_frame ha rfl rfl length_set fun _ => rfl]
    exact iff_of_true (fun hc => absurd (.inl (reported_of_fail hc)) hs)
      fun hw => absurd hw Bool.false_ne_true
  | last one =>
    rw [ht.of_frame ha rfl rfl length_set fun _ => rfl]
    have hc : SaysSuccess ({ s with
        results := s.results.set i (some true)
        packetsOnTheGo := 0 }.setStatus .success) := .inr rfl
    exact ⟨fun hac _ hr => absurd hr (hac hc), fun hst _ hr => hst rfl hr one⟩
  | ok n hm =>
    rw [ht.of_frame ha rfl rfl length_set id]
    exact iff_of_true (fun hc => absurd hc hs) fun _ _ one => by omega

variable (driver s) in
theorem task_fields : (s.step driver .task).data = s.data ∧
    (s.step driver .task).offered = s.offered ∧ (s.step driver .task).results = s.results ∧
      (s.step driver .task).isDone = s.isDone := by
  rw [step]
  split <;> exact ⟨rfl, rfl, rfl, rfl⟩

variable (driver) in
theorem task_frame (ht : Tracked s) :
    Tracked (s.step driver .task) ∧ (SaysSuccess (s.step driver .task) ↔ SaysSuccess s) := by
  rw [step]
  cases enqueued : s.taskSub with
  | none => exact ⟨ht, .rfl⟩
  | some st =>
    have he : SaysSuccess { s with taskSub := none, reported := s.reported ++ [st] } ↔
        SaysSuccess s := by
      simp only [SaysSuccess, enqueued, mem_append, mem_singleton, Option.some_inj,
        reduceCtorEq, or_false]
      exact or_congr_right eq_comm
    refine ⟨⟨ht.started, ht.counted, ht.failed, ?_, ht.settled⟩, he⟩
    exact fun hc => ht.announced (he.mp hc)

theorem Tracked.step (ht : Tracked s) (e : Event) : Tracked (s.step driver e) := by
  cases e with
  | send =>
    rw [SendTcpAction.step, send, if_pos ht.started]
    exact ht
  | completed i ok =>
    rw [SendTcpAction.step]
    split
    · next ho => exact ht.complete ho ok
    · exact ht
  | task => exact (task_frame driver ht).1

theorem Truthful.step_iff (ht : Truthful s) (htr : Tracked s) (e : Event) :
    Truthful (s.step driver e) ↔ StaysFailed s e := by
  cases e with
  | send =>
    rw [step, send, if_pos htr.started]
    exact iff_of_true ht trivial
  | completed i ok =>
    rw [step]
    split
    · next ho =>
      rw [ht.complete_iff htr ho]
      cases ok with
      | false => exact iff_of_true (fun hw => absurd hw Bool.false_ne_true) trivial
      | true => exact ⟨fun hs hr _ => hs rfl hr, fun hs _ hr => hs hr ho⟩
    · next hi =>
      refine iff_of_true ht ?_
      cases ok with
      | false => trivial
      | true => exact fun _ ho => absurd ho hi
  | task =>
    refine iff_of_true ?_ trivial
    obtain ⟨ha, he⟩ := task_frame driver htr
    obtain ⟨data, hof, hrs, hd⟩ := task_fields driver s
    refine (ht.of_frame ha data hof (congrArg length hrs) fun hb => hd.trans hb).mpr fun hc => ?_
    exact (submitted_iff ht.covers).mp (ht.success (he.mp hc)).1

end

section

variable {driver : Nat → WriteOperation} {data : List UInt8}

theorem tracked_refuse (f : List (List UInt8)) (c : List UInt8) :
    Tracked ((opened data f).refuse c) := by
  have ht := tracked_opened data f
  exact ⟨rfl, ht.counted, fun _ => rfl,
    fun hc => absurd (reported_of_fail hc) not_mem_nil, fun _ _ => rfl⟩

theorem opened_last (f : List (List UInt8)) (c : List UInt8) :
    (opened data (f ++ [c])).results[f.length]? = some none := by
  simp [opened]

theorem tracked_sent (driver : Nat → WriteOperation) (data : List UInt8) :
    Tracked (sent driver data) := by
  have ho := sent_cases driver data
  generalize sent driver data = s at ho ⊢
  cases ho with
  | whole => exact tracked_opened data _
  | refused f c => exact tracked_refuse f c
  | immediate f c rest ok =>
    exact (tracked_opened data _).complete (opened_last f c) ok

theorem truthful_opened_iff : Truthful (opened data (chunks data)) ↔ data ≠ [] := by
  rw [(tracked_opened data _).truthful_iff ⟨[], (append_nil _).symm, .inl rfl⟩,
    and_iff_right fun hc => absurd hc (not_saysSuccess_opened data _)]
  have he : (opened data (chunks data)).results = [] ↔ data = [] := by
    rw [opened, replicate_eq_nil_iff, length_eq_zero_iff, chunks_eq_nil_iff]
  rw [he]
  exact ⟨fun hd hn => Bool.false_ne_true (hd hn), fun hsd hn => absurd hn hsd⟩

theorem uninterrupted_of_refused {f : List (List UInt8)} (hw : ∀ j < f.length, driver j = .later)
    (ho : driver f.length = .refused) : Uninterrupted driver data := by
  intro i _ hb ok hn
  rcases lt_trichotomy i f.length with he | rfl | beyond
  · exact WriteOperation.noConfusion ((hw i he).symm.trans hn)
  · exact WriteOperation.noConfusion (ho.symm.trans hn)
  · exact WriteOperation.noConfusion (ho.symm.trans (hb f.length beyond))

theorem truthful_refuse {f rest : List (List UInt8)} {c : List UInt8}
    (hs : chunks data = f ++ c :: rest) :
    Truthful ((opened data f).refuse c) := by
  have hr : Refused ((opened data f).refuse c) := by
    simp [Refused, opened, refuse, setStatus]
  have hcv : chunks data = (f ++ [c]) ++ rest := by
    rw [hs, append_assoc]
    rfl
  exact ((tracked_refuse f c).truthful_iff ⟨rest, hcv, .inr hr⟩).mpr
    ⟨fun hc => absurd (reported_of_fail hc) not_mem_nil, fun _ => rfl⟩

theorem complete_fields (s : SendTcpAction) (i : Nat) (ok : Bool) :
    (s.complete i ok).data = s.data ∧ (s.complete i ok).offered = s.offered ∧
      (s.complete i ok).results.length = s.results.length := by
  rw [complete, resultHandler]
  split
  · dsimp only
    split <;> exact ⟨rfl, rfl, length_set⟩
  · exact ⟨rfl, rfl, length_set⟩

theorem truthful_immediate_iff {f rest : List (List UInt8)} {c : List UInt8}
    (hs : chunks data = f ++ c :: rest) (ok : Bool) :
    Truthful ((opened data (f ++ [c])).complete f.length ok) ↔ rest = [] := by
  have ha : ¬Refused (opened data (f ++ [c])) := by simp [Refused, opened]
  constructor
  · rintro ⟨⟨l, hc, hr⟩, -, -⟩
    obtain ⟨hsm, ho, hrs⟩ :=
      complete_fields (opened data (f ++ [c])) f.length ok
    rw [Refused, ho, hrs] at hr
    rw [hsm, ho, hr.resolve_right ha, append_nil] at hc
    have he : f ++ c :: rest = f ++ [c] := hs.symm.trans hc
    exact (cons.inj (append_cancel_left he)).2
  · rintro rfl
    have hw : Truthful (opened data (f ++ [c])) := by
      have hwh := truthful_opened_iff.mpr (ne_nil_of_split hs)
      rwa [hs] at hwh
    refine (hw.complete_iff (tracked_opened data _) (opened_last f c) ok).mpr ?_
    exact fun _ hrf => absurd hrf ha

theorem truthful_sent_iff : Truthful (sent driver data) ↔
    data ≠ [] ∧ Uninterrupted driver data := by
  have hot := sent_cases driver data
  generalize sent driver data = s at hot ⊢
  cases hot with
  | whole hw =>
    rw [truthful_opened_iff]
    refine (and_iff_left fun i hb _ ok hn => ?_).symm
    rw [hw i (by omega)] at hn
    exact WriteOperation.noConfusion hn
  | refused f c rest hs hw ho =>
    exact iff_of_true (truthful_refuse hs) ⟨ne_nil_of_split hs, uninterrupted_of_refused hw ho⟩
  | immediate f c rest ok hs hw ho =>
    rw [truthful_immediate_iff hs, uninterrupted_iff_of_immediate hs hw ho,
      and_iff_right (ne_nil_of_split hs)]

/-- The action tells the truth throughout exactly when there is something to send, no chunk but
the last one completes at once, and after a refusal not all operations succeed. -/
theorem modem_send_truthful_iff (driver : Nat → WriteOperation) (data : List UInt8)
    (events : List Event) :
    Always (step driver) Truthful (sent driver data) events ↔
      (data ≠ [] ∧ Uninterrupted driver data) ∧
        Along (step driver) StaysFailed (sent driver data) events := by
  rw [← truthful_sent_iff]
  have he : Truthful (sent driver data) → (Always (step driver) Truthful (sent driver data) events ↔
        Along (step driver) StaysFailed (sent driver data) events) := by
    intro hs
    exact always_iff_along (fun s e htr ht => htr.step_iff ht e) hs
      (along_invariant (fun s e ht => ht.step e) (tracked_sent driver data))
  constructor
  · exact fun ha => ⟨ha.head, (he ha.head).mp ha⟩
  · exact fun hb => (he hb.1).mpr hb.2

def twoChunks : List UInt8 := List.replicate 1025 0

theorem chunks_twoChunks : chunks twoChunks = [replicate 1024 0, [0]] := by
  simp [-reduceReplicate, chunks, chunksWithin, twoChunks, kMaxPacketSize]

def immediately : Nat → WriteOperation := fun _ => .immediate true

def refusesSecond : Nat → WriteOperation := fun i => if i = 0 then .later else .refused

/-- The first chunk succeeds at once, or the second is refused and the first succeeds: success is
reported and the last byte was never submitted. An empty packet is never done. -/
theorem success_without_last_byte :
    ((run (step immediately) (sent immediately twoChunks) [.task]).reported =
        [.success] ∧
      (sent immediately twoChunks).offered.flatten.length = 1024 ∧
      ¬Truthful (sent immediately twoChunks)) ∧
    (run (step refusesSecond) (sent refusesSecond twoChunks)
        [.completed 0 true, .task]).reported = [.success] ∧
      ¬Truthful (run (step refusesSecond) (sent refusesSecond twoChunks)
        [.completed 0 true]) ∧ ¬Truthful (sent immediately []) := by
  have h1 : sent immediately twoChunks =
      ⟨twoChunks, true, true, 0, some .success, [], [replicate 1024 0], [some true]⟩ := by
    simp [-reduceReplicate, sent, send, make, chunks_twoChunks, sendChunks, immediately,
      submit, complete, resultHandler, setStatus]
  have h2 : sent refusesSecond twoChunks =
      ⟨twoChunks, true, true, 1, some .fail, [], [replicate 1024 0, [0]], [none]⟩ := by
    simp [-reduceReplicate, sent, send, make, chunks_twoChunks, sendChunks, refusesSecond,
      submit, refuse, setStatus]
  rw [truthful_sent_iff, truthful_sent_iff, h1, h2]
  refine ⟨⟨rfl, by simp [-reduceReplicate], fun hb => ?_⟩, rfl, fun ht => ?_,
    fun hb => hb.1 rfl⟩
  · refine hb.2 0 ?_ (fun j hbf => absurd hbf (Nat.not_lt_zero j)) true rfl
    rw [chunks_twoChunks]
    decide
  · have hs : ([replicate 1024 0].flatten : List UInt8) = twoChunks :=
      (ht.success (.inr rfl)).1
    have hbt := congrArg length hs
    simp [-reduceReplicate, twoChunks] at hbt

end

end Ae.Transport.ModemSending
