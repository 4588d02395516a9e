/- source: api_protocol/{protocol_context.{h,cpp},api_promise.h,api_pack_parser.h}
   digest: The pending responses and the parsers of a protocol context, with the callbacks. -/

import Ae.Lib.StateRun
import Ae.MStream.TypeDesc

set_option autoImplicit false

namespace Ae.Api.ProtocolContext
open MStream.VectorReader MStream.Operators MStream.TypeDesc Lib.StateRun

structure Described where
  kind : Kind
  type : Type
  desc : Desc kind type

namespace Described

def codec (d : Described) (size : SizeType) : Codec d.type := d.desc.codec size

def pair (a b : Described) : Described := ⟨.compound, a.type × b.type, .pair a.desc b.desc⟩

end Described

structure Setup (τ : Type) where
  size : SizeType
  types : τ → Described
  maxPendingResponses : Nat
  maxParserPackerDepth : Nat
  responses_pos : 0 < maxPendingResponses
  depth_pos : 0 < maxParserPackerDepth

def smallSetup {τ : Type} (types : τ → Described) : Setup τ where
  size := shortSizes
  types := types
  maxPendingResponses := 10
  maxParserPackerDepth := 4
  responses_pos := by decide
  depth_pos := by decide

abbrev RequestId := Bytes 4

/-- A `PendingResponseEntry` of the pool, with the type of its value. A `void` result is one
without fields. -/
structure Response (τ : Type) where
  serial : Nat
  awaited : τ

structure PendingEntry (τ : Type) where
  requestId : RequestId
  response : Option (Response τ)

/-- What reaches the application: the call of a handler, or a callback of a pending response.
`OnResult` says which of the active parsers extracted the value, and whether none of the reads
of that parser was refused. -/
inductive Event {τ : Type} (setup : Setup τ) (H : Type) where
  | handler (call : H)
  | onResult (serial : Nat) (requestId : RequestId) (awaited : τ)
      (value : (setup.types awaited).type) (depth : Nat) (complete : Bool)
  | onError (serial : Nat) (requestId : RequestId) (errorType : Bytes 1) (errorCode : Bytes 4)
  | onEvicted (serial : Nat) (requestId : RequestId)

/-- The pending responses, the objects of the pool that are in use, and what reached the
application so far. -/
structure Table {τ : Type} (setup : Setup τ) (H : Type) where
  pending : List (PendingEntry τ)
  live : List Nat
  made : Nat
  log : List (Event setup H)

structure Context {τ : Type} (setup : Setup τ) (H : Type) where
  table : Table setup H
  parsers : List Reader

/-- Where a run does not come back: an exception of a stream, a null pointer followed, or an
assertion failed. -/
inductive Fault where
  | stream (stop : Stop)
  | nullParser
  | nullResponse
  | noPending
  | registryFull
  | poolExhausted
  | parserStackFull
  | parserStackEmpty
  | packerStackFull
  | callStackExhausted

/-- A run on the table, and one on the whole context. -/
abbrev TableM {τ : Type} (setup : Setup τ) (H : Type) := EStateM Fault (Table setup H)

abbrev ContextM {τ : Type} (setup : Setup τ) (H : Type) := EStateM Fault (Context setup H)

structure Subscription (τ : Type) where
  requestId : RequestId
  awaited : τ

/-- The code of the application, as far as it acts on the context: which promises it subscribes
to when a handler or a callback is entered, whether the handler of a sub API parses its
payload, and what it subscribes to after that. It may depend on all that happened so far. -/
structure Application {τ : Type} (setup : Setup τ) (H : Type) where
  enter : List (Event setup H) → List (Subscription τ)
  parses : List (Event setup H) → Bool
  leave : List (Event setup H) → List (Subscription τ)

section

variable {τ H : Type} {setup : Setup τ}

def record (event : Event setup H) : TableM setup H Unit :=
  modify fun t => { t with log := t.log ++ [event] }

def takePending (requestId : RequestId) : TableM setup H (PendingEntry τ) := do
  let t ← get
  match t.pending.find? (·.requestId = requestId) with
  | none => pure ⟨zeros 4, none⟩
  | some entry =>
    set { t with pending := t.pending.eraseP (·.requestId = requestId) }
    pure entry

def takeOldestPending : TableM setup H (PendingEntry τ) := do
  let t ← get
  match t.pending with
  | [] => throw .noPending
  | entry :: others =>
    set { t with pending := others }
    pure entry

def destroyPending (entry : PendingEntry τ) : TableM setup H Unit :=
  match entry.response with
  | none => throw .nullResponse
  | some response => modify fun t => { t with live := t.live.erase response.serial }

variable (call : Event setup H → TableM setup H Unit)

def evictPending (entry : PendingEntry τ) : TableM setup H Unit :=
  match entry.response with
  | none => throw .nullResponse
  | some response => do
    call (.onEvicted response.serial entry.requestId)
    destroyPending entry

def evictOldest :
    TableM setup H Unit := do
  let t ← get
  if setup.maxPendingResponses ≤ t.pending.length then
    let entry ← takeOldestPending
    evictPending call entry
  else pure ()

def assertFree : TableM setup H Unit := do
  let t ← get
  if setup.maxPendingResponses ≤ t.pending.length then throw .registryFull
  else if setup.maxPendingResponses ≤ t.live.length then throw .poolExhausted
  else pure ()

def preparePendingResponseSlot (requestId : RequestId) : TableM setup H Unit := do
  let existing ← takePending requestId
  match existing.response with
  | some _ => evictPending call existing
  | none => do
    evictOldest call
    assertFree

/-- The new object of the pool and its entry. Without a free object the pointer is null, and
there is no entry beyond the capacity. -/
def emplacePending (s : Subscription τ) : TableM setup H Unit := do
  let t ← get
  if setup.maxPendingResponses ≤ t.live.length then throw .poolExhausted
  else if setup.maxPendingResponses ≤ t.pending.length then throw .registryFull
  else
    let entry : PendingEntry τ := ⟨s.requestId, some ⟨t.made, s.awaited⟩⟩
    set { t with pending := t.pending ++ [entry], live := t.made :: t.live, made := t.made + 1 }

def createPendingResponse (s : Subscription τ) : TableM setup H Unit := do
  preparePendingResponseSlot call s.requestId
  emplacePending s

def subscribe (choose : List (Event setup H) → List (Subscription τ)) :
    TableM setup H Unit := do
  let t ← get
  (choose t.log).forM (createPendingResponse call)

/-- A callback, within which the application may subscribe to further promises. At most
`frames` of them are active at a time. -/
def callback (app : Application setup H) : Nat → Event setup H → TableM setup H Unit
  | 0, event => do
    record event
    throw .callStackExhausted
  | frames + 1, event => do
    record event
    subscribe (callback app frames) app.enter

end

section

variable {τ H : Type} {setup : Setup τ}

def cancelled (r : Reader) : Reader := { r with offset := r.data.length, within := le_rfl }

def onTable {α : Type} (x : TableM setup H α) : ContextM setup H α :=
  zoom Context.table (fun t c => { c with table := t }) x

def pushParser (data : List UInt8) : ContextM setup H Unit := do
  let c ← get
  if setup.maxParserPackerDepth ≤ c.parsers.length then throw .parserStackFull
  else set { c with parsers := Reader.start data :: c.parsers }

def popParser : ContextM setup H Unit := do
  let c ← get
  match c.parsers with
  | [] => throw .parserStackEmpty
  | _ :: outer => set { c with parsers := outer }

def parser : ContextM setup H Reader := do
  let c ← get
  match c.parsers with
  | [] => throw .nullParser
  | r :: _ => pure r

def cancel : ContextM setup H Unit := do
  let c ← get
  match c.parsers with
  | [] => throw .nullParser
  | r :: outer => set { c with parsers := cancelled r :: outer }

/-- `ApiParser::Extract` of the active parser: what the reads came to is not looked at. -/
def extract (d : Described) : ContextM setup H d.type := do
  let c ← get
  match c.parsers with
  | [] => throw .nullParser
  | r :: outer =>
    match (d.codec setup.size).get (d.codec setup.size).init r with
    | .error stop => throw (.stream stop)
    | .ok (r', v) =>
      set { c with parsers := r' :: outer }
      pure v

/-- How the active parser stands: how many parsers there are with it, and whether none of its
reads was refused so far. -/
def standing : ContextM setup H (Nat × Bool) := do
  let c ← get
  match c.parsers with
  | [] => throw .nullParser
  | r :: outer => pure (outer.length + 1, !r.failed)

variable (app : Application setup H) (frames : Nat)

def onResult (requestId : RequestId) (response : Response τ) :
    ContextM setup H Unit := do
  let value ← extract (setup.types response.awaited)
  let s ← standing
  onTable (callback app frames (.onResult response.serial requestId response.awaited value s.1 s.2))

/-- The branch for an entry without a response; it does not leave the function it is in. -/
def cancelUnanswerable (entry : PendingEntry τ) : ContextM setup H Unit :=
  match entry.response with
  | none => cancel
  | some _ => pure ()

def setSendResultResponse (requestId : RequestId) : ContextM setup H Unit := do
  let entry ← onTable (takePending requestId)
  cancelUnanswerable entry
  let _ ← parser
  match entry.response with
  | none => throw .nullResponse
  | some response =>
    onResult app frames requestId response
    onTable (destroyPending entry)

def setSendErrorResponse (requestId : RequestId) (errorType : Bytes 1) (errorCode : Bytes 4) :
    ContextM setup H Unit := do
  let entry ← onTable (takePending requestId)
  cancelUnanswerable entry
  match entry.response with
  | none => throw .nullResponse
  | some response =>
    onTable (callback app frames (.onError response.serial requestId errorType errorCode))
    onTable (destroyPending entry)

end

section

variable {τ H : Type} {setup : Setup τ} {t : Table setup H} {c : Context setup H}
  {requestId : RequestId} {r : Reader} {outer : List Reader}

theorem onTable_ok {α : Type} {x : TableM setup H α} {a : α} {t' : Table setup H}
    (hr : x.run c.table = .ok a t') : (onTable x).run c = .ok a { c with table := t' } :=
  zoom_ok hr

theorem onTable_error {α : Type} {x : TableM setup H α} {e : Fault}
    {t' : Table setup H} (hs : x.run c.table = .error e t') :
    (onTable x).run c = .error e { c with table := t' } :=
  zoom_error hs

theorem find_eq_none_iff :
    t.pending.find? (·.requestId = requestId) = none ↔
      ∀ e ∈ t.pending, e.requestId ≠ requestId := by
  simp only [List.find?_eq_none, decide_eq_true_eq]

theorem takePending_unknown (hu : ∀ e ∈ t.pending, e.requestId ≠ requestId) :
    (takePending requestId).run t = .ok ⟨zeros 4, none⟩ t := by
  rw [takePending, get_bind, find_eq_none_iff.mpr hu]
  rfl

theorem takePending_known {e : PendingEntry τ}
    (hf : t.pending.find? (·.requestId = requestId) = some e) :
    (takePending requestId).run t =
      .ok e { t with pending := t.pending.eraseP (·.requestId = requestId) } := by
  rw [takePending, get_bind, hf]
  rfl

theorem takePending_returns (requestId : RequestId) (t : Table setup H) :
    ∃ e t', (takePending requestId).run t = .ok e t' ∧ ∀ response, e.response = some response →
        e ∈ t.pending ∧ e.requestId = requestId := by
  cases hf : t.pending.find? (·.requestId = requestId) with
  | none =>
    refine ⟨_, t, takePending_unknown (find_eq_none_iff.mp hf), fun _ some => ?_⟩
    cases some
  | some e =>
    refine ⟨e, _, takePending_known hf, fun _ _ => ⟨List.mem_of_find?_eq_some hf, ?_⟩⟩
    have he := List.find?_some hf
    rwa [decide_eq_true_eq] at he

theorem parser_run (ha : c.parsers = r :: outer) :
    (parser : ContextM setup H Reader).run c = .ok r c := by
  rw [parser, get_bind, ha]
  rfl

theorem cancel_run (ha : c.parsers = r :: outer) :
    (cancel : ContextM setup H Unit).run c = .ok () { c with parsers := cancelled r :: outer } := by
  rw [cancel, get_bind, ha]
  rfl

theorem cancel_idle (hi : c.parsers = []) :
    (cancel : ContextM setup H Unit).run c = .error .nullParser c := by
  rw [cancel, get_bind, hi]
  rfl

section

variable (ha : c.parsers = r :: outer)
include ha

theorem extract_run {d : Described} {r' : Reader} {v : d.type}
    (hg : (d.codec setup.size).get (d.codec setup.size).init r = .ok (r', v)) :
    (extract d : ContextM setup H d.type).run c = .ok v { c with parsers := r' :: outer } := by
  rw [extract, get_bind, ha]
  simp only [hg]
  rfl

theorem extract_stops {d : Described} {s : Stop}
    (hg : (d.codec setup.size).get (d.codec setup.size).init r = .error s) :
    (extract d : ContextM setup H d.type).run c = .error (.stream s) c := by
  rw [extract, get_bind, ha]
  simp only [hg]
  rfl

theorem standing_run :
    (standing : ContextM setup H (Nat × Bool)).run c = .ok (outer.length + 1, !r.failed) c := by
  rw [standing, get_bind, ha]
  rfl

end

abbrev Setup.extracted (setup : Setup τ) (awaited : τ) (r : Reader) :
    Outcome (setup.types awaited).type :=
  ((setup.types awaited).codec setup.size).get ((setup.types awaited).codec setup.size).init r

variable {app : Application setup H} {frames : Nat} {response : Response τ}

theorem onResult_run {r' : Reader} {v : (setup.types response.awaited).type}
    (hg : setup.extracted response.awaited r = .ok (r', v)) :
    (onResult app frames requestId response).run ⟨t, r :: outer⟩ =
      (onTable (callback app frames (.onResult response.serial requestId response.awaited v
        (outer.length + 1) (!r'.failed)))).run ⟨t, r' :: outer⟩ :=
  (bind_ok (extract_run rfl hg)).trans (bind_ok (standing_run rfl))

theorem setSendResultResponse_known {e : PendingEntry τ}
    (hf : t.pending.find? (·.requestId = requestId) = some e)
    (hr : e.response = some response) :
    (setSendResultResponse app frames requestId).run ⟨t, r :: outer⟩ =
      (do onResult app frames requestId response; onTable (destroyPending e)).run
        ⟨{ t with pending := t.pending.eraseP (·.requestId = requestId) }, r :: outer⟩ := by
  rw [setSendResultResponse]
  apply (bind_ok (onTable_ok (takePending_known hf))).trans
  rw [cancelUnanswerable, hr]
  exact bind_ok (parser_run rfl)

theorem pushParser_run (data : List UInt8) (hf : c.parsers.length < setup.maxParserPackerDepth) :
    (pushParser data : ContextM setup H Unit).run c =
      .ok () { c with parsers := Reader.start data :: c.parsers } := by
  rw [pushParser, get_bind, if_neg (Nat.not_le.mpr hf)]
  rfl

theorem pushParser_full (data : List UInt8) (hf : setup.maxParserPackerDepth ≤ c.parsers.length) :
    (pushParser data : ContextM setup H Unit).run c = .error .parserStackFull c := by
  rw [pushParser, get_bind, if_pos hf]
  rfl

theorem popParser_run (ha : c.parsers = r :: outer) :
    (popParser : ContextM setup H Unit).run c = .ok () { c with parsers := outer } := by
  rw [popParser, get_bind, ha]
  rfl

end

end Ae.Api.ProtocolContext
