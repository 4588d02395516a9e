/- source: api_protocol/{api_class_impl.h,api_pack_parser.h,return_result_api.cpp}
   digest: Messages dispatched by their ids to the handlers of API classes. -/

import Ae.Api.ProtocolContext

set_option autoImplicit false

namespace Ae.Api.ApiParser
open List MStream.VectorReader MStream.Operators Lib.StateRun ProtocolContext

/-- A method as `MethodInvoke` takes it: with plain arguments, with a request id before them, or
with a payload for a sub API after them; and the two of `ReturnResultApi`. -/
inductive Method (ι τ : Type) where
  | plain (args : τ)
  | promise (args : τ)
  | sub (api : ι) (args : τ)
  | sendResult
  | sendError

/-- `ImplList`: the registered methods, and extensions with their own lists. -/
inductive ImplList (ι τ : Type) where
  | nil
  | regMethod (id : UInt8) (m : Method ι τ) (others : ImplList ι τ)
  | extApi (api others : ImplList ι τ)

/-- The methods in the order in which a message id is compared with theirs. -/
def ImplList.methods {ι τ : Type} : ImplList ι τ → List (UInt8 × Method ι τ)
  | nil => []
  | regMethod id m others => (id, m) :: others.methods
  | extApi api others => api.methods ++ others.methods

def number (w : Nat) (pos : 0 < w) : Described := ⟨.scalar, Bytes w, .int w pos⟩

theorem word_pos : 0 < 4 := by decide

def buffer : Described := ⟨.compound, List (Bytes 1), .scalarVector 1 Nat.one_pos⟩

def Method.message {ι τ : Type} (setup : Setup τ) : Method ι τ → Described
  | plain args => setup.types args
  | promise args => .pair (number 4 word_pos) (setup.types args)
  | sub _ args => .pair (setup.types args) buffer
  | sendResult => number 4 word_pos
  | sendError =>
    .pair (number 4 word_pos) (.pair (number 1 Nat.one_pos) (number 4 word_pos))

/-- The call of a handler: for which API class and message id, with what, by which of the
active parsers, and whether none of the reads of that parser was refused. -/
structure Invocation {τ : Type} (ι : Type) (setup : Setup τ) where
  api : ι
  id : UInt8
  method : Method ι τ
  value : (method.message setup).type
  depth : Nat
  complete : Bool

abbrev ParserEvent {τ : Type} (ι : Type) (setup : Setup τ) := Event setup (Invocation ι setup)

abbrev ParserApp {τ : Type} (ι : Type) (setup : Setup τ) := Application setup (Invocation ι setup)

abbrev ParserTable {τ : Type} (ι : Type) (setup : Setup τ) := Table setup (Invocation ι setup)

abbrev ParserContext {τ : Type} (ι : Type) (setup : Setup τ) := Context setup (Invocation ι setup)

abbrev ParserM {τ : Type} (ι : Type) (setup : Setup τ) := ContextM setup (Invocation ι setup)

section

variable {ι τ : Type} {setup : Setup τ}

/-- `LoadFactoryImpl`: the first registration that takes the id ends the search. -/
def loadFactoryImpl (load : Method ι τ → ParserM ι setup Unit)
    (id : UInt8) : ImplList ι τ → ParserM ι setup Bool
  | .nil => pure false
  | .regMethod id' m others =>
    if id' = id then do
      load m
      pure true
    else loadFactoryImpl load id others
  | .extApi api others => do
    let found ← loadFactoryImpl load id api
    if found then pure true else loadFactoryImpl load id others

variable (app : ParserApp ι setup) (frames : Nat)

def whenWanted (parse : ParserM ι setup Unit) :
    ParserM ι setup Unit := do
  let c ← get
  if app.parses c.table.log then parse else pure ()

def serve (parse : ParserM ι setup Unit) (call : Invocation ι setup) : ParserM ι setup Unit := do
  onTable (callback app frames (.handler call))
  whenWanted app parse
  onTable (subscribe (callback app frames) app.leave)

/-- `SubContextImpl` holds a parser for the payload while the handler runs. -/
def withPayload (parse : ParserM ι setup Unit) (call : Invocation ι setup) (payload : List UInt8) :
    ParserM ι setup Unit := do
  pushParser payload
  serve app frames parse call
  popParser

def invoke (parse : ι → ParserM ι setup Unit)
    (call : Invocation ι setup) : (m : Method ι τ) → (m.message setup).type → ParserM ι setup Unit
  | .plain _, _ => onTable (callback app frames (.handler call))
  | .promise _, _ => onTable (callback app frames (.handler call))
  | .sub api _, value =>
    withPayload app frames (parse api) call (value.2.flatMap Subtype.val)
  | .sendResult, requestId => do
    onTable (record (.handler call))
    setSendResultResponse app frames requestId
  | .sendError, value => do
    onTable (record (.handler call))
    setSendErrorResponse app frames value.1 value.2.1 value.2.2

def load (parse : ι → ParserM ι setup Unit) (api : ι)
    (id : UInt8) (m : Method ι τ) : ParserM ι setup Unit := do
  let value ← extract (m.message setup)
  let s ← standing
  invoke app frames parse ⟨api, id, m, value, s.1, s.2⟩ m value

def loadFactory (parse : ι → ParserM ι setup Unit) (api : ι) (impls : ImplList ι τ) (id : UInt8) :
    ParserM ι setup Unit := do
  let found ← loadFactoryImpl (load app frames parse api id) id impls
  if found then pure () else cancel

/-- `istream_ >> message_id` on an id that is 255 before. -/
def readId (r : Reader) : Reader × Bytes 1 := readRaw 1 ⟨[255], rfl⟩ r

def nextId : ParserM ι setup UInt8 := do
  let c ← get
  match c.parsers with
  | [] => throw .nullParser
  | r :: outer =>
    let read := readId r
    set { c with parsers := read.1 :: outer }
    pure (read.2.1.headD 255)

def nextMessage (take : UInt8 → ParserM ι setup Unit) :
    ParserM ι setup Unit := do
  let id ← nextId
  take id

/-- The loop of `ApiParser::Parse`. Each round takes a byte at least. -/
def parseLoop (take : UInt8 → ParserM ι setup Unit) :
    Nat → ParserM ι setup Unit
  | 0 => pure ()
  | rounds + 1 => do
    let r ← parser
    if r.offset < r.data.length then
      nextMessage take
      parseLoop take rounds
    else pure ()

variable (apis : ι → ImplList ι τ)

/-- `ApiParser::Parse`. At most `depth` parsers work one inside the other. -/
def parse : Nat → ι → ParserM ι setup Unit
  | 0, _ => throw .parserStackFull
  | depth + 1, api => do
    let r ← parser
    parseLoop (loadFactory app frames (parse depth) api (apis api)) r.rest.length

end

section

variable {ι τ : Type} {setup : Setup τ} {impls : ImplList ι τ} {id : UInt8}
  {c c' : ParserContext ι setup}

theorem loadFactoryImpl_run (l : Method ι τ → ParserM ι setup Unit) (c : ParserContext ι setup) :
    (loadFactoryImpl l id impls).run c = match impls.methods.find? (fun e => e.1 = id) with
      | none => .ok false c
      | some e => (do l e.2; pure true : EStateM Fault _ Bool).run c := by
  induction impls with
  | nil => rfl
  | regMethod id' m os ih =>
    by_cases same : id' = id
    · simp only [loadFactoryImpl, ImplList.methods, find?_cons, same, decide_true, if_true]
    · simp only [loadFactoryImpl, ImplList.methods, find?_cons, same, decide_false, if_false, ih]
  | extApi api os hi ih =>
    rw [loadFactoryImpl, EStateM.run_bind, hi, ImplList.methods, find?_append]
    cases api.methods.find? (fun e => e.1 = id) with
    | none => exact ih
    | some e =>
      rw [Option.some_or]
      simp only [EStateM.run_bind]
      cases (l e.2).run c with
      | ok _ _ | error _ _ => rfl

theorem find_registered {ms : List (UInt8 × Method ι τ)} {m : Method ι τ}
    (hd : (ms.map Prod.fst).Nodup) (hr : (id, m) ∈ ms) :
    ms.find? (fun e => e.1 = id) = some (id, m) := by
  induction ms with
  | nil => cases hr
  | cons e os ih =>
    rw [map_cons, nodup_cons] at hd
    rcases mem_cons.mp hr with rfl | later
    · simp only [find?_cons, decide_true]
    · have hn : e.1 ≠ id := by
        rintro rfl
        exact hd.1 (mem_map.mpr ⟨(e.1, m), later, rfl⟩)
      simp only [find?_cons, hn, decide_false, ih hd.2 later]

variable {app : ParserApp ι setup} {frames : Nat}
  {parse : ι → ParserM ι setup Unit} {api : ι}

theorem loadFactory_known {e : UInt8 × Method ι τ}
    (hf : impls.methods.find? (fun e => e.1 = id) = some e) :
    (loadFactory app frames parse api impls id).run c =
      (load app frames parse api id e.2).run c := by
  rw [loadFactory, EStateM.run_bind, loadFactoryImpl_run, hf]
  simp only [EStateM.run_bind]
  cases (load app frames parse api id e.2).run c with
  | ok _ _ | error _ _ => rfl

theorem loadFactory_unknown (hm : impls.methods.find? (fun e => e.1 = id) = none) :
    (loadFactory app frames parse api impls id).run c = (cancel : ParserM ι setup Unit).run c := by
  rw [loadFactory, EStateM.run_bind, loadFactoryImpl_run, hm]
  rfl

section

variable {x : ParserM ι setup Unit} {call : Invocation ι setup} {payload : List UInt8}

theorem withPayload_full (hf : setup.maxParserPackerDepth ≤ c.parsers.length) :
    (withPayload app frames x call payload).run c = .error .parserStackFull c :=
  bind_error (pushParser_full payload hf)

variable (free : c.parsers.length < setup.maxParserPackerDepth)

include free

theorem withPayload_error {e : Fault} (hs : (serve app frames x call).run
      { c with parsers := Reader.start payload :: c.parsers } = .error e c') :
    (withPayload app frames x call payload).run c = .error e c' :=
  (bind_ok (pushParser_run payload free)).trans (bind_error hs)

theorem withPayload_ok {r : Reader} {b : List Reader} (hr : (serve app frames x call).run
      { c with parsers := Reader.start payload :: c.parsers } = .ok () c')
    (hs : c'.parsers = r :: b) :
    (withPayload app frames x call payload).run c = .ok () { c' with parsers := b } :=
  (bind_ok (pushParser_run payload free)).trans ((bind_ok hr).trans (popParser_run hs))

end

theorem nextId_run {r : Reader} {outer : List Reader} {ys : List UInt8}
    (ha : c.parsers = r :: outer) (hr : r.rest = id :: ys) :
    ∃ r', nextId.run c = .ok id { c with parsers := r' :: outer } ∧ r'.result = .yes ∧
      Consumed r r' 1 := by
  obtain ⟨r', read, hy, hc⟩ :=
    @Reader.read_of_rest r [id] ys hr 1 rfl
  refine ⟨r', ?_, hy, hc⟩
  have raw : readId r = (r', ⟨[id], rfl⟩) := by
    rw [readId, readRaw, read]
    rfl
  rw [nextId, get_bind, ha]
  simp only [raw]
  rfl

theorem offset_lt_iff {r : Reader} : r.offset < r.data.length ↔ r.rest ≠ [] := by
  rw [Reader.rest, Ne, drop_eq_nil_iff, not_le]

variable {take : UInt8 → ParserM ι setup Unit} {r : Reader} {outer : List Reader} {rounds : Nat}

theorem parseLoop_round (ha : c.parsers = r :: outer) (hm : r.rest ≠ []) :
    (parseLoop take (rounds + 1)).run c =
      (nextMessage take >>= fun _ => parseLoop take rounds).run c := by
  rw [parseLoop, bind_ok (parser_run ha), if_pos (offset_lt_iff.mpr hm)]

theorem parseLoop_end (ha : c.parsers = r :: outer) (hd : r.rest = []) :
    (parseLoop take rounds).run c = .ok () c := by
  cases rounds with
  | zero => rfl
  | succ rounds =>
    rw [parseLoop, bind_ok (parser_run ha), if_neg (fun hm => offset_lt_iff.mp hm hd)]
    rfl

end

end Ae.Api.ApiParser
