/- source: api_protocol/protocol_context.{cpp,h}
   digest: What a response does whose request id is not pending. -/

import Ae.Api.ProtocolContext

set_option autoImplicit false

namespace Ae.Api.Responses
open MStream.VectorReader MStream.Operators Lib.StateRun ProtocolContext

inductive Operation (τ H : Type) where
  | create (s : Subscription τ)
  | sendResult (requestId : RequestId)
  | sendError (requestId : RequestId) (errorType : Bytes 1) (errorCode : Bytes 4)
  | handler (call : H)
  | pushParser (data : List UInt8)
  | popParser
  | extract (d : Described)
  | cancel

section

variable {τ H : Type} {setup : Setup τ} (app : Application setup H) (frames : Nat)

def Operation.run : Operation τ H → ContextM setup H Unit
  | create s => onTable (createPendingResponse (callback app frames) s)
  | sendResult requestId => setSendResultResponse app frames requestId
  | sendError requestId errorType errorCode =>
    setSendErrorResponse app frames requestId errorType errorCode
  | handler call => onTable (callback app frames (.handler call))
  | pushParser data => ProtocolContext.pushParser data
  | popParser => ProtocolContext.popParser
  | extract d => do
    let _ ← ProtocolContext.extract d
  | cancel => ProtocolContext.cancel

inductive Reachable : Context setup H → Prop
  | start : Reachable ⟨⟨[], [], 0, []⟩, []⟩
  | step {c c' : Context setup H} (operation : Operation τ H) (before : Reachable c)
      (returns : (operation.run app frames).run c = .ok () c') : Reachable c'

def cancelActive : List Reader → List Reader
  | [] => []
  | r :: outer => cancelled r :: outer

/-- The call returns and cancels the active parse; the pending responses, the pool and what
reached the application are as before. -/
def Harmless (x : ContextM setup H Unit) (c : Context setup H) : Prop :=
  x.run c = .ok () { c with parsers := cancelActive c.parsers }

def nullFault : List Reader → Fault
  | [] => .nullParser
  | _ :: _ => .nullResponse

variable {app frames} {c : Context setup H} {requestId : RequestId}
  (unknown : ∀ e ∈ c.table.pending, e.requestId ≠ requestId)

include unknown

theorem setSendResultResponse_unknown :
    (setSendResultResponse app frames requestId).run c =
      .error (nullFault c.parsers) { c with parsers := cancelActive c.parsers } := by
  obtain ⟨t, parsers⟩ := c
  rw [setSendResultResponse]
  apply (bind_ok (onTable_ok (takePending_unknown unknown))).trans
  cases parsers with
  | nil => exact bind_error (cancel_idle rfl)
  | cons r o =>
    apply (bind_ok (cancel_run rfl)).trans
    exact bind_ok (parser_run rfl)

theorem setSendErrorResponse_unknown (et : Bytes 1) (ec : Bytes 4) :
    (setSendErrorResponse app frames requestId et ec).run c =
      .error (nullFault c.parsers) { c with parsers := cancelActive c.parsers } := by
  obtain ⟨t, parsers⟩ := c
  rw [setSendErrorResponse]
  apply (bind_ok (onTable_ok (takePending_unknown unknown))).trans
  cases parsers with
  | nil => exact bind_error (cancel_idle rfl)
  | cons r o => exact bind_ok (cancel_run rfl)

end

/-- In no reachable context is a response with an unknown request id harmless: after the parse
was cancelled the null response is followed all the same. -/
theorem unknown_response_never_harmless {τ H : Type} {setup : Setup τ} (app : Application setup H)
    (frames : Nat) (c : Context setup H) (_reachable : Reachable app frames c)
    (requestId : RequestId) (unknown : ∀ e ∈ c.table.pending, e.requestId ≠ requestId) :
    ¬ Harmless (setSendResultResponse app frames requestId) c ∧ ∀ errorType errorCode,
        ¬ Harmless (setSendErrorResponse app frames requestId errorType errorCode) c := by
  constructor
  · intro ha
    cases (setSendResultResponse_unknown unknown).symm.trans ha
  · intro errorType errorCode ha
    cases (setSendErrorResponse_unknown unknown errorType errorCode).symm.trans ha

def voidSetup : Setup Unit :=
  { smallSetup (fun _ => ⟨.compound, Unit, .record .nil⟩) with
    maxPendingResponses := 2
    responses_pos := Nat.two_pos }

def onlooker {τ : Type} (setup : Setup τ) (H : Type) : Application setup H where
  enter _ := []
  parses _ := true
  leave _ := []

/-- A request is answered while a parser is active. -/
theorem answered_reachable : ∃ c, Reachable (onlooker voidSetup Unit) 1 c ∧
    c.table.log = [.onResult 0 (zeros 4) () () 1 true] ∧ c.table.pending = [] ∧
      c.parsers.length = 1 := by
  have hc := Reachable.step (.create ⟨zeros 4, ()⟩)
    (@Reachable.start _ _ _ (onlooker voidSetup Unit) 1) rfl
  have hp := Reachable.step (.pushParser [9]) hc rfl
  exact ⟨_, .step (.sendResult (zeros 4)) hp rfl, rfl, rfl, rfl⟩

theorem unknown_response_never_harmless_answered :
    ∃ c, c.table.log = [.onResult 0 (zeros 4) () () 1 true] ∧ c.parsers.length = 1 ∧
      ¬ Harmless (setSendResultResponse (onlooker voidSetup Unit) 1 (zeros 4)) c := by
  obtain ⟨c, hc, log, none, active⟩ := answered_reachable
  exact ⟨c, log, active,
    (unknown_response_never_harmless _ 1 c hc (zeros 4) (by rw [none]; nofun)).1⟩

/-- A request that was answered is answered again. -/
theorem duplicated_response_follows_null :
    ∃ c, Reachable (onlooker voidSetup Unit) 1 c ∧
      c.table.log = [.onResult 0 (zeros 4) () () 1 true] ∧ c.table.pending = [] ∧
      ¬ Harmless (setSendResultResponse (onlooker voidSetup Unit) 1 (zeros 4)) c ∧
      ¬ Harmless (setSendErrorResponse (onlooker voidSetup Unit) 1 (zeros 4) (zeros 1) (zeros 4))
        c := by
  obtain ⟨c, hc, log, none, -⟩ := answered_reachable
  have unknown : ∀ e ∈ c.table.pending, e.requestId ≠ zeros 4 := by
    rw [none]
    nofun
  refine ⟨c, hc, log, none, fun ha => ?_, fun ha => ?_⟩
  · cases (setSendResultResponse_unknown unknown).symm.trans ha
  · cases (setSendErrorResponse_unknown unknown _ _).symm.trans ha

end Ae.Api.Responses
