/- source: api_protocol/{api_context,api_method,api_pack_parser,return_result_api,send_result}.h
   digest: Recorded method calls, how they are packed, and what they ask of the peer. -/

import Ae.Api.ApiParser
import Ae.MStream.RoundTrip

set_option autoImplicit false

namespace Ae.Api.ApiContext
open MStream.Operators
open ProtocolContext ApiParser

variable {ι τ : Type}

mutual

inductive Calls (setup : Setup τ) (promised : RequestId → τ) (apis : ι → ImplList ι τ) : ι → Type
  | nil {api : ι} : Calls setup promised apis api
  | push {api : ι} (call : Call setup promised apis api) (others : Calls setup promised apis api) :
      Calls setup promised apis api

/-- A recorded call of a method that the API class has: the three specialisations of `Method`,
the last with its `ChildPacketStack`, and the two calls of `ReturnResultApi`. The result sent
for a request is of the type that its promise is for. -/
inductive Call (setup : Setup τ) (promised : RequestId → τ) (apis : ι → ImplList ι τ) : ι → Type
  | plain {api : ι} (id : UInt8) (args : τ)
      (registered : (id, Method.plain args) ∈ (apis api).methods)
      (v : (setup.types args).type) : Call setup promised apis api
  | promise {api : ι} (id : UInt8) (args : τ)
      (registered : (id, Method.promise args) ∈ (apis api).methods)
      (requestId : RequestId) (v : (setup.types args).type) : Call setup promised apis api
  | sub {api : ι} (id : UInt8) (inner : ι) (args : τ)
      (registered : (id, Method.sub inner args) ∈ (apis api).methods)
      (v : (setup.types args).type) (child : Calls setup promised apis inner) :
      Call setup promised apis api
  | sendResult {api : ι} (id : UInt8) (registered : (id, Method.sendResult) ∈ (apis api).methods)
      (requestId : RequestId) (v : (setup.types (promised requestId)).type) :
      Call setup promised apis api
  | sendError {api : ι} (id : UInt8) (registered : (id, Method.sendError) ∈ (apis api).methods)
      (requestId : RequestId) (errorType : Bytes 1) (errorCode : Bytes 4) :
      Call setup promised apis api

end

section

variable {setup : Setup τ} {promised : RequestId → τ} {apis : ι → ImplList ι τ} {api : ι}

namespace Call

def id : Call setup promised apis api → UInt8
  | plain id _ _ _ => id
  | promise id _ _ _ _ => id
  | sub id _ _ _ _ _ => id
  | sendResult id _ _ _ => id
  | sendError id _ _ _ _ => id

def method : Call setup promised apis api → Method ι τ
  | plain _ args _ _ => .plain args
  | promise _ args _ _ _ => .promise args
  | sub _ inner args _ _ _ => .sub inner args
  | sendResult _ _ _ _ => .sendResult
  | sendError _ _ _ _ _ => .sendError

theorem registered : (c : Call setup promised apis api) → (c.id, c.method) ∈ (apis api).methods
  | plain _ _ registered _ | promise _ _ registered _ _ | sub _ _ _ registered _ _
  | sendResult _ registered _ _ | sendError _ registered _ _ _ => registered

def tail : Call setup promised apis api → List UInt8
  | sendResult _ _ requestId v => ((setup.types (promised requestId)).codec setup.size).put v
  | _ => []

end Call

def elements (bytes : List UInt8) : List (Bytes 1) := bytes.map fun b => ⟨[b], rfl⟩

theorem elements_bytes (bytes : List UInt8) : (elements bytes).flatMap Subtype.val = bytes := by
  induction bytes with
  | nil => rfl
  | cons b bytes ih =>
    rw [elements, List.map_cons, List.flatMap_cons]
    exact congrArg (b :: ·) ih

mutual

def Calls.bytes : {api : ι} → Calls setup promised apis api → List UInt8
  | _, .nil => []
  | _, .push call others =>
    (call.id :: ((call.method.message setup).codec setup.size).put call.value ++ call.tail) ++
      others.bytes

def Call.value : {api : ι} → (call : Call setup promised apis api) →
    (call.method.message setup).type
  | _, .plain _ _ _ v => v
  | _, .promise _ _ _ requestId v => (requestId, v)
  | _, .sub _ _ _ _ v child => (v, elements child.bytes)
  | _, .sendResult _ _ requestId _ => requestId
  | _, .sendError _ _ requestId errorType errorCode => (requestId, errorType, errorCode)

end

def Call.bytes (call : Call setup promised apis api) : List UInt8 :=
  call.id :: ((call.method.message setup).codec setup.size).put call.value ++ call.tail

mutual

def Calls.pack : {api : ι} → Nat → Calls setup promised apis api → Except Fault (List UInt8)
  | _, _, .nil => .ok []
  | _, slots, .push call others => do
    let message ← call.pack slots
    let rest ← others.pack slots
    pure (message ++ rest)

def Call.pack : {api : ι} → Nat → Call setup promised apis api → Except Fault (List UInt8)
  | _, 0, .sub _ _ _ _ _ _ => .error .packerStackFull
  | _, slots + 1, .sub id _ args _ v child => do
    let data ← child.pack slots
    pure (id :: ((setup.types args).codec setup.size).put v ++
      (buffer.codec setup.size).put (elements data))
  | _, _, call@(.plain _ _ _ _) => .ok call.bytes
  | _, _, call@(.promise _ _ _ _ _) => .ok call.bytes
  | _, _, call@(.sendResult _ _ _ _) => .ok call.bytes
  | _, _, call@(.sendError _ _ _ _ _) => .ok call.bytes

end

def pack (active : Nat) (calls : Calls setup promised apis api) : Except Fault (List UInt8) :=
  if setup.maxParserPackerDepth ≤ active then .error .packerStackFull
  else calls.pack (setup.maxParserPackerDepth - (active + 1))

mutual

def Calls.depth : {api : ι} → Calls setup promised apis api → Nat
  | _, .nil => 0
  | _, .push call others => max call.depth others.depth

def Call.depth : {api : ι} → Call setup promised apis api → Nat
  | _, .sub _ _ _ _ _ child => child.depth + 1
  | _, .plain _ _ _ _ => 0
  | _, .promise _ _ _ _ _ => 0
  | _, .sendResult _ _ _ _ => 0
  | _, .sendError _ _ _ _ _ => 0

end

mutual

theorem Calls.pack_eq : {api : ι} → (cs : Calls setup promised apis api) → (ss : Nat) →
    cs.depth ≤ ss → cs.pack ss = .ok cs.bytes
  | _, .nil, _, _ => rfl
  | _, .push call others, ss, within => by
    rw [Calls.depth, Nat.max_le] at within
    rw [Calls.pack, call.pack_eq ss within.1, others.pack_eq ss within.2]
    rfl

theorem Call.pack_eq : {api : ι} → (c : Call setup promised apis api) → (ss : Nat) →
    c.depth ≤ ss → c.pack ss = .ok c.bytes
  | _, .sub _ _ _ _ _ child, ss + 1, within => by
    rw [Call.pack, child.pack_eq ss (Nat.le_of_succ_le_succ within)]
    simp only [Call.bytes, Call.tail, List.append_nil]
    rfl
  | _, .plain _ _ _ _, _, _ | _, .promise _ _ _ _ _, _, _ | _, .sendResult _ _ _ _, _, _
  | _, .sendError _ _ _ _ _, _, _ => by rw [Call.pack]

end

theorem pack_of_depth {a : Nat} {cs : Calls setup promised apis api}
    (hw : a + 1 + cs.depth ≤ setup.maxParserPackerDepth) :
    pack a cs = .ok cs.bytes := by
  rw [pack, if_neg (by omega)]
  exact cs.pack_eq _ (by omega)

end

end Ae.Api.ApiContext
