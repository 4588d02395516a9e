/- digest: Recorded calls made directly on the peer, and what its application gets to see. -/

import Ae.Api.ApiContext
import Ae.Api.Callbacks

set_option autoImplicit false

namespace Ae.Api.Delivery
open List MStream.Decoding MStream.RoundTrip
open Lib.StateRun ProtocolContext ApiParser ApiContext Callbacks

variable {ι τ : Type} {setup : Setup τ} {promised : RequestId → τ} {apis : ι → ImplList ι τ}

/-- What the peer has of a value: it is written over a default-constructed one. -/
def received (setup : Setup τ) (d : Described) (v : d.type) : d.type :=
  (descShape setup.size d.desc).merge v (d.codec setup.size).init

def Speaks (setup : Setup τ) (d : Described) (v : d.type) : Prop :=
  (descShape setup.size d.desc).speaks v (d.codec setup.size).init

theorem received_eq_iff {d : Described} {v : d.type} : received setup d v = v ↔ Speaks setup d v :=
  (descShape setup.size d.desc).merge_eq_iff v _

inductive Reception (ι : Type) (setup : Setup τ) where
  | handler (call : Invocation ι setup)
  | result (requestId : RequestId) (awaited : τ) (value : (setup.types awaited).type)

def reception : ParserEvent ι setup → Option (Reception ι setup)
  | .handler call => some (.handler call)
  | .onResult _ requestId awaited value _ _ => some (.result requestId awaited value)
  | .onError _ _ _ _ => none
  | .onEvicted _ _ => none

def receptions (log : List (ParserEvent ι setup)) : List (Reception ι setup) :=
  log.filterMap reception

section

variable (app : ParserApp ι setup) (frames : Nat)
  (see : (d : Described) → d.type → d.type)

def answer (requestId : RequestId) (event : Response τ → ParserEvent ι setup) :
    TableM setup (Invocation ι setup) Unit := do
  let entry ← takePending requestId
  match entry.response with
  | none => throw .nullResponse
  | some response => do
    callback app frames (event response)
    destroyPending entry

def invocation {api : ι} (depth : Nat) (call : Call setup promised apis api) : Invocation ι setup :=
  ⟨api, call.id, call.method, see _ call.value, depth, true⟩

mutual

def deliverAll : {api : ι} → Nat → Calls setup promised apis api →
    TableM setup (Invocation ι setup) Unit
  | _, _, .nil => pure ()
  | _, depth, .push call others => do
    deliver depth call
    deliverAll depth others

def deliver : {api : ι} → Nat → Call setup promised apis api →
    TableM setup (Invocation ι setup) Unit
  | _, depth, call@(.plain _ _ _ _) =>
    callback app frames (.handler (invocation see depth call))
  | _, depth, call@(.promise _ _ _ _ _) =>
    callback app frames (.handler (invocation see depth call))
  | _, depth, call@(.sub _ _ _ _ _ child) => do
    callback app frames (.handler (invocation see depth call))
    deliverAll (depth + 1) child
    subscribe (callback app frames) app.leave
  | _, depth, call@(.sendResult _ _ requestId v) => do
    record (.handler (invocation see depth call))
    answer app frames requestId (fun response =>
      .onResult response.serial requestId (promised requestId) (see _ v) depth true)
  | _, depth, call@(.sendError _ _ requestId errorType errorCode) => do
    record (.handler (invocation see depth call))
    answer app frames requestId (fun response =>
      .onError response.serial requestId errorType errorCode)

end

mutual

def expectedAll : {api : ι} → Nat → Calls setup promised apis api → List (Reception ι setup)
  | _, _, .nil => []
  | _, depth, .push call others => expected depth call ++ expectedAll depth others

def expected : {api : ι} → Nat → Call setup promised apis api → List (Reception ι setup)
  | _, depth, call@(.plain _ _ _ _) => [.handler (invocation see depth call)]
  | _, depth, call@(.promise _ _ _ _ _) => [.handler (invocation see depth call)]
  | _, depth, call@(.sub _ _ _ _ _ child) =>
    .handler (invocation see depth call) :: expectedAll (depth + 1) child
  | _, depth, call@(.sendResult _ _ requestId v) =>
    [.handler (invocation see depth call), .result requestId (promised requestId) (see _ v)]
  | _, depth, call@(.sendError _ _ _ _ _) => [.handler (invocation see depth call)]

end

end

mutual

def AllSpeak : {api : ι} → Calls setup promised apis api → Prop
  | _, .nil => True
  | _, .push call others => CallSpeaks call ∧ AllSpeak others

def CallSpeaks : {api : ι} → Call setup promised apis api → Prop
  | _, call@(.plain _ _ _ _) => Speaks setup _ call.value
  | _, call@(.promise _ _ _ _ _) => Speaks setup _ call.value
  | _, call@(.sub _ _ _ _ _ child) => Speaks setup _ call.value ∧ AllSpeak child
  | _, call@(.sendResult _ _ _ v) => Speaks setup _ call.value ∧ Speaks setup _ v
  | _, call@(.sendError _ _ _ _ _) => Speaks setup _ call.value

end

def messageSites {api : ι} (call : Call setup promised apis api) : List Site :=
  (descShape setup.size (call.method.message setup).desc).sites call.value

mutual

def allSites : {api : ι} → Calls setup promised apis api → List Site
  | _, .nil => []
  | _, .push call others => callSites call ++ allSites others

def callSites : {api : ι} → Call setup promised apis api → List Site
  | _, call@(.plain _ _ _ _) => messageSites call
  | _, call@(.promise _ _ _ _ _) => messageSites call
  | _, call@(.sub _ _ _ _ _ child) => messageSites call ++ allSites child
  | _, call@(.sendResult _ _ requestId v) =>
    messageSites call ++ (descShape setup.size (setup.types (promised requestId)).desc).sites v
  | _, call@(.sendError _ _ _ _ _) => messageSites call

end

section

variable {app : ParserApp ι setup} {frames : Nat}
  {see : (d : Described) → d.type → d.type} {t t' : ParserTable ι setup}

theorem receptions_append (xs ys : List (ParserEvent ι setup)) :
    receptions (xs ++ ys) = receptions xs ++ receptions ys :=
  filterMap_append

theorem receptions_evicted {new : List (ParserEvent ι setup)}
    (he : ∀ e ∈ new, Evicted e) : receptions new = [] := by
  apply filterMap_eq_nil_iff.mpr
  intro e hm
  obtain ⟨s, ri, rfl⟩ := he e hm
  rfl

theorem callback_receptions {e : ParserEvent ι setup}
    (hr : (callback app frames e).run t = .ok () t') :
    receptions t'.log = receptions t.log ++ receptions [e] := by
  obtain ⟨new, hl, he⟩ := callback_log app frames e t
  rw [hr] at hl
  rw [show t'.log = t.log ++ ([e] ++ new) from hl, receptions_append, receptions_append,
    receptions_evicted he, append_nil]

theorem moves_receptions {α : Type} {S : Subscription τ → Prop} {a : α}
    {x : TableM setup (Invocation ι setup) α} (hk : Keeps (Moves S) x)
    (hr : x.run t = .ok a t') : receptions t'.log = receptions t.log := by
  have hm := hk t
  rw [hr] at hm
  obtain ⟨new, hl, he⟩ := moves_log hm
  rw [show t'.log = t.log ++ new from hl, receptions_append, receptions_evicted he, append_nil]

theorem answer_receptions {ri : RequestId} {e : Response τ → ParserEvent ι setup}
    (hrt : (answer app frames ri e).run t = .ok () t') :
    ∃ response, receptions t'.log = receptions t.log ++ receptions [e response] := by
  obtain ⟨en, t1, ht, hr⟩ := of_bind_ok hrt
  have hb := moves_receptions (S := fun _ => True) (takePending_moves ri) ht
  cases response : en.response with
  | none =>
    rw [response] at hr
    cases hr
  | some r' =>
    rw [response] at hr
    obtain ⟨_, t2, hc, hd⟩ := of_bind_ok hr
    refine ⟨r', ?_⟩
    rw [moves_receptions (S := fun _ => True) (destroyPending_moves en) hd,
      callback_receptions hc, hb]

mutual

theorem deliverAll_receptions : {api : ι} → (cs : Calls setup promised apis api) →
    {de : Nat} → {t t' : ParserTable ι setup} →
    (deliverAll app frames see de cs).run t = .ok () t' →
      receptions t'.log = receptions t.log ++ expectedAll see de cs
  | _, .nil, _, _, _, returns => by
    cases returns
    exact (append_nil _).symm
  | _, .push call others, _, _, _, returns => by
    rw [deliverAll] at returns
    obtain ⟨_, t1, first, rest⟩ := of_bind_ok returns
    rw [deliverAll_receptions others rest, deliver_receptions call first, expectedAll, append_assoc]

theorem deliver_receptions : {api : ι} → (c : Call setup promised apis api) →
    {de : Nat} → {t t' : ParserTable ι setup} →
    (deliver app frames see de c).run t = .ok () t' →
      receptions t'.log = receptions t.log ++ expected see de c
  | _, .plain _ _ _ _, _, _, _, returns | _, .promise _ _ _ _ _, _, _, _, returns => by
    rw [deliver] at returns
    rw [callback_receptions returns, expected]
    rfl
  | _, .sub _ _ _ _ _ child, _, _, _, returns => by
    rw [deliver] at returns
    obtain ⟨_, t1, hc, rest⟩ := of_bind_ok returns
    obtain ⟨_, t2, hw, left⟩ := of_bind_ok rest
    rw [moves_receptions (subscribe_any app frames app.leave) left,
      deliverAll_receptions child hw, callback_receptions hc, expected, append_assoc]
    rfl
  | _, .sendResult _ _ _ _, _, _, _, returns | _, .sendError _ _ _ _ _, _, _, _, returns => by
    rw [deliver, record] at returns
    obtain ⟨response, seen⟩ := answer_receptions ((modify_bind _ _ _).symm.trans returns)
    rw [seen, expected, receptions_append, append_assoc]
    rfl

end

end

section

theorem invocation_eq_iff {api : ι} {de : Nat} {c : Call setup promised apis api} :
    invocation (received setup) de c = invocation (fun _ v => v) de c ↔
      Speaks setup _ c.value := by
  rw [← received_eq_iff]
  constructor
  · intro he
    rw [invocation, invocation, Invocation.mk.injEq] at he
    exact eq_of_heq he.2.2.2.1
  · intro he
    rw [invocation, invocation, he]

mutual

theorem expectedAll_length (see s' : (d : Described) → d.type → d.type) : {api : ι} →
    (cs : Calls setup promised apis api) → (de : Nat) →
    (expectedAll see de cs).length = (expectedAll s' de cs).length
  | _, .nil, _ => rfl
  | _, .push call others, de => by
    rw [expectedAll, expectedAll, length_append, length_append,
      expected_length see s' call de, expectedAll_length see s' others de]

theorem expected_length (see s' : (d : Described) → d.type → d.type) : {api : ι} →
    (c : Call setup promised apis api) → (de : Nat) →
    (expected see de c).length = (expected s' de c).length
  | _, .plain _ _ _ _, _ => by rw [expected, expected, length_singleton, length_singleton]
  | _, .promise _ _ _ _ _, _ => by
    rw [expected, expected, length_singleton, length_singleton]
  | _, .sub _ _ _ _ _ child, de => by
    rw [expected, expected, length_cons, length_cons, expectedAll_length see s' child (de + 1)]
  | _, .sendResult _ _ _ _, _ => by rw [expected, expected]; rfl
  | _, .sendError _ _ _ _ _, _ => by
    rw [expected, expected, length_singleton, length_singleton]

end

theorem handler_eq_iff {api : ι} {de : Nat} {c : Call setup promised apis api}
    {xs ys : List (Reception ι setup)} :
    .handler (invocation (received setup) de c) :: xs =
        .handler (invocation (fun _ v => v) de c) :: ys ↔
      Speaks setup _ c.value ∧ xs = ys := by
  rw [cons.injEq, Reception.handler.injEq, invocation_eq_iff]

mutual

theorem expectedAll_eq_iff : {api : ι} → (cs : Calls setup promised apis api) → (de : Nat) →
    (expectedAll (received setup) de cs = expectedAll (fun _ v => v) de cs ↔
      AllSpeak cs)
  | _, .nil, _ => by
    rw [expectedAll, expectedAll, AllSpeak]
    exact iff_of_true rfl trivial
  | _, .push call others, de => by
    rw [expectedAll, expectedAll, AllSpeak, ← expected_eq_iff call de,
      ← expectedAll_eq_iff others de]
    constructor
    · intro he
      exact append_inj he (expected_length _ _ call de)
    · rintro ⟨first, rest⟩
      rw [first, rest]

theorem expected_eq_iff : {api : ι} → (c : Call setup promised apis api) → (de : Nat) →
    (expected (received setup) de c = expected (fun _ v => v) de c ↔ CallSpeaks c)
  | _, .plain _ _ _ _, de | _, .promise _ _ _ _ _, de => by
    rw [expected, expected, CallSpeaks, handler_eq_iff, and_iff_left rfl]
  | _, .sub _ _ _ _ _ child, de => by
    rw [expected, expected, CallSpeaks, handler_eq_iff, expectedAll_eq_iff child]
  | _, .sendResult _ _ requestId v, de => by
    rw [expected, expected, CallSpeaks, handler_eq_iff, cons.injEq, and_iff_left rfl,
      ← received_eq_iff (v := v), Reception.result.injEq, heq_eq_eq, and_iff_right rfl,
      and_iff_right rfl]
  | _, .sendError _ _ _ _ _, de => by
    rw [expected, expected, CallSpeaks, handler_eq_iff, and_iff_left rfl]

end

variable {app : ParserApp ι setup} {frames : Nat}

mutual

theorem deliverAll_of_speak : {api : ι} → (cs : Calls setup promised apis api) →
    (de : Nat) → AllSpeak cs →
    deliverAll app frames (received setup) de cs = deliverAll app frames (fun _ v => v) de cs
  | _, .nil, _, _ => by rw [deliverAll, deliverAll]
  | _, .push call others, de, speak => by
    rw [AllSpeak] at speak
    rw [deliverAll, deliverAll, deliver_of_speaks call de speak.1,
      deliverAll_of_speak others de speak.2]

theorem deliver_of_speaks : {api : ι} → (c : Call setup promised apis api) →
    (de : Nat) → CallSpeaks c →
    deliver app frames (received setup) de c = deliver app frames (fun _ v => v) de c
  | _, .plain _ _ _ _, _, speaks | _, .promise _ _ _ _ _, _, speaks => by
    rw [CallSpeaks] at speaks
    rw [deliver, deliver, invocation_eq_iff.mpr speaks]
  | _, .sub _ _ _ _ _ child, de, speaks => by
    rw [CallSpeaks] at speaks
    rw [deliver, deliver, invocation_eq_iff.mpr speaks.1,
      deliverAll_of_speak child (de + 1) speaks.2]
  | _, .sendResult _ _ _ v, _, speaks => by
    rw [CallSpeaks] at speaks
    rw [deliver, deliver, invocation_eq_iff.mpr speaks.1, received_eq_iff.mpr speaks.2]
  | _, .sendError _ _ _ _ _, _, speaks => by
    rw [CallSpeaks] at speaks
    rw [deliver, deliver, invocation_eq_iff.mpr speaks]

end

end

end Ae.Api.Delivery
