/- source: api_protocol/{api_class_impl,api_pack_parser,api_context}.h
   digest: Parsing packed calls does what making the calls directly does. -/

import Ae.Api.Delivery
import Ae.Api.Responses

set_option autoImplicit false

namespace Ae.Api.Correspondence
open List MStream.VectorReader MStream.Operators MStream.RoundTrip
open Lib.StateRun ProtocolContext ApiParser ApiContext Callbacks Delivery Responses

variable {ι τ : Type} {setup : Setup τ} {promised : RequestId → τ} {apis : ι → ImplList ι τ}

/-- Who waits for the result of a request waits for the type that was promised for it. -/
def Typed (promised : RequestId → τ) (t : ParserTable ι setup) : Prop :=
  ∀ e ∈ t.pending, ∀ response, e.response = some response → response.awaited = promised e.requestId

def Promised (promised : RequestId → τ) (s : Subscription τ) : Prop :=
  s.awaited = promised s.requestId

/-- The application subscribes to promises as they were given, and the handlers of sub APIs
parse their payloads. -/
structure Cooperates (app : ParserApp ι setup) (promised : RequestId → τ) :
    Prop where
  enters : Enters app (Promised promised)
  parses : ∀ log, app.parses log = true
  leaves : ∀ log, ∀ s ∈ app.leave log, Promised promised s

variable {t : ParserTable ι setup} {y : TableM setup (Invocation ι setup) Unit} {r : Reader}
  {outer : List Reader} {ys : List UInt8} {app : ParserApp ι setup} {frames : Nat}

section

variable {t' : ParserTable ι setup}

theorem move_typed (hmv : Move (Promised promised) t t') (ht : Typed promised t) :
    Typed promised t' := by
  cases hmv with
  | evict se requestId => exact ht
  | drop hf => exact fun e hm => ht e (hf.subset hm)
  | free l => exact ht
  | add s ha =>
    refine forall_mem_append.mpr ⟨ht, ?_⟩
    intro e hm re hs
    rw [mem_singleton.mp hm] at hs ⊢
    cases hs
    exact ha

theorem moves_typed (hm : Moves (Promised promised) t t') (ht : Typed promised t) :
    Typed promised t' := by
  induction hm with
  | refl => exact ht
  | tail _ hmv ih => exact move_typed hmv ih

theorem callback_typed {app : ParserApp ι setup}
    (hc : Cooperates app promised) (frames : Nat)
    (e : ParserEvent ι setup) (ht : Typed promised t) :
    Typed promised (final ((callback app frames e).run t)) :=
  moves_typed (callback_moves hc.enters frames e t) ht

end

/-- From here the program on the context does what the one on its table does: it returns with
the active parser at `ys` and none of its reads refused, or it stops with the same fault. -/
def Mirrors (promised : RequestId → τ) (x : ParserM ι setup Unit)
    (y : TableM setup (Invocation ι setup) Unit)
    (t : ParserTable ι setup) (r : Reader) (outer : List Reader) (ys : List UInt8) :
    Prop :=
  match y.run t with
  | .ok _ t' => Typed promised t' ∧
      ∃ r', x.run ⟨t, r :: outer⟩ = .ok () ⟨t', r' :: outer⟩ ∧ r'.rest = ys ∧ r'.failed = false
  | .error e t' => ∃ parsers, x.run ⟨t, r :: outer⟩ = .error e ⟨t', parsers⟩

namespace Mirrors

variable {x x' : ParserM ι setup Unit} {y' : TableM setup (Invocation ι setup) Unit} {r' : Reader}
  {zs : List UInt8}

theorem of_run (he : x.run ⟨t, r :: outer⟩ = x'.run ⟨t, r' :: outer⟩)
    (h : Mirrors promised x' y t r' outer ys) : Mirrors promised x y t r outer ys := by
  unfold Mirrors at h ⊢
  rw [he]
  exact h

theorem bind (ys : List UInt8) (h1 : Mirrors promised x y t r outer ys)
    (hn : ∀ t' r', Typed promised t' → r'.rest = ys → r'.failed = false →
      Mirrors promised x' y' t' r' outer zs) :
    Mirrors promised (x >>= fun _ => x') (y >>= fun _ => y') t r outer zs := by
  unfold Mirrors at h1 ⊢
  cases run : y.run t with
  | ok a t' =>
    rw [run] at h1
    obtain ⟨ht, r', hr, hrs, hc⟩ := h1
    have ha := hn t' r' ht hrs hc
    unfold Mirrors at ha
    rw [bind_ok run, bind_ok hr]
    exact ha
  | error e t' =>
    rw [run] at h1
    obtain ⟨ps, hs⟩ := h1
    rw [bind_error run]
    exact ⟨ps, bind_error hs⟩

theorem onTable (ht : Typed promised (final (y.run t))) (hr : r.rest = ys)
    (hc : r.failed = false) : Mirrors promised (onTable y) y t r outer ys := by
  unfold Mirrors
  cases run : y.run t with
  | ok a t' =>
    rw [run] at ht
    exact ⟨ht, r, onTable_ok run, hr, hc⟩
  | error e t' => exact ⟨_, onTable_error run⟩

end Mirrors

open Mirrors

section

variable {requestId : RequestId}

theorem mirrors_answer {x : PendingEntry τ → ParserM ι setup Unit}
    {ev : Response τ → ParserEvent ι setup} (htp : Typed promised t)
    (hab : ∀ t e, e.response = none →
      ∃ ps, (x e).run ⟨t, r :: outer⟩ = .error .nullResponse ⟨t, ps⟩)
    (hp : ∀ t e re, Typed promised t → e.response = some re → re.awaited = promised requestId →
      Mirrors promised (x e) (do callback app frames (ev re); destroyPending e) t r outer ys) :
    Mirrors promised (onTable (takePending requestId) >>= x) (answer app frames requestId ev)
      t r outer ys := by
  obtain ⟨e, t1, ht, hk⟩ := takePending_returns requestId t
  have ht1 : Typed promised t1 := by
    have hm := takePending_moves (S := Promised promised) requestId t
    rw [ht] at hm
    exact moves_typed hm htp
  unfold Mirrors answer
  rw [bind_ok ht, bind_ok (onTable_ok ht)]
  cases some : e.response with
  | none => exact hab t1 e some
  | some re =>
    obtain ⟨mem, he⟩ := hk re some
    have ha := htp e mem re some
    rw [he] at ha
    exact hp t1 e re ht1 some ha

theorem mirrors_destroy {e : PendingEntry τ} (ht : Typed promised t) (hr : r.rest = ys)
    (hc : r.failed = false) :
    Mirrors promised (onTable (destroyPending e)) (destroyPending e) t r outer ys :=
  onTable (moves_typed (destroyPending_moves e t) ht) hr hc

theorem mirrors_callback (hc : Cooperates app promised)
    {e : ParserEvent ι setup} (ht : Typed promised t) (hr : r.rest = ys)
    (hcl : r.failed = false) :
    Mirrors promised (onTable (callback app frames e)) (callback app frames e)
      t r outer ys :=
  onTable (callback_typed hc frames e ht) hr hcl

theorem mirrors_setSendErrorResponse (hcp : Cooperates app promised)
    (ht : Typed promised t) (hr : r.rest = ys) (hc : r.failed = false)
    (et : Bytes 1) (ec : Bytes 4) :
    Mirrors promised (setSendErrorResponse app frames requestId et ec)
      (answer app frames requestId (fun re =>
        .onError re.serial requestId et ec)) t r outer ys := by
  refine mirrors_answer ht (fun t e hn => ?_) (fun t e re ht hs _ => ?_)
  · refine ⟨cancelled r :: outer, ?_⟩
    rw [cancelUnanswerable, hn]
    exact bind_ok (cancel_run rfl)
  · rw [cancelUnanswerable, hs]
    apply (mirrors_callback hcp ht hr hc).bind
    exact fun t' r' ht hr hc => mirrors_destroy ht hr hc

theorem mirrors_setSendResultResponse (hcp : Cooperates app promised)
    (ht : Typed promised t) (hcl : r.failed = false) (v : (setup.types (promised requestId)).type)
    (hr : r.rest = ((setup.types (promised requestId)).codec setup.size).put v ++ ys)
    (hg : ∀ si ∈ (descShape setup.size (setup.types (promised requestId)).desc).sites v,
      si.Good setup.size) :
    Mirrors promised (setSendResultResponse app frames requestId)
      (answer app frames requestId (fun re => .onResult re.serial requestId
        (promised requestId) (received setup _ v) (outer.length + 1) true)) t r outer ys := by
  refine mirrors_answer ht (fun t e hn => ?_)
    (fun t e re ht hs ha => ?_)
  · refine ⟨cancelled r :: outer, ?_⟩
    rw [cancelUnanswerable, hn]
    apply (bind_ok (cancel_run rfl)).trans
    exact bind_ok (parser_run rfl)
  · obtain ⟨s, rs⟩ := re
    cases ha
    obtain ⟨r', get, hc⟩ := (desc_decodes setup.size _).leaves v
      ((setup.types (promised requestId)).codec setup.size).init hg r ys hr
    have hc' : r'.failed = false := hc.failed.trans hcl
    rw [cancelUnanswerable, hs]
    refine of_run ((bind_ok rfl).trans (bind_ok (parser_run rfl))) ?_
    refine bind ys ?_ (fun t' r' ht hr hcl => mirrors_destroy ht hr hcl)
    refine of_run ((bind_ok (extract_run rfl get)).trans (bind_ok (standing_run rfl))) ?_
    rw [hc']
    exact mirrors_callback hcp ht (hc.rest hr) hc'

theorem mirrors_pure (ht : Typed promised t) (hr : r.rest = ys) (hc : r.failed = false) :
    Mirrors promised (pure () : ParserM ι setup Unit) (pure ()) t r outer ys :=
  ⟨ht, r, rfl, hr, hc⟩

theorem mirrors_withPayload {pa : ParserM ι setup Unit} {ca : Invocation ι setup} {p : List UInt8}
    (hf : outer.length + 1 < setup.maxParserPackerDepth) (hrs : r.rest = ys) (hc : r.failed = false)
    (hs : Mirrors promised (serve app frames pa ca) y t (Reader.start p) (r :: outer) []) :
    Mirrors promised (withPayload app frames pa ca p) y t r outer ys := by
  unfold Mirrors at hs ⊢
  cases run : y.run t with
  | ok a t' =>
    rw [run] at hs
    obtain ⟨ht, r', hr, -, -⟩ := hs
    exact ⟨ht, r, withPayload_ok (c := ⟨t, r :: outer⟩) hf hr rfl, hrs, hc⟩
  | error e t' =>
    rw [run] at hs
    obtain ⟨ps, hst⟩ := hs
    exact ⟨ps, withPayload_error (c := ⟨t, r :: outer⟩) hf hst⟩

theorem mirrors_serve (hc : Cooperates app promised) {c : Invocation ι setup}
    {p : ParserM ι setup Unit} (ht : Typed promised t)
    (hcl : r.failed = false)
    (hp : ∀ t' r', Typed promised t' → r'.rest = r.rest → r'.failed = false →
      Mirrors promised p y t' r' outer []) :
    Mirrors promised (serve app frames p c)
      (do callback app frames (.handler c); y; subscribe (callback app frames) app.leave)
      t r outer [] := by
  refine (mirrors_callback hc ht rfl hcl).bind _ (fun t1 r1 ht1 hr1 hc1 => ?_)
  refine bind [] ?_ (fun t2 r2 ht2 hr2 hc2 => ?_)
  · have hw : (whenWanted app p).run ⟨t1, r1 :: outer⟩ = p.run ⟨t1, r1 :: outer⟩ := by
      rw [whenWanted, get_bind, if_pos (hc.parses _)]
    exact of_run hw (hp t1 r1 ht1 hr1 hc1)
  · have hm := leave_moves hc.enters frames hc.leaves t2
    exact onTable (moves_typed hm ht2) hr2 hc2

theorem mirrors_message (hd : ∀ api, ((apis api).methods.map Prod.fst).Nodup) {api : ι}
    (ca : Call setup promised apis api)
    {p : ι → ParserM ι setup Unit}
    (hg : ∀ s ∈ messageSites ca, s.Good setup.size) (hr : r.rest = ca.bytes ++ ys)
    (hc : r.failed = false) (hn : ∀ r', r'.rest = ca.tail ++ ys → r'.failed = false →
      Mirrors promised (invoke app frames p
        (invocation (received setup) (outer.length + 1) ca) ca.method
        (received setup _ ca.value)) y t r' outer ys) :
    Mirrors promised (nextMessage (loadFactory app frames p api (apis api))) y t r outer
      ys := by
  rw [Call.bytes, append_assoc, cons_append] at hr
  obtain ⟨r1, hrd, -, hc1⟩ :=
    nextId_run (c := (⟨t, r :: outer⟩ : ParserContext ι setup)) rfl hr
  have hr1 := @Consumed.rest r r1 [ca.id] _ hc1 hr
  obtain ⟨r2, get, hc2⟩ := (desc_decodes setup.size _).leaves ca.value
    ((ca.method.message setup).codec setup.size).init hg r1 (ca.tail ++ ys) hr1
  have hcl2 : r2.failed = false := hc2.failed.trans (hc1.failed.trans hc)
  refine of_run ?_ (hn r2 (hc2.rest hr1) hcl2)
  apply (bind_ok hrd).trans
  apply (loadFactory_known (find_registered (hd api) ca.registered)).trans
  apply (bind_ok (extract_run rfl get)).trans
  apply (bind_ok (standing_run rfl)).trans
  rw [hcl2]
  rfl

end

mutual

/-- By induction over the tree of calls, with any number of parsers below: the loop comes to the
end of the packed calls, as if the calls had been made directly. -/
theorem mirrors_calls (hd : ∀ api, ((apis api).methods.map Prod.fst).Nodup)
    (hc : Cooperates app promised) : {api : ι} → (cs : Calls setup promised apis api) →
    {ss rs : Nat} → {t : ParserTable ι setup} → {r : Reader} →
    {outer : List Reader} → cs.depth ≤ ss →
    outer.length + 1 + cs.depth ≤ setup.maxParserPackerDepth →
    (∀ s ∈ allSites cs, s.Good setup.size) → Typed promised t → r.rest = cs.bytes →
    r.failed = false → r.rest.length ≤ rs →
    Mirrors promised (parseLoop (loadFactory app frames (parse app frames apis ss) api
      (apis api)) rs) (deliverAll app frames (received setup) (outer.length + 1) cs)
      t r outer []
  | _, .nil, _, _, _, _, _, _, _, _, typed, rest, clean, _ => by
    rw [deliverAll]
    exact of_run (parseLoop_end rfl rest) (mirrors_pure typed rest clean)
  | _, .push call others, ss, rs, t, r, outer, within, room, good, typed, rest, clean, enough => by
    rw [Calls.depth, Nat.max_le] at within
    rw [Calls.depth] at room
    rw [allSites] at good
    obtain ⟨hg1, hg2⟩ := forall_mem_append.mp good
    have rest₁ : r.rest = call.bytes ++ others.bytes := by rw [rest, Calls.bytes, Call.bytes]
    have length := congrArg length rest₁
    rw [Call.bytes, cons_append, cons_append, length_cons, length_append] at length
    obtain ⟨rs, rfl⟩ : ∃ k, rs = k + 1 := ⟨rs - 1, by omega⟩
    have more : r.rest ≠ [] := fun hn => by rw [hn] at length; cases length
    rw [deliverAll]
    refine of_run (parseLoop_round rfl more) ?_
    refine (mirrors_call hd hc call within.1 (by omega) hg1 typed rest₁
      clean).bind _ (fun t' r' typed' hr' hc' => ?_)
    refine mirrors_calls hd hc others within.2 (by omega) hg2 typed' hr' hc' ?_
    rw [hr']
    omega

theorem mirrors_call (hd : ∀ api, ((apis api).methods.map Prod.fst).Nodup)
    (hc : Cooperates app promised) : {api : ι} → (c : Call setup promised apis api) →
    {ss : Nat} → {t : ParserTable ι setup} → {r : Reader} →
    {outer : List Reader} → {ys : List UInt8} → c.depth ≤ ss →
    outer.length + 1 + c.depth ≤ setup.maxParserPackerDepth →
    (∀ s ∈ callSites c, s.Good setup.size) → Typed promised t →
    r.rest = c.bytes ++ ys → r.failed = false →
    Mirrors promised (nextMessage (loadFactory app frames (parse app frames apis ss) api
      (apis api))) (deliver app frames (received setup) (outer.length + 1) c) t r outer ys
  | _, .plain _ _ _ _, _, _, _, _, _, _, _, good, typed, rest, clean
  | _, .promise _ _ _ _ _, _, _, _, _, _, _, _, good, typed, rest, clean => by
    rw [callSites] at good
    refine mirrors_message hd _ good rest clean (fun r' hr' hc' => ?_)
    rw [deliver]
    exact mirrors_callback hc typed hr' hc'
  | _, .sub _ inner _ _ _ child, 0, _, _, _, _, within, _, _, _, _, _ => by
    rw [Call.depth] at within
    cases within
  | _, .sub _ inner _ _ _ child, ss + 1, _, _, outer, ys, within, room, good, typed, rest,
      clean => by
    rw [Call.depth] at within room
    rw [callSites] at good
    obtain ⟨hg1, hg2⟩ := forall_mem_append.mp good
    refine mirrors_message hd _ hg1 rest clean (fun r' hr' hc' => ?_)
    rw [deliver]
    refine mirrors_withPayload (by omega) hr' hc' ?_
    refine mirrors_serve hc typed rfl (fun t1 r1 ht1 hr1 hc1 => ?_)
    have packed : r1.rest = child.bytes := hr1.trans (elements_bytes child.bytes)
    have room' : (r' :: outer).length + 1 + child.depth ≤ setup.maxParserPackerDepth := by
      rw [length_cons]
      omega
    refine of_run (bind_ok (parser_run rfl)) ?_
    exact mirrors_calls hd hc child (Nat.le_of_succ_le_succ within) room' hg2 ht1 packed hc1 le_rfl
  | _, .sendResult _ _ requestId v, _, _, _, _, _, _, _, good, typed, rest, clean => by
    rw [callSites] at good
    obtain ⟨hg1, hg2⟩ := forall_mem_append.mp good
    refine mirrors_message hd _ hg1 rest clean (fun r' hr' hc' => ?_)
    rw [deliver]
    refine bind _ (onTable typed hr' hc') (fun t1 r1 ht1 hr1 hc1 => ?_)
    exact mirrors_setSendResultResponse hc ht1 hc1 v hr1 hg2
  | _, .sendError _ _ requestId errorType errorCode, _, _, _, _, _, _, _, good, typed, rest,
      clean => by
    rw [callSites] at good
    refine mirrors_message hd _ good rest clean (fun r' hr' hc' => ?_)
    rw [deliver]
    refine bind _ (onTable typed hr' hc') (fun t1 r1 ht1 hr1 hc1 => ?_)
    exact mirrors_setSendErrorResponse hc ht1 hr1 hc1 errorType errorCode

end

/-- Parsing comes to the end of the input, and the application has got to see the recorded calls
and nothing else, in their order and with their arguments, request ids and payloads. -/
def Corresponds (app : ParserApp ι setup) (frames : Nat) {api : ι}
    (calls : Calls setup promised apis api) (bytes : List UInt8)
    (t : ParserTable ι setup) (outer : List Reader) : Prop :=
  ∃ t' r', (parse app frames apis setup.maxParserPackerDepth api).run
      ⟨t, Reader.start bytes :: outer⟩ = .ok () ⟨t', r' :: outer⟩ ∧ r'.rest = [] ∧
    receptions t'.log = receptions t.log ++ expectedAll (fun _ v => v) (outer.length + 1) calls

def ComeBack (app : ParserApp ι setup) (frames : Nat) {api : ι}
    (calls : Calls setup promised apis api) (t : ParserTable ι setup) (depth : Nat) :
    Prop :=
  ∃ t', (deliverAll app frames (fun _ v => v) depth calls).run t = .ok () t'

theorem parse_mirrors (hd : ∀ api, ((apis api).methods.map Prod.fst).Nodup)
    {app : ParserApp ι setup} (hc : Cooperates app promised)
    (frames : Nat) {api : ι} (cs : Calls setup promised apis api)
    {t : ParserTable ι setup} (ht : Typed promised t) {outer : List Reader}
    (hr : outer.length + 1 + cs.depth ≤ setup.maxParserPackerDepth)
    (hg : ∀ s ∈ allSites cs, s.Good setup.size) :
    Mirrors promised (parse app frames apis setup.maxParserPackerDepth api)
      (deliverAll app frames (received setup) (outer.length + 1) cs) t
      (Reader.start cs.bytes) outer [] := by
  obtain ⟨ss, hm⟩ := Nat.exists_eq_add_one_of_ne_zero setup.depth_pos.ne'
  rw [hm]
  refine Mirrors.of_run (bind_ok (parser_run rfl)) ?_
  exact mirrors_calls hd hc cs (by omega) hr hg ht rfl rfl le_rfl

/-- Calls within the limits of the stacks, with sizes that fit, fewer than `2 ^ 32` elements in
each list and a value in each `VariantType`, correspond to what the peer parses exactly where
nothing of a default-constructed argument shows through and the handlers come back. -/
theorem parse_packed_iff (distinct : ∀ api, ((apis api).methods.map Prod.fst).Nodup)
    (app : ParserApp ι setup) (cooperates : Cooperates app promised)
    (frames : Nat) {api : ι} (calls : Calls setup promised apis api) (active : Nat)
    (t : ParserTable ι setup) (typed : Typed promised t) (outer : List Reader)
    (packs : active + 1 + calls.depth ≤ setup.maxParserPackerDepth)
    (room : outer.length + 1 + calls.depth ≤ setup.maxParserPackerDepth)
    (fits : ∀ site ∈ allSites calls, site.Fits setup.size)
    (countable : ∀ site ∈ allSites calls, site.Countable) :
    ∃ bytes, pack active calls = .ok bytes ∧
      (Corresponds app frames calls bytes t outer ↔
        AllSpeak calls ∧ ComeBack app frames calls t (outer.length + 1)) := by
  refine ⟨calls.bytes, pack_of_depth packs, ?_⟩
  have hm := parse_mirrors distinct cooperates frames calls typed room
    (fun site hi => ⟨fits site hi, countable site hi⟩)
  unfold Mirrors at hm
  constructor
  · rintro ⟨t', r', hr, -, hsn⟩
    cases hd : (deliverAll app frames (received setup) (outer.length + 1) calls).run t with
    | error e t1 =>
      rw [hd] at hm
      obtain ⟨ps, hst⟩ := hm
      cases hr.symm.trans hst
    | ok _ t1 =>
      rw [hd] at hm
      obtain ⟨-, r1, hr1, -⟩ := hm
      cases hr.symm.trans hr1
      rw [deliverAll_receptions calls hd, append_cancel_left_eq] at hsn
      have hs := (expectedAll_eq_iff calls _).mp hsn
      refine ⟨hs, t', ?_⟩
      rw [← deliverAll_of_speak calls _ hs]
      exact hd
  · rintro ⟨hs, t1, hd⟩
    rw [deliverAll_of_speak calls _ hs, hd] at hm
    obtain ⟨-, r1, hr1, hrs1, -⟩ := hm
    exact ⟨t1, r1, hr1, hrs1, deliverAll_receptions calls hd⟩

def levelSetup : Setup Bool := smallSetup fun
  | true => number 1 Nat.one_pos
  | false => ⟨.compound, Option (Bytes 1) × Unit, MStream.RoundTrip.defaultedDesc⟩

def levelApis : Bool → ImplList Bool Bool
  | false => .regMethod 4 (.promise true) (.regMethod 5 (.sub true true)
      (.extApi (.regMethod 0 .sendResult (.regMethod 1 .sendError .nil)) .nil))
  | true => .regMethod 3 (.plain true) (.regMethod 7 (.plain false) .nil)

def levelCalls : Calls levelSetup (fun _ => true) levelApis false :=
  .push (.promise 4 true (by simp [levelApis, ImplList.methods]) (zeros 4) (zeros 1))
    (.push (.sub 5 true true (by simp [levelApis, ImplList.methods]) (zeros 1)
        (.push (.plain 3 true (by simp [levelApis, ImplList.methods]) (zeros 1)) .nil))
      (.push (.sendResult 0 (by simp [levelApis, ImplList.methods]) (zeros 4) (zeros 1)) .nil))

def waiting : Table levelSetup (Invocation Bool levelSetup) :=
  ⟨[⟨zeros 4, some ⟨0, true⟩⟩], [0], 1, []⟩

theorem parse_packed_iff_levels :
    ∃ bytes, pack 0 levelCalls = .ok bytes ∧
      Corresponds (onlooker levelSetup (Invocation Bool levelSetup)) 1 levelCalls bytes
        waiting [] := by
  have hl : Cooperates (onlooker levelSetup (Invocation Bool levelSetup)) (fun _ => true) :=
    ⟨fun _ _ hm => absurd hm not_mem_nil, fun _ => rfl, fun _ _ hm => absurd hm not_mem_nil⟩
  have ht : Typed (fun _ => true) waiting := by
    intro e hm re hs
    rw [mem_singleton.mp hm] at hs
    cases hs
    rfl
  have hf : ∀ s ∈ allSites levelCalls, s = .resized 2 2 := by
    intro s hi
    exact mem_singleton.mp hi
  obtain ⟨bytes, hp, hc⟩ := parse_packed_iff (by decide) _ hl 1 levelCalls 0
    waiting ht [] (by decide) (by decide)
    (fun s hi => by rw [hf s hi]; exact ⟨by decide, by decide⟩)
    (fun s hi => by rw [hf s hi]; trivial)
  refine ⟨bytes, hp, hc.mpr ⟨?_, _, rfl⟩⟩
  exact ⟨⟨trivial, trivial⟩, ⟨⟨trivial, trivial⟩, trivial, trivial⟩, ⟨trivial, trivial⟩, trivial⟩

def silentCall : Calls levelSetup (fun _ => true) levelApis true :=
  .push (.plain 7 false (by simp [levelApis, ImplList.methods]) (none, ())) .nil

/-- The handler gets the default of the member in its place. -/
theorem empty_optional_reaches_handler_as_default :
    pack 0 silentCall = .ok [7, 0] ∧
      ¬ Corresponds (onlooker levelSetup (Invocation Bool levelSetup)) 1 silentCall [7, 0]
        ⟨[], [], 0, []⟩ [] := by
  refine ⟨rfl, ?_⟩
  rintro ⟨t', r', hr, -, hs⟩
  have hg : t'.log = [.handler ⟨true, 7, .plain false, (some ⟨[5], rfl⟩, ()), 1, true⟩] := by
    cases hr
    rfl
  rw [hg] at hs
  cases hs

end Ae.Api.Correspondence
