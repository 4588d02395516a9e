/- source: api_protocol/{api_pack_parser,api_class_impl}.h, mstream_buffers.h
   digest: When handlers and callbacks are given only what was received. -/

import Ae.Api.Parsing
import Ae.Api.Responses

set_option autoImplicit false

namespace Ae.Api.Received
open List MStream.VectorReader MStream.Operators
open Lib.StateRun ProtocolContext ApiParser Callbacks Parsing Responses Reader

variable {ι τ : Type} {setup : Setup τ}

/-- If the event comes from the parser at that depth, then no read of the parser was refused
up to then. -/
def Sound (depth : Nat) : ParserEvent ι setup → Prop
  | .handler call => call.depth = depth → call.complete = true
  | .onResult _ _ _ _ depth' complete => depth' = depth → complete = true
  | .onError _ _ _ _ => True
  | .onEvicted _ _ => True

/-- A value of the type can be read here, if it can be, without a refused read. -/
def Whole (setup : Setup τ) (d : Described) (r : Reader) : Prop :=
  ∀ r' v, (d.codec setup.size).get (d.codec setup.size).init r = .ok (r', v) → r'.failed = false

variable (t : ParserTable ι setup)

def AwaitedWhole (r : Reader) (requestId : RequestId) : Prop :=
  ∀ entry response, t.pending.find? (·.requestId = requestId) = some entry →
    entry.response = some response → Whole setup (setup.types response.awaited) r

def ResultWhole (r : Reader) : (m : Method ι τ) → (m.message setup).type → Prop
  | .sendResult, requestId => AwaitedWhole t r requestId
  | _, _ => True

def HasRoom (setup : Setup τ) (outer : List Reader) : Method ι τ → Prop
  | .sub _ _ => outer.length + 1 < setup.maxParserPackerDepth
  | _ => True

def afterId (r : Reader) : Reader := (readId r).1

/-- If the message for the method reaches its handler, then it was there as a whole. -/
def LoadWhole (r : Reader) (outer : List Reader) (m : Method ι τ) : Prop :=
  HasRoom setup outer m → ∀ r' v, ((m.message setup).codec setup.size).get
    ((m.message setup).codec setup.size).init r = .ok (r', v) →
      r'.failed = false ∧ ResultWhole t r' m v

def WholeNext (impls : ImplList ι τ) (t : ParserTable ι setup) (r : Reader)
    (outer : List Reader) : Prop :=
  ∀ id ys entry, r.rest = id :: ys → impls.methods.find? (fun entry => entry.1 = id) = some entry →
    LoadWhole t (afterId r) outer entry.2

def WholeAt (impls : ImplList ι τ) (c : ParserContext ι setup) : Prop :=
  ∀ r outer, c.parsers = r :: outer → WholeNext impls c.table r outer

inductive Visits (take : UInt8 → ParserM ι setup Unit) :
    ParserContext ι setup → ParserContext ι setup → Prop
  | here (c : ParserContext ι setup) : Visits take c c
  | next {c c₁ c' : ParserContext ι setup} {r : Reader} {outer : List Reader}
      (active : c.parsers = r :: outer) (more : r.rest ≠ [])
      (round : (nextMessage take).run c = .ok () c₁) (later : Visits take c₁ c') : Visits take c c'

section

variable {depth : Nat}

theorem deep_sound {e : ParserEvent ι setup} (hd : Deep (depth + 1) e) :
    Sound depth e := by
  cases e with
  | handler call | onResult s requestId a v d' c =>
    exact fun he => absurd (he ▸ hd : depth + 1 ≤ depth) (Nat.not_succ_le_self _)
  | onError s requestId et ec | onEvicted s requestId => trivial

theorem evicted_sound {new : List (ParserEvent ι setup)}
    (he : ∀ e ∈ new, Evicted e) : ∀ e ∈ new, Sound depth e :=
  fun e hm => deep_sound (evicted_deep he e hm)

end

/-- The program shows the event first; what else it shows is sound exactly if `W`, and then it
hands the parser on with no read refused. -/
structure Reports (x : ParserM ι setup Unit)
    (t : ParserTable ι setup) (r : Reader) (outer : List Reader)
    (event : ParserEvent ι setup) (W : Prop) : Prop where
  grows : ∃ others, (final (x.run ⟨t, r :: outer⟩)).table.log = t.log ++ event :: others ∧
    ((∀ e ∈ others, Sound (outer.length + 1) e) ↔ W)
  clean : ∀ c', x.run ⟨t, r :: outer⟩ = .ok () c' → W → r.failed = false →
    ∃ r', c'.parsers = r' :: outer ∧ r'.failed = false

section

variable {app : ParserApp ι setup} {frames : Nat}
  {t : ParserTable ι setup} {r : Reader} {outer : List Reader}
  {call : Invocation ι setup}

theorem onTable_parsers {α : Type} {y : TableM setup (Invocation ι setup) α}
    {c c' : ParserContext ι setup} {a : α} (hr : (onTable y).run c = .ok a c') :
    c'.parsers = c.parsers := by
  cases run : y.run c.table with
  | ok a' t' =>
    cases (onTable_ok run).symm.trans hr
    rfl
  | error e t' => cases (onTable_error run).symm.trans hr

theorem final_onTable {α : Type} (y : TableM setup (Invocation ι setup) α)
    (c : ParserContext ι setup) :
    (final ((onTable y).run c)).table = final (y.run c.table) := by
  cases run : y.run c.table with
  | ok a t' => rw [onTable_ok run]; rfl
  | error e t' => rw [onTable_error run]; rfl

theorem reports_callback (e : ParserEvent ι setup) :
    Reports (onTable (callback app frames e)) t r outer e True := by
  obtain ⟨os, hl, he⟩ := callback_log app frames e t
  refine ⟨⟨os, ?_, iff_of_true (evicted_sound he) trivial⟩, ?_⟩
  · rw [final_onTable]
    exact hl
  · intro c' hr _ hc
    exact ⟨r, onTable_parsers hr, hc⟩

theorem serve_log {parse : ι → ParserM ι setup Unit} (hs : Sinks parse) (api : ι) :
    ∃ os, (final ((serve app frames (parse api) call).run ⟨t, r :: outer⟩)).table.log =
        t.log ++ .handler call :: os ∧ ∀ e ∈ os, Deep (outer.length + 1) e := by
  obtain ⟨new, hl, he⟩ := callback_log app frames (.handler call) t
  cases hr : (callback app frames (.handler call)).run t with
  | error e t1 =>
    rw [hr] at hl
    rw [serve, bind_error (onTable_error hr)]
    exact ⟨new, hl, evicted_deep he⟩
  | ok _ t1 =>
    rw [hr] at hl
    obtain ⟨n', hl', hd⟩ := (acts_afterEnter app frames hs api le_rfl :
      ActsAt (outer.length + 1) _ t1 r outer).grows
    rw [serve, bind_ok (onTable_ok hr)]
    refine ⟨new ++ n', ?_, forall_mem_append.mpr ⟨evicted_deep he, hd⟩⟩
    rw [hl', show t1.log = t.log ++ .handler call :: new from hl, append_assoc]
    rfl

theorem reports_withPayload {parse : ι → ParserM ι setup Unit}
    (hsk : Sinks parse) (api : ι) (p : List UInt8)
    (hf : outer.length + 1 < setup.maxParserPackerDepth) :
    Reports (withPayload app frames (parse api) call p) t r outer (.handler call) True := by
  obtain ⟨os, hl, hd⟩ := @serve_log _ _ _ app frames t (start p) (r :: outer)
    call _ hsk api
  have hsn : (∀ e ∈ os, Sound (outer.length + 1) e) ↔ True :=
    iff_of_true (fun e hm => deep_sound (hd e hm)) trivial
  cases run : (serve app frames (parse api) call).run ⟨t, start p :: r :: outer⟩ with
  | error e c' =>
    rw [run] at hl
    have hs := withPayload_error (c := ⟨t, r :: outer⟩) hf run
    refine ⟨⟨os, ?_, hsn⟩, fun c'' hr => ?_⟩
    · rw [hs]
      exact hl
    · cases hs.symm.trans hr
  | ok _ c' =>
    rw [run] at hl
    have ha : ActsAt 0 _ t (start p) (r :: outer) :=
      acts_serve app frames hsk api (Nat.zero_le _) (Nat.zero_le call.depth)
    obtain ⟨r', hst, -⟩ := ha.stays () c' run
    have hr := withPayload_ok (c := ⟨t, r :: outer⟩) hf run hst
    refine ⟨⟨os, ?_, hsn⟩, fun c'' hr' _ hc => ?_⟩
    · rw [hr]
      exact hl
    · cases hr.symm.trans hr'
      exact ⟨r, rfl, hc⟩

structure Follows (x : ParserM ι setup Unit)
    (t : ParserTable ι setup) (r : Reader) (outer : List Reader) (W : Prop) :
    Prop where
  grows : ∃ others, (final (x.run ⟨t, r :: outer⟩)).table.log = t.log ++ others ∧
    ((∀ e ∈ others, Sound (outer.length + 1) e) ↔ W)
  clean : ∀ c', x.run ⟨t, r :: outer⟩ = .ok () c' → W → r.failed = false →
    ∃ r', c'.parsers = r' :: outer ∧ r'.failed = false

variable {x : ParserM ι setup Unit} {W : Prop}

theorem Follows.of_error {e : Fault} {c' : ParserContext ι setup} (w : W)
    (hs : x.run ⟨t, r :: outer⟩ = .error e c') (hl : c'.table.log = t.log) :
    Follows x t r outer W := by
  constructor
  · refine ⟨[], ?_, iff_of_true (forall_mem_nil _) w⟩
    rw [hs, append_nil]
    exact hl
  · intro c'' hr
    cases hs.symm.trans hr

theorem reports_record {e : ParserEvent ι setup}
    (hf : Follows x { t with log := t.log ++ [e] } r outer W) :
    Reports (do onTable (record e); x) t r outer e W := by
  have hr : (do onTable (record e); x).run ⟨t, r :: outer⟩ =
      x.run ⟨{ t with log := t.log ++ [e] }, r :: outer⟩ := bind_ok rfl
  obtain ⟨⟨os, log, hs⟩, hc⟩ := hf
  refine ⟨⟨os, ?_, hs⟩, fun c' hrt => hc c' (hr.symm.trans hrt)⟩
  rw [hr, log, append_assoc]
  rfl

theorem follows_setSendErrorResponse (requestId : RequestId) (et : Bytes 1) (ec : Bytes 4) :
    Follows (setSendErrorResponse app frames requestId et ec) t r outer True := by
  obtain ⟨os, hl, hdp⟩ := (acts_setSendErrorResponse app frames requestId et
    ec : ActsAt (outer.length + 1 + 1) _ t r outer).grows
  refine ⟨⟨os, hl, iff_of_true (fun e hm => deep_sound (hdp e hm)) trivial⟩, ?_⟩
  intro c' hr _ hcn
  obtain ⟨entry, c1, ht, hr⟩ := of_bind_ok hr
  obtain ⟨_, c2, hc, hr⟩ := of_bind_ok hr
  cases some : entry.response with
  | none =>
    rw [some] at hr
    cases hr
  | some response =>
    rw [some] at hr
    rw [cancelUnanswerable, some] at hc
    cases hc
    obtain ⟨_, c3, hcl, hd⟩ := of_bind_ok hr
    refine ⟨r, ?_, hcn⟩
    rw [onTable_parsers hd, onTable_parsers hcl, onTable_parsers ht]

theorem called_log {S : Subscription τ → Prop}
    {y : TableM setup (Invocation ι setup) Unit} (hk : Keeps (Moves S) y)
    (ev : ParserEvent ι setup) (c : ParserContext ι setup) :
    ∃ new, (final ((do onTable (callback app frames ev); onTable y).run c)).table.log =
        c.table.log ++ ev :: new ∧ ∀ e ∈ new, Evicted e := by
  obtain ⟨new, hl, he⟩ := callback_log app frames ev c.table
  cases hr : (callback app frames ev).run c.table with
  | error e t1 =>
    rw [hr] at hl
    rw [bind_error (onTable_error hr)]
    exact ⟨new, hl, he⟩
  | ok _ t1 =>
    rw [hr] at hl
    obtain ⟨n', hl', he'⟩ := moves_log (hk t1)
    rw [bind_ok (onTable_ok hr), final_onTable]
    refine ⟨new ++ n', ?_, forall_mem_append.mpr ⟨he, he'⟩⟩
    rw [hl', show t1.log = c.table.log ++ ev :: new from hl, append_assoc]
    rfl

variable {requestId : RequestId} {entry : PendingEntry τ}

theorem setSendResultResponse_null (found : t.pending.find? (·.requestId = requestId) = some entry)
    (none : entry.response = none) :
    (setSendResultResponse app frames requestId).run ⟨t, r :: outer⟩ = .error .nullResponse
      ⟨{ t with pending := t.pending.eraseP (·.requestId = requestId) }, cancelled r :: outer⟩ := by
  rw [setSendResultResponse]
  apply (bind_ok (onTable_ok (takePending_known found))).trans
  rw [cancelUnanswerable, none]
  apply (bind_ok (cancel_run rfl)).trans
  exact bind_ok (parser_run rfl)

variable {response : Response τ} {r' : Reader}

theorem whole_of_stops {d : Described} {s : Stop}
    (hg : (d.codec setup.size).get (d.codec setup.size).init r = .error s) :
    Whole setup d r := by
  intro r' v hg'
  cases hg.symm.trans hg'

theorem whole_iff {d : Described} {v : d.type}
    (hg : (d.codec setup.size).get (d.codec setup.size).init r = .ok (r', v)) :
    Whole setup d r ↔ r'.failed = false := by
  constructor
  · intro hw
    exact hw r' v hg
  · intro hc r'' v' hg'
    cases hg.symm.trans hg'
    exact hc

theorem awaitedWhole_iff (found : t.pending.find? (·.requestId = requestId) = some entry)
    (some : entry.response = some response) :
    AwaitedWhole t r requestId ↔ Whole setup (setup.types response.awaited) r := by
  constructor
  · intro awaited
    exact awaited entry response found some
  · intro whole e' re' found' some'
    cases found.symm.trans found'
    cases some.symm.trans some'
    exact whole

/-- With `complete` for `!r.failed` and the depth of the parser itself, this is `Sound`. -/
theorem standing_iff {depth : Nat} {f : Bool} :
    (depth = depth → (!f) = true) ↔ f = false := by
  rw [Bool.not_eq_true', forall_prop_of_true rfl]

theorem follows_known (found : t.pending.find? (·.requestId = requestId) = some entry)
    (some : entry.response = some response) :
    Follows (setSendResultResponse app frames requestId) t r outer
      (Whole setup (setup.types response.awaited) r) := by
  have known := @setSendResultResponse_known _ _ _ t _ r outer app frames _ _ found some
  cases get : setup.extracted response.awaited r with
  | error s =>
    have stops := known.trans (bind_error (bind_error (extract_stops rfl get)))
    exact Follows.of_error (whole_of_stops get) stops rfl
  | ok re =>
    obtain ⟨r', v⟩ := re
    have same := known.trans (bind_congr (onResult_run get))
    obtain ⟨new, log, evicted⟩ :=
      called_log (S := fun _ => True) (destroyPending_moves entry) _ _
    rw [whole_iff get]
    refine ⟨⟨_, (congrArg (fun run => (final run).table.log) same).trans log, ?_⟩, ?_⟩
    · rw [forall_mem_cons, and_iff_left (evicted_sound evicted)]
      exact standing_iff
    · intro c' returns clean _
      obtain ⟨_, c2, called, destroyed⟩ := of_bind_ok (same.symm.trans returns)
      refine ⟨r', ?_, clean⟩
      rw [onTable_parsers destroyed, onTable_parsers called]

theorem follows_setSendResultResponse (requestId : RequestId) :
    Follows (setSendResultResponse app frames requestId) t r outer
      (AwaitedWhole t r requestId) := by
  cases hf : t.pending.find? (·.requestId = requestId) with
  | none =>
    refine Follows.of_error ?_ (setSendResultResponse_unknown (find_eq_none_iff.mp hf)) rfl
    intro entry response hf'
    cases hf.symm.trans hf'
  | some entry =>
    cases some : entry.response with
    | none =>
      refine Follows.of_error ?_ (setSendResultResponse_null hf some) rfl
      intro e' response hf' hs'
      cases hf.symm.trans hf'
      cases some.symm.trans hs'
    | some response =>
      rw [awaitedWhole_iff hf some]
      exact follows_known hf some

variable {parse : ι → ParserM ι setup Unit}

theorem reports_invoke (hs : Sinks parse) (m : Method ι τ) (v : (m.message setup).type)
    (hr : HasRoom setup outer m) :
    Reports (invoke app frames parse call m v) t r outer (.handler call) (ResultWhole t r m v) := by
  cases m with
  | plain a | promise a => exact reports_callback _
  | sub api a => exact reports_withPayload hs api _ hr
  | sendResult => exact reports_record (follows_setSendResultResponse v)
  | sendError => exact reports_record (follows_setSendErrorResponse v.1 v.2.1 v.2.2)

theorem invoke_without_room {m : Method ι τ} {v : (m.message setup).type}
    (hf : ¬ HasRoom setup outer m) :
    (invoke app frames parse call m v).run ⟨t, r :: outer⟩ =
      .error .parserStackFull ⟨t, r :: outer⟩ := by
  cases m with
  | sub api a => exact withPayload_full (Nat.not_lt.mp hf)
  | plain a | promise a | sendResult | sendError => exact absurd trivial hf

theorem nextId_afterId {id : UInt8} {ys : List UInt8} (hrs : r.rest = id :: ys) :
    nextId.run (⟨t, r :: outer⟩ : ParserContext ι setup) =
      .ok id ⟨t, afterId r :: outer⟩ ∧ (afterId r).failed = r.failed := by
  obtain ⟨r1, hr, -, hc⟩ :=
    nextId_run (c := (⟨t, r :: outer⟩ : ParserContext ι setup)) rfl hrs
  have he : r1 = afterId r := by
    have hp := congrArg (fun run => (final run).parsers) hr
    exact (cons.inj hp).1.symm
  rw [he] at hr hc
  exact ⟨hr, hc.failed⟩

theorem Follows.of_run {x' : ParserM ι setup Unit}
    (he : x.run ⟨t, r :: outer⟩ = x'.run ⟨t, r' :: outer⟩)
    (hk : r.failed = false → r'.failed = false) (hf : Follows x' t r' outer W) :
    Follows x t r outer W := by
  obtain ⟨hg, hc⟩ := hf
  rw [← he] at hg
  refine ⟨hg, fun c' hr w hb => ?_⟩
  exact hc c' (he.symm.trans hr) w (hk hb)

theorem follows_cancel : Follows cancel t r outer True := by
  have hr : cancel.run (⟨t, r :: outer⟩ : ParserContext ι setup) =
      .ok () ⟨t, cancelled r :: outer⟩ := cancel_run rfl
  refine ⟨⟨[], ?_, iff_of_true (forall_mem_nil _) trivial⟩, ?_⟩
  · rw [hr, append_nil]
    rfl
  · intro c' hr' _ hc
    cases hr.symm.trans hr'
    exact ⟨_, rfl, hc⟩

theorem loadWhole_iff {m : Method ι τ} (hr : HasRoom setup outer m) {v : (m.message setup).type}
    (hg : ((m.message setup).codec setup.size).get ((m.message setup).codec setup.size).init r =
      .ok (r', v)) : LoadWhole t r outer m ↔ r'.failed = false ∧ ResultWhole t r' m v := by
  constructor
  · intro hw
    exact hw hr r' v hg
  · intro this _ r'' v' hg'
    cases hg.symm.trans hg'
    exact this

theorem follows_load (hsk : Sinks parse) (api : ι) (id : UInt8) (m : Method ι τ) :
    Follows (load app frames parse api id m) t r outer (LoadWhole t r outer m) := by
  cases hg : ((m.message setup).codec setup.size).get
      ((m.message setup).codec setup.size).init r with
  | error s =>
    refine Follows.of_error ?_ (bind_error (extract_stops rfl hg)) rfl
    intro _ r' v hg'
    cases hg.symm.trans hg'
  | ok re =>
    obtain ⟨r', v⟩ := re
    have hl : (load app frames parse api id m).run ⟨t, r :: outer⟩ =
        (invoke app frames parse ⟨api, id, m, v, outer.length + 1, !r'.failed⟩ m v).run
          ⟨t, r' :: outer⟩ :=
      (bind_ok (extract_run rfl hg)).trans (bind_ok (standing_run rfl))
    by_cases hr : HasRoom setup outer m
    · obtain ⟨⟨os, log, hsn⟩, hc⟩ := reports_invoke hsk m v hr
      rw [loadWhole_iff hr hg]
      refine ⟨⟨_, (congrArg (fun run => (final run).table.log) hl).trans log, ?_⟩, ?_⟩
      · rw [forall_mem_cons, hsn]
        exact and_congr_left (fun _ => standing_iff)
      · intro c' hrt hb _
        exact hc c' (hl.symm.trans hrt) hb.2 hb.1
    · have hs := hl.trans (invoke_without_room hr)
      exact Follows.of_error (fun hr' => absurd hr' hr) hs rfl

theorem follows_nextMessage (hsn : Sinks parse) (api : ι) (impls : ImplList ι τ)
    (hm : r.rest ≠ []) :
    Follows (nextMessage (loadFactory app frames parse api impls)) t r outer
      (WholeNext impls t r outer) := by
  obtain ⟨id, ys, hr⟩ := exists_cons_of_ne_nil hm
  obtain ⟨hrd, hfl⟩ := @nextId_afterId _ _ _ t r outer _ _ hr
  have hs : (nextMessage (loadFactory app frames parse api impls)).run ⟨t, r :: outer⟩ =
      (loadFactory app frames parse api impls id).run ⟨t, afterId r :: outer⟩ := bind_ok hrd
  cases hf : impls.methods.find? (fun entry => entry.1 = id) with
  | none =>
    have hw : WholeNext impls t r outer ↔ True := by
      refine iff_of_true ?_ trivial
      intro id' ys' entry hr' hf'
      cases hr.symm.trans hr'
      cases hf.symm.trans hf'
    rw [hw]
    exact Follows.of_run (hs.trans (loadFactory_unknown hf)) hfl.trans follows_cancel
  | some entry =>
    have hw : WholeNext impls t r outer ↔ LoadWhole t (afterId r) outer entry.2 := by
      constructor
      · intro hn
        exact hn id ys entry hr hf
      · intro this id' ys' e' hr' hf'
        cases hr.symm.trans hr'
        cases hf.symm.trans hf'
        exact this
    rw [hw]
    exact Follows.of_run (hs.trans (loadFactory_known hf)) hfl.trans
      (follows_load hsn api id entry.2)

section

variable {impls : ImplList ι τ} {take : UInt8 → ParserM ι setup Unit}

theorem wholeAt_iff : WholeAt impls (⟨t, r :: outer⟩ : ParserContext ι setup) ↔
    WholeNext impls t r outer := by
  constructor
  · intro hw
    exact hw r outer rfl
  · intro hw r' o' he
    cases he
    exact hw

theorem visits_done (hd : r.rest = []) :
    ∀ c', Visits take ⟨t, r :: outer⟩ c' → WholeAt impls c' := by
  intro c' hv
  cases hv with
  | here =>
    apply wholeAt_iff.mpr
    intro id ys entry hr
    cases hd.symm.trans hr
  | next ha hm hrn hl =>
    cases ha
    exact absurd hd hm

theorem visits_stops {e : Fault} {c1 : ParserContext ι setup}
    (hs : (nextMessage take).run ⟨t, r :: outer⟩ = .error e c1) :
    (∀ c', Visits take ⟨t, r :: outer⟩ c' → WholeAt impls c') ↔ WholeNext impls t r outer := by
  rw [← wholeAt_iff]
  constructor
  · intro ha
    exact ha _ (.here _)
  · intro hw c' hv
    cases hv with
    | here => exact hw
    | next hac hm hr hl => cases hs.symm.trans hr

theorem visits_round {c1 : ParserContext ι setup} (hm : r.rest ≠ [])
    (hr : (nextMessage take).run ⟨t, r :: outer⟩ = .ok () c1) :
    (∀ c', Visits take ⟨t, r :: outer⟩ c' → WholeAt impls c') ↔
      WholeNext impls t r outer ∧ ∀ c', Visits take c1 c' → WholeAt impls c' := by
  rw [← wholeAt_iff]
  constructor
  · intro ha
    exact ⟨ha _ (.here _), fun c' hv => ha c' (.next rfl hm hr hv)⟩
  · rintro ⟨hw, ha⟩ c' hv
    cases hv with
    | here => exact hw
    | next hac _ hr' hl =>
      cases hr.symm.trans hr'
      exact ha c' hl

end

/-- By induction over the rounds: as long as the messages are whole the parser comes to the next
one with no read refused, so what is shown is sound exactly where all of them are whole. -/
theorem parseLoop_sound (hsn : Sinks parse) (api : ι) (impls : ImplList ι τ) {rs : Nat}
    (he : r.rest.length ≤ rs) (hc : r.failed = false) :
    ∃ new, (final ((parseLoop (loadFactory app frames parse api impls) rs).run
        ⟨t, r :: outer⟩)).table.log = t.log ++ new ∧
      ((∀ e ∈ new, Sound (outer.length + 1) e) ↔
        ∀ c', Visits (loadFactory app frames parse api impls) ⟨t, r :: outer⟩ c' →
          WholeAt impls c') := by
  induction rs generalizing t r with
  | zero =>
    have hd := eq_nil_of_length_eq_zero (Nat.le_zero.mp he)
    refine ⟨[], (append_nil _).symm, iff_of_true ?_ (visits_done hd)⟩
    exact forall_mem_nil _
  | succ rs ih =>
    by_cases hd : r.rest = []
    · rw [parseLoop_end rfl hd]
      refine ⟨[], (append_nil _).symm, iff_of_true ?_ (visits_done hd)⟩
      exact forall_mem_nil _
    · obtain ⟨⟨new, hl, hs⟩, hk⟩ :=
        @follows_nextMessage _ _ _ app frames t r outer _ hsn api impls hd
      rw [parseLoop_round rfl hd]
      cases run : (nextMessage (loadFactory app frames parse api impls)).run ⟨t, r :: outer⟩ with
      | error e c1 =>
        rw [run] at hl
        rw [bind_error run, visits_stops run]
        exact ⟨new, hl, hs⟩
      | ok _ c1 =>
        rw [run] at hl
        rw [bind_ok run, visits_round hd run]
        obtain ⟨t1, ps⟩ := c1
        obtain ⟨r1, rfl, -, hsh⟩ := nextMessage_advances app frames hsn hd run
        by_cases whole : WholeNext impls t r outer
        · obtain ⟨r1', hsm, hc1⟩ := hk _ run whole hc
          cases hsm
          obtain ⟨n', hl', hs'⟩ := ih (t := t1) (by omega) hc1
          refine ⟨new ++ n', ?_, ?_⟩
          · rw [hl', show t1.log = t.log ++ new from hl, append_assoc]
          · rw [forall_mem_append, hs, hs']
        · -- an unsound event stays in the log, whatever the rounds after it do
          obtain ⟨n', hl', -⟩ := (acts_parseLoop app frames hsn (Nat.zero_le _) api impls
            rs : ActsAt 0 _ t1 r1 outer).grows
          refine ⟨new ++ n', ?_, iff_of_false ?_ (fun ha => whole ha.1)⟩
          · rw [hl', show t1.log = t.log ++ new from hl, append_assoc]
          · intro ha
            exact whole (hs.mp fun e hm => ha e (mem_append_left _ hm))

end

/-- That the handlers and callbacks a parse calls are given what was received, and none is called
after the input has ended within a message, comes to this: each message that the parse comes to
and that reaches a handler is there as a whole. -/
theorem sees_received_iff (app : ParserApp ι setup) (frames : Nat)
    (apis : ι → ImplList ι τ) (slots : Nat) (api : ι) (bytes : List UInt8)
    (t : ParserTable ι setup) (outer : List Reader) :
    (∀ e ∈ (final ((parse app frames apis (slots + 1) api).run
        ⟨t, start bytes :: outer⟩)).table.log.drop t.log.length,
      Sound (outer.length + 1) e) ↔
    ∀ c', Visits (loadFactory app frames (parse app frames apis slots) api (apis api))
      ⟨t, start bytes :: outer⟩ c' → WholeAt (apis api) c' := by
  obtain ⟨new, hl, hs⟩ := @parseLoop_sound _ _ _ app frames t (start bytes) outer _
    (parse_sinks app frames apis slots) api (apis api) _ le_rfl rfl
  rw [parse, bind_ok (parser_run rfl), hl, drop_left]
  exact hs

def shortSetup : Setup Unit := smallSetup (fun _ => number 2 Nat.two_pos)

def shortApis : Unit → ImplList Unit Unit := fun _ => .regMethod 3 (.plain ()) .nil

/-- The input ends within the first message: its handler is called all the same, and then a
byte of it is taken for the id of another one. -/
theorem truncated_message_reaches_handler :
    (final ((parse (onlooker shortSetup (Invocation Unit shortSetup)) 1 shortApis 4 ()).run
        ⟨⟨[], [], 0, []⟩, [start [3, 3]]⟩)).table.log =
      [.handler ⟨(), 3, .plain (), zeros 2, 1, false⟩,
        .handler ⟨(), 3, .plain (), zeros 2, 1, false⟩] ∧
    ¬ ∀ e ∈ (final ((parse (onlooker shortSetup (Invocation Unit shortSetup)) 1 shortApis 4 ()).run
        ⟨⟨[], [], 0, []⟩, [start [3, 3]]⟩)).table.log, Sound 1 e := by
  refine ⟨rfl, fun hs => ?_⟩
  cases hs _ mem_cons_self rfl

end Ae.Api.Received
