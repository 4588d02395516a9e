/- source: api_protocol/{api_class_impl,api_pack_parser}.h
   digest: What a parse does to the stack of parsers and to what the application has seen. -/

import Ae.Api.ApiParser
import Ae.Api.Callbacks
import Ae.MStream.Reads

set_option autoImplicit false

namespace Ae.Api.Parsing
open List MStream.VectorReader MStream.Operators MStream.Reads
open Lib.StateRun ProtocolContext ApiParser Callbacks

variable {ι τ : Type} {setup : Setup τ}

def Deep (depth : Nat) : ParserEvent ι setup → Prop
  | .handler call => depth ≤ call.depth
  | .onResult _ _ _ _ depth' _ => depth ≤ depth'
  | .onError _ _ _ _ => True
  | .onEvicted _ _ => True

/-- The program leaves the parsers below the active one alone and moves that one on; what it
shows to the application comes from that depth or deeper. -/
structure ActsAt {α : Type} (depth : Nat) (x : ParserM ι setup α)
    (t : ParserTable ι setup) (r : Reader) (outer : List Reader) : Prop where
  stays : ∀ a c', x.run ⟨t, r :: outer⟩ = .ok a c' → ∃ r', c'.parsers = r' :: outer ∧ Later r r'
  grows : ∃ new, (final (x.run ⟨t, r :: outer⟩)).table.log = t.log ++ new ∧ ∀ e ∈ new, Deep depth e

namespace ActsAt

variable {α β : Type} {depth : Nat} {t : ParserTable ι setup} {r r' : Reader}
  {outer : List Reader} {x x' : ParserM ι setup α}

theorem of_run (he : x.run ⟨t, r :: outer⟩ = x'.run ⟨t, r :: outer⟩)
    (h : ActsAt depth x' t r outer) : ActsAt depth x t r outer := by
  obtain ⟨hs, hg⟩ := h
  rw [← he] at hg
  exact ⟨fun a c' hr => hs a c' (he.symm.trans hr), hg⟩

theorem of_ok {a : α} {t' : ParserTable ι setup}
    (hr : x.run ⟨t, r :: outer⟩ = .ok a ⟨t', r' :: outer⟩) (log : t'.log = t.log)
    (hl : Later r r') : ActsAt depth x t r outer := by
  constructor
  · intro a' c' hr'
    cases hr.symm.trans hr'
    exact ⟨r', rfl, hl⟩
  · rw [hr]
    exact ⟨[], by rw [append_nil]; exact log, forall_mem_nil _⟩

theorem of_error {e : Fault} {c' : ParserContext ι setup}
    (hs : x.run ⟨t, r :: outer⟩ = .error e c') (hl : c'.table.log = t.log) :
    ActsAt depth x t r outer := by
  constructor
  · intro a c' hr
    cases hs.symm.trans hr
  · rw [hs]
    exact ⟨[], by rw [append_nil]; exact hl, forall_mem_nil _⟩

theorem bind {f : α → ParserM ι setup β}
    (h1 : ActsAt depth x t r outer)
    (hn : ∀ a t' r', x.run ⟨t, r :: outer⟩ = .ok a ⟨t', r' :: outer⟩ →
      ActsAt depth (f a) t' r' outer) : ActsAt depth (x >>= f) t r outer := by
  obtain ⟨new, hl, hd⟩ := h1.grows
  cases run : x.run ⟨t, r :: outer⟩ with
  | error e c' =>
    rw [run] at hl
    constructor
    · intro b c'' hr
      cases (bind_error run).symm.trans hr
    · rw [bind_error run]
      exact ⟨new, hl, hd⟩
  | ok a c' =>
    rw [run] at hl
    obtain ⟨t', ps⟩ := c'
    obtain ⟨r', rfl, hlt⟩ := h1.stays a _ run
    obtain ⟨hs, n', log', hd'⟩ := hn a t' r' run
    constructor
    · intro b c'' hr
      obtain ⟨r'', hb, hl'⟩ := hs b c'' ((bind_ok run).symm.trans hr)
      exact ⟨r'', hb, hlt.trans hl'⟩
    · rw [bind_ok run]
      refine ⟨new ++ n', ?_, forall_mem_append.mpr ⟨hd, hd'⟩⟩
      rw [log', show t'.log = t.log ++ new from hl, append_assoc]

theorem onTable {y : TableM setup (Invocation ι setup) α}
    (hg : ∃ new, (final (y.run t)).log = t.log ++ new ∧ ∀ e ∈ new, Deep depth e) :
    ActsAt depth (onTable y) t r outer := by
  cases run : y.run t with
  | ok a t' =>
    rw [run] at hg
    have hr : (ProtocolContext.onTable y).run ⟨t, r :: outer⟩ = .ok a ⟨t', r :: outer⟩ :=
      onTable_ok run
    refine ⟨fun a' c' hr' => ?_, ?_⟩
    · cases hr.symm.trans hr'
      exact ⟨r, rfl, Later.refl r⟩
    · rw [hr]
      exact hg
  | error e t' =>
    rw [run] at hg
    have hs : (ProtocolContext.onTable y).run ⟨t, r :: outer⟩ = .error e ⟨t', r :: outer⟩ :=
      onTable_error run
    refine ⟨fun a' c' hr => ?_, ?_⟩
    · cases hs.symm.trans hr
    · rw [hs]
      exact hg

end ActsAt

section

variable {depth : Nat} {t : ParserTable ι setup} {r : Reader} {outer : List Reader}

theorem evicted_deep {new : List (ParserEvent ι setup)}
    (he : ∀ e ∈ new, Evicted e) : ∀ e ∈ new, Deep depth e := by
  intro e hm
  obtain ⟨s, ri, rfl⟩ := he e hm
  exact trivial

theorem later_cancelled (r : Reader) : Later r (cancelled r) :=
  ⟨rfl, r.within, id, fun no _ => no, suffix_rfl⟩

theorem acts_pure {α : Type} (a : α) :
    ActsAt depth (pure a : ParserM ι setup α) t r outer :=
  .of_ok rfl rfl (Later.refl r)

theorem acts_throw {α : Type} (e : Fault) :
    ActsAt depth (throw e : ParserM ι setup α) t r outer :=
  .of_error rfl rfl

theorem acts_activeParser :
    ActsAt depth (parser : ParserM ι setup _) t r outer :=
  .of_ok (parser_run rfl) rfl (Later.refl r)

theorem acts_cancel :
    ActsAt depth (cancel : ParserM ι setup _) t r outer :=
  .of_ok (cancel_run rfl) rfl (later_cancelled r)

theorem acts_extract (d : Described) :
    ActsAt depth (extract d : ParserM ι setup _) t r outer := by
  cases hg : (d.codec setup.size).get (d.codec setup.size).init r with
  | error s => exact .of_error (extract_stops rfl hg) rfl
  | ok re =>
    obtain ⟨r', v⟩ := re
    exact .of_ok (extract_run rfl hg) rfl ((desc_steady setup.size d.desc).later hg)

theorem acts_nextId :
    ActsAt depth (nextId : ParserM ι setup _) t r outer :=
  .of_ok rfl rfl (readRaw_later rfl)

theorem acts_moves {α : Type} {S : Subscription τ → Prop}
    {y : TableM setup (Invocation ι setup) α} (hk : Keeps (Moves S) y) :
    ActsAt depth (onTable y) t r outer := by
  obtain ⟨new, hl, he⟩ := moves_log (hk t)
  exact .onTable ⟨new, hl, evicted_deep he⟩

variable (app : ParserApp ι setup) (frames : Nat)

theorem acts_callback {e : ParserEvent ι setup} (hd : Deep depth e) :
    ActsAt depth (onTable (callback app frames e)) t r outer := by
  obtain ⟨new, hl, he⟩ := callback_log app frames e t
  exact .onTable ⟨e :: new, hl, forall_mem_cons.mpr ⟨hd, evicted_deep he⟩⟩

theorem acts_record {ev : ParserEvent ι setup} (hd : Deep depth ev) :
    ActsAt depth (onTable (record ev)) t r outer := by
  refine .onTable ⟨[ev], rfl, ?_⟩
  intro e hm
  rwa [mem_singleton.mp hm]

theorem acts_takePending (ri : RequestId) :
    ActsAt depth (onTable (takePending ri :
      TableM setup (Invocation ι setup) _)) t r outer :=
  acts_moves (S := fun _ => True) (takePending_moves ri)

theorem acts_destroyPending (e : PendingEntry τ) :
    ActsAt depth (onTable (destroyPending e :
      TableM setup (Invocation ι setup) _)) t r outer :=
  acts_moves (S := fun _ => True) (destroyPending_moves e)

theorem acts_cancelUnanswerable (e : PendingEntry τ) :
    ActsAt depth (cancelUnanswerable e :
      ParserM ι setup _) t r outer := by
  rw [cancelUnanswerable]
  split
  · exact acts_cancel
  · exact acts_pure ()

theorem acts_onResult (hw : depth ≤ outer.length + 1) (ri : RequestId)
    (re : Response τ) : ActsAt depth (onResult app frames ri re) t r outer := by
  refine (acts_extract _).bind (fun v t' r' _ => ?_)
  exact .of_run (bind_ok (standing_run rfl)) (acts_callback app frames hw)

theorem acts_setSendResultResponse (hw : depth ≤ outer.length + 1) (ri : RequestId) :
    ActsAt depth (setSendResultResponse app frames ri) t r outer := by
  refine (acts_takePending ri).bind (fun e t1 r1 _ => ?_)
  refine (acts_cancelUnanswerable e).bind (fun _ t2 r2 _ => ?_)
  refine acts_activeParser.bind (fun _ t3 r3 _ => ?_)
  split
  · exact acts_throw _
  · exact (acts_onResult app frames hw ri _).bind (fun _ t4 r4 _ => acts_destroyPending e)

theorem acts_setSendErrorResponse (ri : RequestId) (et : Bytes 1) (ec : Bytes 4) :
    ActsAt depth (setSendErrorResponse app frames ri et ec) t r outer := by
  refine (acts_takePending ri).bind (fun e t1 r1 _ => ?_)
  refine (acts_cancelUnanswerable e).bind (fun _ t2 r2 _ => ?_)
  split
  · exact acts_throw _
  · refine ActsAt.bind ?_ (fun _ t3 r3 _ => acts_destroyPending e)
    exact acts_callback app frames (show Deep depth (.onError _ _ _ _) from trivial)

def Sinks (parse : ι → ParserM ι setup Unit) : Prop :=
  ∀ api depth t r outer, depth ≤ outer.length + 1 → ActsAt depth (parse api) t r outer

variable {parse : ι → ParserM ι setup Unit}

theorem acts_whenWanted {x : ParserM ι setup Unit}
    (ha : ActsAt depth x t r outer) : ActsAt depth (whenWanted app x) t r outer := by
  refine .of_run (get_bind _ _) ?_
  split
  · exact ha
  · exact acts_pure ()

theorem acts_afterEnter (hs : Sinks parse) (api : ι) (hw : depth ≤ outer.length + 1) :
    ActsAt depth (do
      whenWanted app (parse api)
      onTable (subscribe (callback app frames) app.leave)) t r outer := by
  refine (acts_whenWanted app (hs api depth t r outer hw)).bind (fun _ t1 r1 _ => ?_)
  exact acts_moves (subscribe_any app frames app.leave)

variable {call : Invocation ι setup}

theorem acts_serve (hs : Sinks parse) (api : ι) (hw : depth ≤ outer.length + 1)
    (hd : Deep depth (.handler call)) :
    ActsAt depth (serve app frames (parse api) call) t r outer :=
  (acts_callback app frames hd).bind (fun _ _ _ _ => acts_afterEnter app frames hs api hw)

theorem acts_withPayload {x : ParserM ι setup Unit}
    {p : List UInt8}
    (hsr : ActsAt depth (serve app frames x call) t (Reader.start p) (r :: outer)) :
    ActsAt depth (withPayload app frames x call p) t r outer := by
  by_cases hf : (r :: outer).length < setup.maxParserPackerDepth
  · obtain ⟨hst, hg⟩ := hsr
    cases run : (serve app frames x call).run ⟨t, Reader.start p :: r :: outer⟩ with
    | error e c' =>
      rw [run] at hg
      have hs := withPayload_error (c := ⟨t, r :: outer⟩) hf run
      refine ⟨fun a c'' hr => ?_, ?_⟩
      · cases hs.symm.trans hr
      · rw [hs]
        exact hg
    | ok a c' =>
      rw [run] at hg
      obtain ⟨r', hb, -⟩ := hst a c' run
      have hr := withPayload_ok (c := ⟨t, r :: outer⟩) hf run hb
      refine ⟨fun a c'' hr' => ?_, ?_⟩
      · cases hr.symm.trans hr'
        exact ⟨r, rfl, Later.refl r⟩
      · rw [hr]
        exact hg
  · exact .of_error (withPayload_full (Nat.not_lt.mp hf)) rfl

section

variable (hs : Sinks parse) (hw : depth ≤ outer.length + 1)
include hs hw

theorem acts_invoke (hd : Deep depth (.handler call)) (m : Method ι τ)
    (v : (m.message setup).type) :
    ActsAt depth (invoke app frames parse call m v) t r outer := by
  cases m with
  | plain a | promise a => exact acts_callback app frames hd
  | sub api a =>
    refine acts_withPayload app frames (acts_serve app frames hs api ?_ hd)
    exact hw.trans (Nat.le_succ _)
  | sendResult =>
    exact (acts_record hd).bind (fun _ _ _ _ => acts_setSendResultResponse app frames hw v)
  | sendError =>
    exact (acts_record hd).bind
      (fun _ _ _ _ => acts_setSendErrorResponse app frames v.1 v.2.1 v.2.2)

theorem acts_load (api : ι) (id : UInt8) (m : Method ι τ) :
    ActsAt depth (load app frames parse api id m) t r outer := by
  refine (acts_extract _).bind (fun v t1 r1 _ => ?_)
  refine .of_run (bind_ok (standing_run rfl)) (acts_invoke app frames hs hw ?_ m v)
  exact hw

theorem acts_loadFactory (api : ι) (ims : ImplList ι τ) (id : UInt8) :
    ActsAt depth (loadFactory app frames parse api ims id) t r outer := by
  cases hf : ims.methods.find? (fun e => e.1 = id) with
  | none => exact .of_run (loadFactory_unknown hf) acts_cancel
  | some e =>
    exact .of_run (loadFactory_known hf) (acts_load app frames hs hw api id _)

theorem acts_nextMessage (api : ι) (ims : ImplList ι τ) :
    ActsAt depth (nextMessage (loadFactory app frames parse api ims)) t r outer :=
  acts_nextId.bind (fun id _ _ _ => acts_loadFactory app frames hs hw api ims id)

theorem acts_parseLoop (api : ι) (ims : ImplList ι τ) (rs : Nat) :
    ActsAt depth (parseLoop (loadFactory app frames parse api ims) rs) t r outer := by
  induction rs generalizing t r with
  | zero => exact acts_pure ()
  | succ rs ih =>
    by_cases hd : r.rest = []
    · exact .of_run (parseLoop_end rfl hd) (acts_pure ())
    · refine .of_run (parseLoop_round rfl hd) ?_
      exact (acts_nextMessage app frames hs hw api ims).bind (fun _ _ _ _ => ih)

end

theorem parse_sinks (a : ι → ImplList ι τ) (ss : Nat) :
    Sinks (ApiParser.parse app frames a ss) := by
  induction ss with
  | zero => exact fun _ _ _ _ _ _ => acts_throw _
  | succ ss ih =>
    intro api depth t r outer hw
    exact .of_run (bind_ok (parser_run rfl)) (acts_parseLoop app frames ih hw api (a api) _)

variable {c' : ParserContext ι setup}

theorem nextMessage_advances (hs : Sinks parse) {api : ι} {ims : ImplList ι τ} (hm : r.rest ≠ [])
    (hr : (nextMessage (loadFactory app frames parse api ims)).run ⟨t, r :: outer⟩ = .ok () c') :
    ∃ r', c'.parsers = r' :: outer ∧ r'.data = r.data ∧ r'.rest.length < r.rest.length := by
  obtain ⟨id, ys, hrs⟩ := exists_cons_of_ne_nil hm
  obtain ⟨r1, hrd, -, hc⟩ :=
    nextId_run (c := (⟨t, r :: outer⟩ : ParserContext ι setup)) rfl hrs
  have ha : ActsAt 0 (loadFactory app frames parse api ims id) t r1 outer :=
    acts_loadFactory app frames hs (Nat.zero_le _) api ims id
  obtain ⟨r', hb, hl⟩ := ha.stays () c' ((bind_ok hrd).symm.trans hr)
  have hd : r'.data = r.data := hl.data.trans hc.data
  have ho := hl.offset
  have ht := offset_lt_iff.mpr hm
  rw [hc.offset] at ho
  refine ⟨r', hb, hd, ?_⟩
  rw [Reader.rest, Reader.rest, length_drop, length_drop, hd]
  omega

end

end Ae.Api.Parsing
