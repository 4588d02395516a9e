/- source: transport/system_sockets/tcp/tcp.h, transport/packet_queue_manager.h
   digest: The bytes a TCP socket accepts stay framed unless a half-sent packet is dropped. -/

import Ae.Lib.Lists
import Ae.Transport.PacketCollector
import Ae.Transport.PacketQueue
import Mathlib.Data.List.Sublists

set_option autoImplicit false

namespace Ae.Transport.TcpSending
open List Lib.EventRun Lib.Lists
open PacketCollector (writeIn)
open PacketQueue
open Ae.Types (TieredInt)
open PacketQueueManager

inductive Status where
  | success
  | fail
  | stop
deriving DecidableEq

/-- `tcp_internal::SendAction`: `setStatus` is the status its scheduled task will set, and
`finished` is `is_finished_` of the action. -/
structure SendAction where
  data : List UInt8
  sentOffset : Nat
  done : Bool
  reenqueue : Bool
  setStatus : Option Status
  finished : Bool
deriving DecidableEq

/-- The socket: its results for the next `Send`s, of which none is an error and a size is what
it would take, and all bytes it has accepted. -/
structure Socket where
  results : List (Option Nat)
  accepted : List UInt8
deriving DecidableEq

namespace SendAction

def make (data : List UInt8) : SendAction := ⟨data, 0, false, false, none, false⟩

variable (p : SendAction)

def status (status : Status) : SendAction :=
  { p with done := true, setStatus := some status }

/-- `Send`. A socket with nothing to say takes nothing. -/
def send (socket : Socket) : SendAction × Socket :=
  match socket.results with
  | [] => ({ p with reenqueue := true }, socket)
  | none :: results =>
    (status { p with reenqueue := false } .fail, { socket with results := results })
  | some n :: results =>
    let taken := (p.data.drop p.sentOffset).take n
    let socket := ⟨results, socket.accepted ++ taken⟩
    if taken.length = 0 then ({ p with reenqueue := true }, socket)
    else
      let p := { p with reenqueue := false, sentOffset := p.sentOffset + taken.length }
      (if p.data.length ≤ p.sentOffset then p.status .success else p, socket)

def stop : SendAction :=
  { p with done := true, setStatus := none, finished := true }

def finish : SendAction :=
  match p.setStatus with
  | none => p
  | some _ => { p with setStatus := none, finished := true }

end SendAction

open SendAction

instance : PacketSendAction Socket SendAction where
  isDone := done
  isFinished := finished
  reEnqueue := reenqueue
  send := send

/-- `TcpTransport`, as far as it writes: its queue and what the socket has accepted. The packets
that the queue has taken are a history, oldest first. -/
structure TcpTransport where
  queueManager : PacketQueueManager SendAction
  accepted : List UInt8
  added : List (List UInt8)

/-- `Write`, `OnReadyToWrite`, the task of the queue, `Stop` on a packet, and the task that
finishes a packet. -/
inductive Event where
  | write (data : List UInt8)
  | readyToWrite (results : List (Option Nat))
  | task (results : List (Option Nat))
  | stop (i : Nat)
  | finish (i : Nat)

namespace TcpTransport

def start : TcpTransport := ⟨.empty, [], []⟩

def write (code : TieredInt) (queueSize : Nat) (s : TcpTransport) (data : List UInt8) :
    TcpTransport :=
  { s with
    queueManager := s.queueManager.addPacket queueSize (.make (writeIn code data))
    added := if s.queueManager.queue.length = queueSize then s.added
      else s.added ++ [writeIn code data] }

def sendQueue (s : TcpTransport) (results : List (Option Nat)) : TcpTransport :=
  { s with
    queueManager := s.queueManager.send (ω := Socket) ⟨results, s.accepted⟩
    accepted := (s.queueManager.pass (ω := Socket) ⟨results, s.accepted⟩).world.accepted }

def update (s : TcpTransport) (i : Nat) (f : SendAction → SendAction) : TcpTransport :=
  { s with
    queueManager := { s.queueManager with queue := s.queueManager.queue.modify i f } }

def step (code : TieredInt) (queueSize : Nat) (s : TcpTransport) : Event → TcpTransport
  | .write data => s.write code queueSize data
  | .readyToWrite results => s.sendQueue results
  | .task results =>
    if s.queueManager.enqueued then
      sendQueue { s with queueManager := { s.queueManager with enqueued := false } } results
    else s
  | .stop i => s.update i stop
  | .finish i => s.update i finish

end TcpTransport

open TcpTransport

/-- Complete packets in queue order and the beginning of one more. -/
def Framed (added : List (List UInt8)) (accepted : List UInt8) : Prop :=
  ∃ (complete further : List (List UInt8)) (part : List UInt8),
    (complete ++ further).Sublist added ∧ further.length ≤ 1 ∧ part <+: further.flatten ∧
      accepted = complete.flatten ++ part

/-- The socket has a part of the packet and waits for the rest. -/
def HalfSent (p : SendAction) : Prop := 0 < p.sentOffset ∧ p.done = false

/-- `Write` asserts that a packet is not empty; the socket reports no error. -/
def Admitted (_ : TcpTransport) : Event → Prop
  | .write data => data ≠ []
  | .readyToWrite results => none ∉ results
  | .task results => none ∉ results
  | _ => True

instance (s : TcpTransport) : DecidablePred (Admitted s)
  | .write data => inferInstanceAs (Decidable (data ≠ []))
  | .readyToWrite results | .task results => inferInstanceAs (Decidable (none ∉ results))
  | .stop _ | .finish _ => .isTrue trivial

/-- The clean-up in front of a `Send` pops no half-sent packet. -/
def PopsNoHalfSent (s : TcpTransport) : Prop :=
  ∀ j, ReadsFinished Socket s.queueManager.queue j →
    ∀ p, s.queueManager.queue[j]? = some p → ¬ HalfSent p

/-- No half-sent packet is stopped or popped. -/
def SparesHalfSent (s : TcpTransport) : Event → Prop
  | .readyToWrite _ => PopsNoHalfSent s
  | .task _ => s.queueManager.enqueued = true → PopsNoHalfSent s
  | .stop i => ∀ p, s.queueManager.queue[i]? = some p → ¬ HalfSent p
  | _ => True

section

structure Unsent (queue : List SendAction) : Prop where
  first : ∀ p ∈ queue.head?, (p.done = true → p.sentOffset = 0) ∧ p.sentOffset < p.data.length
  rest : ∀ p ∈ queue.tail, p.sentOffset = 0 ∧ 0 < p.data.length

def part (queue : List SendAction) : List UInt8 :=
  queue.head?.elim [] fun p => p.data.take p.sentOffset

def Streams (added : List (List UInt8)) (queue : List SendAction) (accepted : List UInt8) : Prop :=
  ∃ complete : List (List UInt8), (complete ++ queue.map data).Sublist added ∧
    accepted = complete.flatten ++ part queue

variable {added : List (List UInt8)} {queue : List SendAction} {accepted : List UInt8}
  {packets : List (List UInt8)} {bytes : List UInt8}

theorem Framed.mono (hf : Framed packets bytes) (hm : packets.Sublist added) :
    Framed added bytes := by
  obtain ⟨c, f, pa, hs, ho, hb, eq⟩ := hf
  exact ⟨c, f, pa, hs.trans hm, ho, hb, eq⟩

theorem Framed.flatten (hf : Framed packets bytes) :
    ∃ sent : List (List UInt8), sent.Sublist packets ∧ bytes <+: sent.flatten := by
  obtain ⟨c, f, pa, sent, -, hb, rfl⟩ := hf
  exact ⟨_, sent, by simpa using hb⟩

theorem framed_of_flatten (hb : bytes <+: packets.flatten) : Framed packets bytes := by
  induction packets generalizing bytes with
  | nil => exact ⟨[], [], [], .refl _, Nat.zero_le 1, prefix_refl [], prefix_nil.mp hb⟩
  | cons pa packets ih =>
    obtain ⟨rest, eq⟩ := hb
    rw [flatten_cons] at eq
    rcases append_eq_append_iff.mp eq with ⟨m, hi, -⟩ | ⟨m, hoi, hl⟩
    · refine ⟨[], [pa], bytes, ?_, Nat.le_refl 1, ⟨m, by simp [hi]⟩, rfl⟩
      exact (nil_sublist packets).cons_cons pa
    · obtain ⟨c, f, pr, hs, ho, hbg, eq⟩ := ih ⟨rest, hl.symm⟩
      refine ⟨pa :: c, f, pr, hs.cons_cons pa, ho, hbg, ?_⟩
      rw [hoi, eq, flatten_cons, append_assoc]

theorem Streams.framed (hs : Streams added queue accepted) (he : bytes <+: accepted) :
    Framed added bytes := by
  obtain ⟨c, hsn, rfl⟩ := hs
  cases queue with
  | nil =>
    have he : bytes <+: c.flatten := by simpa [part] using he
    exact (framed_of_flatten he).mono (by simpa using hsn)
  | cons p queue =>
    have hw : c.flatten ++ p.data.take p.sentOffset <+:
        (c ++ [p.data]).flatten := by
      rw [flatten_append, flatten_singleton, prefix_append_right_inj]
      exact take_prefix _ _
    refine (framed_of_flatten (he.trans hw)).mono (Sublist.trans ?_ hsn)
    exact ((nil_sublist _).cons_cons p.data).append_left c

variable {p : SendAction}

theorem Unsent.tail (hu : Unsent (p :: queue)) : Unsent queue := by
  refine ⟨fun q hh => ?_, fun q hm => hu.rest q (mem_of_mem_tail hm)⟩
  obtain ⟨hz, hl⟩ := hu.rest q (mem_of_mem_head? hh)
  exact ⟨fun _ => hz, hz ▸ hl⟩

theorem Unsent.part_tail (hu : Unsent (p :: queue)) : part queue = [] := by
  cases queue with
  | nil => rfl
  | cons q queue =>
    show q.data.take q.sentOffset = []
    rw [(hu.rest q mem_cons_self).1, take_zero]

theorem Streams.next (hu : Unsent (p :: queue)) {c : List (List UInt8)}
    (hs : (c ++ (p :: queue).map data).Sublist added) :
    Streams added queue c.flatten ∧ Streams added queue (c.flatten ++ p.data) := by
  refine ⟨⟨c, ?_, by rw [hu.part_tail, append_nil]⟩,
    ⟨c ++ [p.data], ?_, by rw [hu.part_tail]; simp⟩⟩
  · exact ((sublist_cons_self _ _).append_left c).trans hs
  · rwa [append_assoc, singleton_append]

theorem Unsent.append (hun : Unsent queue) (hu : p.sentOffset = 0)
    (hl : 0 < p.data.length) : Unsent (queue ++ [p]) := by
  cases queue with
  | nil =>
    refine ⟨fun q hh => ?_, by simp⟩
    obtain rfl : p = q := Option.some.inj hh
    exact ⟨fun _ => hu, hu ▸ hl⟩
  | cons q queue =>
    refine ⟨hun.first, fun r hm => ?_⟩
    rcases mem_append.mp hm with ho | new
    · exact hun.rest r ho
    · rw [mem_singleton.mp new]
      exact ⟨hu, hl⟩

theorem Streams.append (hs : Streams added queue accepted) {pa : List UInt8}
    (hu : p.sentOffset = 0) (hd : p.data = pa) :
    Streams (added ++ [pa]) (queue ++ [p]) accepted := by
  obtain ⟨c, hsn, hb⟩ := hs
  refine ⟨c, ?_, ?_⟩
  · rw [map_append, ← append_assoc]
    exact hsn.append (by rw [map_singleton, hd])
  · rw [hb]
    cases queue with
    | nil => simp [part, hu]
    | cons q queue => rfl

theorem take_further (data : List UInt8) (o n : Nat) :
    data.take o ++ (data.drop o).take n = data.take (o + ((data.drop o).take n).length) := by
  rw [take_add, append_right_inj]
  exact prefix_iff_eq_take.mp ( take_prefix _ _)

structure Sends (p : SendAction) (base : List UInt8) (after : SendAction × Socket) : Prop where
  data : after.1.data = p.data
  fine : none ∉ after.2.results
  accepted : after.2.accepted = base ++ p.data.take after.1.sentOffset
  ends : (after.1.done = false ∧ after.1.sentOffset < p.data.length) ∨
    (after.1.done = true ∧ p.data.length ≤ after.1.sentOffset)

theorem send_sends {w : Socket} {base : List UInt8} (ho : p.done = false)
    (hl : p.sentOffset < p.data.length) (hf : none ∉ w.results)
    (hb : w.accepted = base ++ p.data.take p.sentOffset) : Sends p base (p.send w) := by
  obtain ⟨_ | ⟨_ | n, results⟩, accepted⟩ := w
  · exact ⟨rfl, hf, hb, .inl ⟨ho, hl⟩⟩
  · exact absurd mem_cons_self hf
  · have hf : none ∉ results := fun hm => hf (mem_cons_of_mem _ hm)
    have hb : accepted = base ++ p.data.take p.sentOffset := hb
    have hj : accepted ++ (p.data.drop p.sentOffset).take n =
        base ++ p.data.take (p.sentOffset + ((p.data.drop p.sentOffset).take n).length) := by
      rw [hb, append_assoc, take_further]
    simp only [SendAction.send]
    by_cases nothing : ((p.data.drop p.sentOffset).take n).length = 0
    · rw [if_pos nothing]
      rw [nothing, add_zero] at hj
      exact ⟨rfl, hf, hj, .inl ⟨ho, hl⟩⟩
    · rw [if_neg nothing]
      by_cases all : p.data.length ≤ p.sentOffset + ((p.data.drop p.sentOffset).take n).length
      · rw [if_pos all]
        exact ⟨rfl, hf, hj, .inr ⟨rfl, all⟩⟩
      · rw [if_neg all]
        exact ⟨rfl, hf, hj, .inl ⟨ho, not_le.mp all⟩⟩

theorem sendQueued_streams (w : Socket) (hu : Unsent queue)
    (hs : Streams added queue w.accepted) (hf : none ∉ w.results) :
    Unsent ((sendQueued queue w).queue.drop
        (sendQueued queue w).steps) ∧
      Streams added ((sendQueued queue w).queue.drop
          (sendQueued queue w).steps) (sendQueued queue w).world.accepted := by
  induction queue generalizing w with
  | nil => exact ⟨hu, hs⟩
  | cons p queue ih =>
    obtain ⟨c, hse, hb⟩ := hs
    obtain ⟨hst, hl⟩ := hu.first p rfl
    obtain ⟨hwt, hwi⟩ := Streams.next hu hse
    cases done : p.done with
    | true =>
      have hz : part (p :: queue) = [] := by
        show p.data.take p.sentOffset = []
        rw [hst done, take_zero]
      rw [hz, append_nil] at hb
      rw [sendQueued_done done]
      exact ih w hu.tail (hb ▸ hwt) hf
    | false =>
      have hsd : Sends p c.flatten (p.send w) := send_sends done hl hf hb
      rcases hsn : p.send w with ⟨p', w'⟩
      rw [hsn] at hsd
      obtain ⟨hd, hf, accepted, ⟨hw, hl⟩ | ⟨hc, ha⟩⟩ := hsd
      · rw [sendQueued_waits done hsn hw]
        have hd : p'.data = p.data := hd
        refine ⟨⟨fun q hh => ?_, hu.rest⟩, c, ?_, ?_⟩
        · obtain rfl : p' = q := Option.some.inj hh
          exact ⟨fun hc => absurd (hw.symm.trans hc) Bool.false_ne_true, hd ▸ hl⟩
        · simpa [hd] using hse
        · rw [accepted, ← hd]
          rfl
      · rw [sendQueued_sent done hsn hc]
        have accepted : w'.accepted = c.flatten ++ p.data := by
          rw [accepted, take_of_length_le ha]
        exact ih w' hu.tail (accepted ▸ hwi) hf

end

section

variable {added : List (List UInt8)} {queue queue' : List SendAction} {accepted : List UInt8}

theorem Streams.drop (n : Nat) (hu : Unsent queue) (hw : ∀ p ∈ queue.head?, ¬ HalfSent p)
    (hs : Streams added queue accepted) :
    Unsent (queue.drop n) ∧ Streams added (queue.drop n) accepted := by
  induction n generalizing queue with
  | zero => exact ⟨hu, hs⟩
  | succ n ih =>
    cases queue with
    | nil => exact ⟨hu, hs⟩
    | cons p queue =>
      obtain ⟨c, hsn, hb⟩ := hs
      have zero : p.sentOffset = 0 := by
        by_contra some_sent
        cases hd : p.done with
        | true => exact some_sent ((hu.first p rfl).1 hd)
        | false => exact hw p rfl ⟨Nat.pos_of_ne_zero some_sent, hd⟩
      have hn : part (p :: queue) = [] := by
        show p.data.take p.sentOffset = []
        rw [zero, take_zero]
      rw [hn, append_nil] at hb
      refine ih hu.tail (fun q hh hhl => ?_) (hb ▸ (Streams.next hu hsn).1)
      have hun := (hu.rest q (mem_of_mem_head? hh)).1
      exact absurd hun (Nat.ne_of_gt hhl.1)

structure Restated (p p' : SendAction) : Prop where
  data : p'.data = p.data
  offset : p'.sentOffset = p.sentOffset
  done : p'.done = true → p.done = true ∨ p.sentOffset = 0

theorem Restated.refl (p : SendAction) : Restated p p := ⟨rfl, rfl, .inl⟩

theorem restated_modify {f : SendAction → SendAction} {i : Nat}
    (hr : ∀ p, queue[i]? = some p → Restated p (f p)) :
    List.Forall₂ Restated queue (queue.modify i f) := by
  induction queue generalizing i with
  | nil =>
    rw [modify_nil]
    exact .nil
  | cons p queue ih =>
    cases i with
    | zero => exact .cons (hr p rfl) (forall₂_same.mpr fun q _ => Restated.refl q)
    | succ i => exact .cons (Restated.refl p) (ih hr)

theorem Streams.restated (he : List.Forall₂ Restated queue queue') (hu : Unsent queue)
    (hst : Streams added queue accepted) : Unsent queue' ∧ Streams added queue' accepted := by
  obtain ⟨c, hs, hb⟩ := hst
  rw [map_eq_map he fun _ _ hr => hr.data.symm] at hs
  cases he with
  | nil => exact ⟨hu, c, hs, hb⟩
  | @cons p p' queue queue' hh later =>
    obtain ⟨hsp, hl⟩ := hu.first p rfl
    refine ⟨⟨fun q hah => ?_, fun q hm => ?_⟩, c, hs, ?_⟩
    · obtain rfl : p' = q := Option.some.inj hah
      refine ⟨fun hd => ?_, by rw [hh.offset, hh.data]; exact hl⟩
      rw [hh.offset]
      exact (hh.done hd).elim hsp id
    · obtain ⟨r, ho, hr⟩ := exists_left later hm
      rw [hr.offset, hr.data]
      exact hu.rest r ho
    · rw [hb, part, part]
      simp [hh.data, hh.offset]

structure Sound (s : TcpTransport) : Prop where
  within : s.queueManager.index ≤ s.queueManager.queue.length
  unsent : Unsent (s.queueManager.queue.drop s.queueManager.index)
  streams : Streams s.added (s.queueManager.queue.drop s.queueManager.index) s.accepted

theorem sound_start : Sound .start :=
  ⟨le_refl 0, ⟨by simp [start, empty], by simp [start, empty]⟩, [], nil_sublist _, rfl⟩

variable {s : TcpTransport}

theorem Sound.update (hs : Sound s) {i : Nat} {f : SendAction → SendAction}
    (hr : ∀ p, s.queueManager.queue[i]? = some p → Restated p (f p)) : Sound (s.update i f) := by
  have he := forall₂_drop s.queueManager.index (restated_modify hr)
  obtain ⟨hu, hst⟩ := hs.streams.restated he hs.unsent
  exact ⟨by simpa [TcpTransport.update] using hs.within, hu, hst⟩

theorem Sound.write (hs : Sound s) (code : TieredInt) (qs : Nat) {data : List UInt8}
    (hsd : data ≠ []) : Sound (s.write code qs data) := by
  by_cases full : s.queueManager.queue.length = qs
  · have he : s.write code qs data = s := by
      rw [TcpTransport.write, addPacket, if_pos full, if_pos full]
    rwa [he]
  · have hl : 0 < (writeIn code data).length := by
      rw [writeIn, length_append]
      exact Nat.add_pos_right _ (length_pos_iff.mpr hsd)
    have hg : (s.write code qs data).queueManager.queue.drop
        (s.write code qs data).queueManager.index =
        s.queueManager.queue.drop s.queueManager.index ++ [.make (writeIn code data)] := by
      rw [TcpTransport.write, addPacket, if_neg full]
      exact drop_append_of_le_length hs.within
    have added : (s.write code qs data).added = s.added ++ [writeIn code data] :=
      if_neg full
    refine ⟨?_, ?_, ?_⟩
    · rw [TcpTransport.write, addPacket, if_neg full]
      simpa using Nat.le_succ_of_le hs.within
    · rw [hg]
      exact hs.unsent.append rfl hl
    · rw [hg, added]
      exact hs.streams.append rfl rfl

theorem Sound.cleaned (sound : Sound s) (spares : PopsNoHalfSent s) :
    Unsent ((s.queueManager.queue.drop (popped Socket s.queueManager.queue)).drop
        (s.queueManager.startIndex Socket)) ∧
      Streams s.added ((s.queueManager.queue.drop (popped Socket s.queueManager.queue)).drop
        (s.queueManager.startIndex Socket)) s.accepted := by
  rw [startIndex_eq, drop_drop]
  by_cases past : popped Socket s.queueManager.queue ≤ s.queueManager.index
  · rw [Nat.add_sub_cancel' past]
    exact ⟨sound.unsent, sound.streams⟩
  · have past := not_le.mp past
    rw [Nat.sub_eq_zero_of_le past.le, add_zero, ← Nat.add_sub_cancel' past.le, ← drop_drop]
    refine sound.streams.drop _ sound.unsent fun p head => ?_
    rw [head?_drop] at head
    exact spares _ (lt_popped_iff.mp past) p head

theorem Sound.sendQueue (hsn : Sound s) (hsp : PopsNoHalfSent s)
    {rs : List (Option Nat)} (hf : none ∉ rs) : Sound (s.sendQueue rs) := by
  obtain ⟨hu, hs⟩ := hsn.cleaned hsp
  obtain ⟨hu, hs⟩ := sendQueued_streams ⟨rs, s.accepted⟩ hu hs hf
  rw [← removeFinished_queue] at hu hs
  have hl := length_front (ω := Socket) hsn.within
  have hp := pass_passed s.queueManager (⟨rs, s.accepted⟩ : Socket)
  have hlf : (s.sendQueue rs).queueManager.queue.drop (s.sendQueue rs).queueManager.index =
      (s.queueManager.pass (⟨rs, s.accepted⟩ : Socket)).queue.drop
        (s.queueManager.pass (⟨rs, s.accepted⟩ : Socket)).steps := by
    show drop (s.queueManager.startIndex Socket +
      (s.queueManager.pass (⟨rs, s.accepted⟩ : Socket)).steps) (s.queueManager.send _).queue = _
    rw [send_queue, ← drop_drop, drop_append_of_le_length hl.symm.le,
      drop_of_length_le hl.le, nil_append]
  refine ⟨?_, hlf ▸ hu, hlf ▸ hs⟩
  show s.queueManager.startIndex Socket + _ ≤ (s.queueManager.send _).queue.length
  rw [send_queue, length_append, hl]
  exact Nat.add_le_add_left hp.within _

theorem Sound.step (hs : Sound s) (code : TieredInt) (qs : Nat) (e : Event)
    (ha : Admitted s e) (hsp : SparesHalfSent s e) : Sound (s.step code qs e) := by
  cases e with
  | write data => exact hs.write code qs ha
  | readyToWrite rs => exact hs.sendQueue hsp ha
  | task rs =>
    rw [TcpTransport.step]
    split
    · next enqueued =>
      have ht : Sound { s with queueManager := { s.queueManager with enqueued := false } } :=
        ⟨hs.within, hs.unsent, hs.streams⟩
      exact ht.sendQueue (hsp enqueued) ha
    · exact hs
  | stop i =>
    refine hs.update fun p hai => ⟨rfl, rfl, fun _ => ?_⟩
    by_cases done : p.done = true
    · exact .inl done
    · have hw := hsp p hai
      exact .inr (Nat.eq_zero_of_not_pos fun hsn => hw ⟨hsn, eq_false_of_ne_true done⟩)
  | finish i =>
    refine hs.update fun p _ => ?_
    rw [finish]
    split
    · exact ⟨rfl, rfl, .inl⟩
    · exact ⟨rfl, rfl, .inl⟩

/-- As long as no half-sent packet is stopped or popped, every beginning of what the socket has
accepted is framed: the bytes at every moment, also between two `Send`s of one pass. -/
theorem accepted_framed (code : TieredInt) (queueSize : Nat) (events : List Event)
    (admitted : Along (step code queueSize) Admitted .start events)
    (spares : Along (step code queueSize) SparesHalfSent .start events) :
    Always (step code queueSize)
      (fun s => ∀ bytes, bytes <+: s.accepted → Framed s.added bytes) .start events :=
  Always.of_invariant (I := Sound) (fun _ e hs ha => hs.step code queueSize e ha.1 ha.2)
    (fun _ hs _ hb => hs.streams.framed hb) sound_start
    (along_and.mpr ⟨admitted, spares⟩)

def inParts : List Event :=
  [.write [7], .write [8, 9], .readyToWrite [some 1, some 0], .readyToWrite [some 1, some 3],
    .finish 0]

def stopHalfSent : List Event :=
  [.write [7], .write [8], .readyToWrite [some 1, some 0], .stop 0, .readyToWrite [some 2]]

theorem popsNoHalfSent_of_popped (none_popped : popped Socket s.queueManager.queue = 0) :
    PopsNoHalfSent s := by
  intro j reads
  have popped := lt_popped_iff.mpr reads
  omega

theorem accepted_framed_inParts :
    (run (step .twoTiers 4) .start inParts).accepted = [1, 7, 2, 8, 9] ∧ Always (step .twoTiers 4)
        (fun s => ∀ bytes, bytes <+: s.accepted → Framed s.added bytes) .start inParts := by
  refine ⟨rfl, accepted_framed .twoTiers 4 inParts ?_ ?_⟩
  · decide
  · exact ⟨trivial, trivial, popsNoHalfSent_of_popped rfl, popsNoHalfSent_of_popped rfl, trivial,
      trivial⟩

/-- The length of the first packet is followed by the second packet. -/
theorem stopped_half_unframed :
    Along (step .twoTiers 4) Admitted .start stopHalfSent ∧
      (run (step .twoTiers 4) .start stopHalfSent).accepted = [1, 1, 8] ∧
      (run (step .twoTiers 4) .start stopHalfSent).added = [[1, 7], [1, 8]] ∧
      ¬ Framed [[1, 7], [1, 8]] [1, 1, 8] := by
  refine ⟨by decide, rfl, rfl, fun hf => ?_⟩
  obtain ⟨packets, hs, hb⟩ := hf.flatten
  have hnf : ∀ packets ∈ [[1, 7], [1, 8]].sublists,
      ¬ ([1, 1, 8] : List UInt8) <+: packets.flatten := by decide
  exact hnf packets (mem_sublists.mpr hs) hb

end

end Ae.Transport.TcpSending
