/- source: transport/{packet_queue_manager,packet_send_action}.h
   digest: The clean-up of the packet queue reads every second position and pops the front. -/

import Mathlib.Data.List.Forall2
import Ae.Lib.EventRun

set_option autoImplicit false

namespace Ae.Transport.PacketQueue
open List Lib.EventRun

/-- `PacketSendAction`, for packets that `Send` into a world `ω`. -/
class PacketSendAction (ω T : Type) where
  isDone : T → Bool
  isFinished : T → Bool
  reEnqueue : T → Bool
  send : T → ω → T × ω

open PacketSendAction hiding send

/-- `PacketQueueManager`: `enqueued` tells whether `enqueue_sub_` has a task to run. -/
structure PacketQueueManager (T : Type) where
  queue : List T
  index : Nat
  enqueued : Bool

/-- What the second loop of `Send` does to the packets from `index_` on. -/
structure Pass (ω T : Type) where
  queue : List T
  world : ω
  /-- How far `index_` went. -/
  steps : Nat
  /-- How far it had gone at each `Send` of a packet, oldest first. -/
  calls : List Nat
  enqueue : Bool

variable {ω T : Type} [PacketSendAction ω T] {queue : List T}

namespace PacketQueueManager

def empty : PacketQueueManager T := ⟨[], 0, false⟩

def addPacket (maxSize : Nat) (m : PacketQueueManager T) (t : T) : PacketQueueManager T :=
  if m.queue.length = maxSize then m
  else { m with queue := m.queue ++ [t], enqueued := true }

variable (ω)

/-- The loop that removes finished packets: it reads at `i` and pops the front. -/
def removeFinished : Nat → List T → Nat × List T
  | i, [] => (i, [])
  | i, p :: queue =>
    match (p :: queue)[i]? with
    | none => (i, p :: queue)
    | some q =>
      if isFinished ω q then removeFinished (i + 1) queue else (i, p :: queue)

variable {ω}

def sendQueued : List T → ω → Pass ω T
  | [], w => ⟨[], w, 0, [], false⟩
  | p :: queue, w =>
    if isDone ω p then
      let pass := sendQueued queue w
      { pass with
        queue := p :: pass.queue
        steps := pass.steps + 1
        calls := pass.calls.map (· + 1) }
    else
      let (sent, w) := PacketSendAction.send p w
      if isDone ω sent then
        let pass := sendQueued queue w
        { pass with
          queue := sent :: pass.queue
          steps := pass.steps + 1
          calls := 0 :: pass.calls.map (· + 1) }
      else ⟨sent :: queue, w, 0, [0], reEnqueue ω sent⟩

section

variable {p sent : T} {w w' : ω}

def Pass.behind (p : T) (calls : List Nat) (pass : Pass ω T) : Pass ω T :=
  { pass with
    queue := p :: pass.queue
    steps := pass.steps + 1
    calls := calls ++ pass.calls.map (· + 1) }

theorem sendQueued_done (hd : isDone ω p = true) :
    sendQueued (p :: queue) w = Pass.behind p [] (sendQueued queue w) := by
  rw [sendQueued, if_pos hd]
  rfl

theorem sendQueued_sent (hu : isDone ω p = false)
    (hs : PacketSendAction.send p w = (sent, w')) (hd : isDone ω sent = true) :
    sendQueued (p :: queue) w = Pass.behind sent [0] (sendQueued queue w') := by
  simp only [sendQueued, hu, hs, hd, if_true, Bool.false_eq_true, if_false]
  rfl

theorem sendQueued_waits (hu : isDone ω p = false) (hs : PacketSendAction.send p w = (sent, w'))
    (hw : isDone ω sent = false) : sendQueued (p :: queue) w =
      ⟨sent :: queue, w', 0, [0], reEnqueue ω sent⟩ := by
  simp only [sendQueued, hu, hs, hw, Bool.false_eq_true, if_false]

end

variable (m : PacketQueueManager T)

variable (ω) in
def startIndex : Nat :=
  let i := (removeFinished ω 0 m.queue).1
  if m.index ≤ i then 0 else m.index - i

def pass (w : ω) : Pass ω T :=
  sendQueued ((removeFinished ω 0 m.queue).2.drop (m.startIndex ω)) w

def send (w : ω) : PacketQueueManager T where
  queue := (removeFinished ω 0 m.queue).2.take (m.startIndex ω) ++ (m.pass w).queue
  index := m.startIndex ω + (m.pass w).steps
  enqueued := m.enqueued || (m.pass w).enqueue

end PacketQueueManager

section

open PacketQueueManager

def popped (ω : Type) {T : Type} [PacketSendAction ω T] (queue : List T) : Nat :=
  (removeFinished ω 0 queue).1

def Sent (ω : Type) {T : Type} [PacketSendAction ω T] (p p' : T) : Prop :=
  p' = p ∨ ∃ w : ω, p' = (PacketSendAction.send p w).1

/-- What a `Send` of the queue is meant to do: only finished packets go, the others keep their
order, a packet is sent when all before it are done, and `index_` stops at the first that is
not. -/
structure Faithful (m : PacketQueueManager T) (w : ω) : Prop where
  removed : ∀ p ∈ m.queue.take (popped ω m.queue), isFinished ω p = true
  kept : List.Forall₂ (Sent ω) (m.queue.drop (popped ω m.queue)) (m.send w).queue
  turn : ∀ j ∈ (m.pass w).calls, ∀ p ∈ (m.send w).queue.take (m.startIndex ω + j), isDone ω p = true
  passed : ∀ p ∈ (m.send w).queue.take (m.send w).index, isDone ω p = true
  stopped : ∀ p, (m.send w).queue[(m.send w).index]? = some p → isDone ω p = false

variable (ω) in
/-- The clean-up reads a finished packet at the first `j + 1` even positions. -/
def ReadsFinished (queue : List T) (j : Nat) : Prop :=
  ∀ l ≤ j, ∃ p, queue[2 * l]? = some p ∧ isFinished ω p = true

variable (ω) in
/-- There is no gap in front: as far as finished packets stand at the even positions, half as
many packets from the front are finished. -/
def Gapless (queue : List T) : Prop :=
  ∀ j, ReadsFinished ω queue j → ∀ p, queue[j]? = some p → isFinished ω p = true

end

section

open PacketQueueManager

/-- After `k` pops the loop reads what stood `2 * k` further. -/
theorem removeFinished_spec (i : Nat) (queue : List T) :
    ∃ k, removeFinished ω i queue = (i + k, queue.drop k) ∧ k ≤ queue.length ∧
      ∀ j, j < k ↔ ∀ l ≤ j, ∃ p, queue[i + 2 * l]? = some p ∧ isFinished ω p = true := by
  induction queue generalizing i with
  | nil => exact ⟨0, rfl, Nat.le_refl 0, fun j => ⟨fun hl => absurd hl (Nat.not_lt_zero j),
      fun hr => by simpa using hr 0 (Nat.zero_le j)⟩⟩
  | cons p queue ih =>
    have hst : (∀ q, (p :: queue)[i]? = some q → isFinished ω q = false) →
        ∀ j, j < 0 ↔ ∀ l ≤ j, ∃ q, (p :: queue)[i + 2 * l]? = some q ∧
          isFinished ω q = true := by
      refine fun no j => ⟨fun hl => absurd hl (Nat.not_lt_zero j), fun hr => ?_⟩
      obtain ⟨q, hh, hf⟩ := hr 0 (Nat.zero_le j)
      rw [no q hh] at hf
      cases hf
    cases hh : (p :: queue)[i]? with
    | none => exact ⟨0, by simp [removeFinished, hh], Nat.zero_le _, hst (by simp [hh])⟩
    | some q =>
      cases hf : isFinished ω q with
      | false => exact ⟨0, by simp [removeFinished, hh, hf], Nat.zero_le _, hst (by simp [hh, hf])⟩
      | true =>
        obtain ⟨k, run, hm, hr⟩ := ih (i + 1)
        refine ⟨k + 1, ?_, Nat.succ_le_succ hm, fun j => ?_⟩
        · rw [removeFinished, hh]
          simp only [hf, if_true, run, drop_succ_cons]
          rw [Nat.add_assoc, Nat.add_comm 1 k]
        · have hs : ∀ l, (p :: queue)[i + 2 * (l + 1)]? = queue[i + 1 + 2 * l]? := by
            intro l
            rw [show i + 2 * (l + 1) = i + 1 + 2 * l + 1 by omega, getElem?_cons_succ]
          cases j with
          | zero =>
            refine ⟨fun _ l le => ?_, fun _ => Nat.succ_pos k⟩
            obtain rfl := Nat.le_zero.mp le
            exact ⟨q, hh, hf⟩
          | succ j =>
            rw [Nat.succ_lt_succ_iff, hr j]
            constructor
            · intro hlt l le
              cases l with
              | zero => exact ⟨q, hh, hf⟩
              | succ l =>
                rw [hs]
                exact hlt l (Nat.le_of_succ_le_succ le)
            · intro ha l le
              rw [← hs]
              exact ha (l + 1) (Nat.succ_le_succ le)

theorem lt_popped_iff {j : Nat} : j < popped ω queue ↔ ReadsFinished ω queue j := by
  obtain ⟨k, run, -, hr⟩ := removeFinished_spec (ω := ω) 0 queue
  rw [popped, run]
  simpa [ReadsFinished] using hr j

theorem removeFinished_queue (queue : List T) :
    (removeFinished ω 0 queue).2 = queue.drop (popped ω queue) := by
  obtain ⟨k, hr, -, -⟩ := removeFinished_spec (ω := ω) 0 queue
  simp [popped, hr]

theorem exists_of_mem_take {p : T} {k : Nat} (hm : p ∈ queue.take k) :
    ∃ j < k, queue[j]? = some p := by
  obtain ⟨j, hl, rfl⟩ := mem_take_iff_getElem.mp hm
  exact ⟨j, by omega, getElem?_eq_getElem _⟩

theorem removed_iff_gapless :
    (∀ p ∈ queue.take (popped ω queue), isFinished ω p = true) ↔ Gapless ω queue := by
  constructor
  · intro hr j hrd p hh
    refine hr p (mem_iff_getElem?.mpr ⟨j, ?_⟩)
    rw [getElem?_take_of_lt (lt_popped_iff.mpr hrd), hh]
  · intro hg p hm
    obtain ⟨j, hl, hh⟩ := exists_of_mem_take hm
    exact hg j (lt_popped_iff.mp hl) p hh

structure Passed (queue : List T) (pass : Pass ω T) : Prop where
  kept : List.Forall₂ (Sent ω) queue pass.queue
  done : ∀ p ∈ pass.queue.take pass.steps, isDone ω p = true
  stopped : ∀ p, pass.queue[pass.steps]? = some p → isDone ω p = false
  within : pass.steps ≤ pass.queue.length
  calls : ∀ j ∈ pass.calls, j ≤ pass.steps

theorem Passed.cons {pa : Pass ω T} (hp : Passed queue pa) {p p' : T} (sent : Sent ω p p')
    (done : isDone ω p' = true) (calls : List Nat) (ho : ∀ j ∈ calls, j = 0) :
    Passed (p :: queue) (Pass.behind p' calls pa) where
  kept := .cons sent hp.kept
  done := by
    intro q hm
    rcases mem_cons.mp hm with rfl | later
    · exact done
    · exact hp.done q later
  stopped := hp.stopped
  within := Nat.succ_le_succ hp.within
  calls := by
    intro j hm
    rcases mem_append.mp hm with hh | later
    · rw [ho j hh]
      exact Nat.zero_le _
    · obtain ⟨i, hc, rfl⟩ := mem_map.mp later
      exact Nat.succ_le_succ (hp.calls i hc)

theorem sendQueued_passed (queue : List T) (w : ω) : Passed queue (sendQueued queue w) := by
  induction queue generalizing w with
  | nil => exact ⟨.nil, by simp [sendQueued], by simp [sendQueued], Nat.le_refl 0,
      by simp [sendQueued]⟩
  | cons p queue ih =>
    cases hd : isDone ω p with
    | true =>
      rw [sendQueued_done hd]
      exact (ih w).cons (Or.inl rfl) hd [] (by simp)
    | false =>
      rcases hs : PacketSendAction.send p w with ⟨p', w'⟩
      have sent : Sent ω p p' := Or.inr ⟨w, by rw [hs]⟩
      cases ha : isDone ω p' with
      | true =>
        rw [sendQueued_sent hd hs ha]
        exact (ih w').cons sent ha [0] (by simp)
      | false =>
        rw [sendQueued_waits hd hs ha]
        refine ⟨.cons sent (forall₂_same.mpr fun _ _ => Or.inl rfl), by simp, ?_,
          Nat.zero_le _, by simp⟩
        simpa using ha

end

section

open PacketQueueManager

variable (ω) in
structure Marked (m : PacketQueueManager T) : Prop where
  within : m.index ≤ m.queue.length
  done : ∀ p ∈ m.queue.take m.index, isDone ω p = true

theorem marked_empty : Marked ω (empty : PacketQueueManager T) :=
  ⟨Nat.le_refl 0, by simp [empty]⟩

variable {m : PacketQueueManager T}

theorem Marked.addPacket (hm : Marked ω m) (ms : Nat) (t : T) :
    Marked ω (m.addPacket ms t) := by
  rw [PacketQueueManager.addPacket]
  split
  · exact hm
  · refine ⟨?_, ?_⟩
    · rw [length_append]
      exact Nat.le_add_right_of_le hm.within
    · rw [take_append_of_le_length hm.within]
      exact hm.done

theorem Marked.taken (hm : Marked ω m) : Marked ω { m with enqueued := false } :=
  ⟨hm.within, hm.done⟩

theorem startIndex_eq (m : PacketQueueManager T) : m.startIndex ω = m.index - popped ω m.queue := by
  rw [startIndex, popped]
  split <;> omega

theorem length_front (hw : m.index ≤ m.queue.length) :
    ((m.queue.drop (popped ω m.queue)).take (m.startIndex ω)).length = m.startIndex ω := by
  rw [startIndex_eq, length_take, length_drop]
  exact Nat.min_eq_left (Nat.sub_le_sub_right hw _)

theorem Marked.front (hmr : Marked ω m) :
    ∀ p ∈ (m.queue.drop (popped ω m.queue)).take (m.startIndex ω), isDone ω p = true := by
  rw [startIndex_eq, take_drop]
  refine fun p hm => hmr.done p ?_
  by_cases hl : popped ω m.queue ≤ m.index
  · rw [Nat.add_sub_cancel' hl] at hm
    exact mem_of_mem_drop hm
  · rw [Nat.sub_eq_zero_of_le (Nat.le_of_not_le hl), Nat.add_zero] at hm
    simp at hm

theorem send_queue (m : PacketQueueManager T) (w : ω) : (m.send w).queue =
    (m.queue.drop (popped ω m.queue)).take (m.startIndex ω) ++ (m.pass w).queue := by
  rw [send, removeFinished_queue]

theorem pass_passed (m : PacketQueueManager T) (w : ω) :
    Passed ((m.queue.drop (popped ω m.queue)).drop (m.startIndex ω)) (m.pass w) := by
  rw [PacketQueueManager.pass, removeFinished_queue]
  exact sendQueued_passed _ w

theorem Marked.done_upto (hm : Marked ω m) (w : ω) {j : Nat} (le : j ≤ (m.pass w).steps) :
    ∀ p ∈ (m.send w).queue.take (m.startIndex ω + j), isDone ω p = true := by
  intro p mem
  rw [send_queue, take_append, length_front hm.within, Nat.add_sub_cancel_left] at mem
  rcases mem_append.mp mem with ho | new
  · exact hm.front p (mem_of_mem_take ho)
  · exact (pass_passed m w).done p (take_subset_take_left _ le new)

theorem Marked.send (hm : Marked ω m) (w : ω) : Marked ω (m.send w) := by
  refine ⟨?_, hm.done_upto w (Nat.le_refl _)⟩
  rw [send_queue, length_append, length_front hm.within]
  exact Nat.add_le_add_left (pass_passed m w).within _

theorem Marked.faithful_iff (hm : Marked ω m) (w : ω) : Faithful m w ↔ Gapless ω m.queue := by
  refine ⟨fun hf => removed_iff_gapless.mp hf.removed, fun hg => ?_⟩
  have hp := pass_passed m w
  refine ⟨removed_iff_gapless.mpr hg, ?_, fun j hc => hm.done_upto w (hp.calls j hc),
    hm.done_upto w (Nat.le_refl _), ?_⟩
  · have he : List.Forall₂ (Sent ω) ((m.queue.drop (popped ω m.queue)).take (m.startIndex ω))
        ((m.queue.drop (popped ω m.queue)).take (m.startIndex ω)) :=
      forall₂_same.mpr fun _ _ => Or.inl rfl
    have hb := rel_append he hp.kept
    beta_reduce at hb
    rwa [take_append_drop, ← send_queue] at hb
  · intro p hh
    rw [send_queue, show (m.send w).index = m.startIndex ω + (m.pass w).steps from rfl,
      getElem?_append_right (by rw [length_front hm.within]; exact Nat.le_add_right _ _),
      length_front hm.within, Nat.add_sub_cancel_left] at hh
    exact hp.stopped p hh

/-- What happens to a queue: `AddPacket`, a `Send` from the socket, the task of `Enqueue`, and
a packet that gets another status. -/
inductive Event (ω T : Type) where
  | addPacket (t : T)
  | send (w : ω)
  | task (w : ω)
  | status (i : Nat) (t : T)

def step (maxSize : Nat) (m : PacketQueueManager T) : Event ω T → PacketQueueManager T
  | .addPacket t => m.addPacket maxSize t
  | .send w => m.send w
  | .task w => if m.enqueued then send { m with enqueued := false } w else m
  | .status i t => { m with queue := m.queue.set i t }

/-- A packet that is done stays done, and one that is finished stays finished. -/
def Progresses (m : PacketQueueManager T) : Event ω T → Prop
  | .status i t => ∀ p, m.queue[i]? = some p → (isDone ω p = true → isDone ω t = true) ∧
    (isFinished ω p = true → isFinished ω t = true)
  | _ => True

def SendsFaithfully (m : PacketQueueManager T) : Event ω T → Prop
  | .send w => Faithful m w
  | .task w => m.enqueued = true → Faithful { m with enqueued := false } w
  | _ => True

def GaplessAt (m : PacketQueueManager T) : Event ω T → Prop
  | .send _ => Gapless ω m.queue
  | .task _ => m.enqueued = true → Gapless ω m.queue
  | _ => True

theorem Marked.step (hm : Marked ω m) (ms : Nat) {e : Event ω T}
    (hp : Progresses m e) : Marked ω (step ms m e) := by
  cases e with
  | addPacket t => exact hm.addPacket ms t
  | send w => exact hm.send w
  | task w =>
    rw [PacketQueue.step]
    split
    · exact hm.taken.send w
    · exact hm
  | status i t =>
    refine ⟨by simpa [PacketQueue.step] using hm.within, fun p mem => ?_⟩
    obtain ⟨j, hl, hh⟩ := exists_of_mem_take mem
    have hl : j < m.index := hl
    have hi : j < m.queue.length := Nat.lt_of_lt_of_le hl hm.within
    have ho : isDone ω m.queue[j] = true :=
      hm.done _ (mem_take_iff_getElem.mpr ⟨j, by omega, rfl⟩)
    rw [PacketQueue.step] at hh
    by_cases same : i = j
    · subst same
      rw [getElem?_set_self hi] at hh
      cases hh
      exact (hp _ (getElem?_eq_getElem hi)).1 ho
    · rw [getElem?_set_ne same, getElem?_eq_getElem hi] at hh
      cases hh
      exact ho

/-- Every `Send` of a run does what it is meant to do exactly when none of them finds a gap in
front of the queue. -/
theorem sends_faithfully_iff_gapless (maxSize : Nat) (events : List (Event ω T))
    (progresses : Along (step maxSize) Progresses (empty : PacketQueueManager T) events) :
    Along (step maxSize) SendsFaithfully (empty : PacketQueueManager T) events ↔
      Along (step maxSize) GaplessAt (empty : PacketQueueManager T) events := by
  refine along_congr_of_invariant (fun m e hm hp => hm.step maxSize hp)
    (fun m e hm _ => ?_) marked_empty progresses
  cases e with
  | addPacket t => exact .rfl
  | send w => exact hm.faithful_iff w
  | task w => exact imp_congr_right fun _ => hm.taken.faithful_iff w
  | status i t => exact .rfl

end

section

open PacketQueueManager

/-- A packet of which only the state is known; the world says whether each `Send` ends it. -/
structure Flags where
  done : Bool
  finished : Bool
deriving DecidableEq

instance : PacketSendAction (List Bool) Flags where
  isDone := Flags.done
  isFinished := Flags.finished
  reEnqueue _ := false
  send p w := ({ p with done := w.headD false }, w.tail)

def stopAround : List (Event (List Bool) Flags) :=
  [.addPacket ⟨false, false⟩, .addPacket ⟨false, false⟩, .addPacket ⟨false, false⟩,
    .status 0 ⟨true, true⟩, .status 2 ⟨true, true⟩, .send []]

def sendBoth : List (Event (List Bool) Flags) :=
  [.addPacket ⟨false, false⟩, .addPacket ⟨false, false⟩, .send [true], .status 0 ⟨true, true⟩,
    .send [true]]

theorem sends_faithfully_iff_gapless_sendBoth :
    Along (step 10) Progresses (empty : PacketQueueManager Flags) sendBoth ∧
      Along (step 10) SendsFaithfully (empty : PacketQueueManager Flags) sendBoth := by
  have hp : Along (step 10) Progresses (empty : PacketQueueManager Flags) sendBoth :=
    ⟨trivial, trivial, trivial, fun _ _ => ⟨fun _ => rfl, fun _ => rfl⟩, trivial, trivial⟩
  refine ⟨hp, (sends_faithfully_iff_gapless 10 sendBoth hp).mpr ?_⟩
  exact ⟨trivial, trivial, removed_iff_gapless.mp (by decide), trivial,
    removed_iff_gapless.mp (by decide), trivial⟩

/-- The unsent packet between two finished ones is popped. -/
theorem unsent_packet_popped :
    Along (step 10) Progresses (empty : PacketQueueManager Flags) stopAround ∧
      (run (step 10) (empty : PacketQueueManager Flags) stopAround).queue = [⟨true, true⟩] ∧
      ¬ Along (step 10) SendsFaithfully (empty : PacketQueueManager Flags) stopAround := by
  have hs : ∀ (m : PacketQueueManager Flags) i,
      Progresses (ω := List Bool) m (.status i ⟨true, true⟩) :=
    fun _ _ _ _ => ⟨fun _ => rfl, fun _ => rfl⟩
  refine ⟨⟨trivial, trivial, trivial, hs _ 0, hs _ 2, trivial, trivial⟩, rfl, ?_⟩
  rintro ⟨-, -, -, -, -, hft, -⟩
  have hf := hft.removed ⟨false, false⟩ (by decide)
  cases hf

end

end Ae.Transport.PacketQueue
