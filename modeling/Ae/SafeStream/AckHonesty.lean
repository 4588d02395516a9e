/- source: safe_stream/details/safe_stream_recv_action.h
   digest: An acknowledgement names the last emitted byte once the session has emitted one. -/

import Ae.SafeStream.RecvSoundness

set_option autoImplicit false

namespace Ae.SafeStream.AckHonesty
open Types.Ring Lib.EventRun Message RecvAction RecvSoundness
open SafeStreamRecvAction RecvHistory

variable {cap : Nat}

/-- Every index given to `SendAck` is that of the byte emitted last in the session. -/
def AckHonest (h : RecvHistory cap) (op : RecvOp) : Prop :=
  ∀ index, .sendAck index ∈ (h.action.runTask op).2 →
    ∃ q, h.session.getLast? = some q ∧ index.toNat = q.value

/-- When the scheduled ack task runs, the session has emitted a byte, and the index of the
last emitted byte fits the sixteen bits of the message. -/
def AckAfterEmission (h : RecvHistory cap) : RecvOp → Prop
  | .ackTask => h.action.ackTimer = true → h.session ≠ [] ∧ h.action.lastEmitted.value < UInt16.size
  | _ => True

/-- `last_emitted_` survives a restart of the session, so it says something about the
session only after the session's first emission. -/
structure LastEmitted (h : RecvHistory cap) : Prop where
  carried : CarriedInv h
  last : h.session ≠ [] → h.session.getLast? = some h.action.lastEmitted

theorem mem_sendAck {s : SafeStreamRecvAction cap} {op : RecvOp} {ix : UInt16} :
    .sendAck ix ∈ (s.runTask op).2 ↔
      op = .ackTask ∧ s.ackTimer = true ∧ ix = UInt16.ofNat s.lastEmitted.value := by
  cases op with
  | pushData i m => simp [runTask]
  | recvTask =>
    simp only [runTask, handleCompletedChains]
    repeat' split
    all_goals simp
  | ackTask =>
    simp only [runTask, handleAcknowledgement]
    split_ifs with ht
    · simp [ht]
    · simp [ht]
  | missingTask =>
    simp only [runTask, handleMissing]
    repeat' split
    all_goals simp

theorem ackHonest_iff (h : RecvHistory cap) (op : RecvOp) (inv : LastEmitted h) :
    AckHonest h op ↔ AckAfterEmission h op := by
  have hv : ∀ v, (UInt16.ofNat v).toNat = v ↔ v < UInt16.size := by
    intro v
    rw [UInt16.toNat_ofNat']
    exact Nat.mod_eq_iff_lt (by decide)
  constructor
  · intro ho
    cases op with
    | ackTask =>
      intro ht
      obtain ⟨q, hq, hi⟩ := ho _ (mem_sendAck.mpr ⟨rfl, ht, rfl⟩)
      have hn : h.session ≠ [] := by
        intro hnl
        simp [hnl] at hq
      obtain rfl : h.action.lastEmitted = q := Option.some.inj ((inv.last hn).symm.trans hq)
      exact ⟨hn, (hv _).mp hi⟩
    | pushData i m | recvTask | missingTask => trivial
  · intro ha i hi
    obtain ⟨rfl, ht, rfl⟩ := mem_sendAck.mp hi
    obtain ⟨hn, hf⟩ := ha ht
    exact ⟨_, inv.last hn, (hv _).mpr hf⟩

variable [NeZero cap] {h : RecvHistory cap}

theorem push_keeps_session {ix : UInt16} {m : DataMessage}
    (hi : CarriedInv h) (hs : MessageSound h (.pushData ix m)) :
    ((h.step (.pushData ix m)).session = [] ∨
      (h.step (.pushData ix m)).session = h.session) ∧
    (h.step (.pushData ix m)).action.lastEmitted = h.action.lastEmitted := by
  obtain ⟨a, hst, hp, -⟩ := step_push hi.1
    ((synced_live ix m hi.2).mono (fun k v _ _ => trivial)) hs
    (fun _ i v k _ _ _ => trivial)
  rw [hst]
  refine ⟨?_, hp.lastEmitted.trans ?_⟩
  · cases h.action.resets ix m with
    | true => exact .inl rfl
    | false => exact .inr rfl
  · unfold synced
    split_ifs
    · rfl
    · rfl

theorem lastEmitted_step (h : RecvHistory cap) (op : RecvOp) (hi : LastEmitted h)
    (hsn : MessageSound h op) : LastEmitted (h.step op) := by
  refine ⟨carriedInv_step h op hi.carried hsn, ?_⟩
  have hu : op = .ackTask ∨ op = .missingTask → (h.step op).session ≠ [] →
      (h.step op).session.getLast? = some (h.step op).action.lastEmitted := by
    intro hop
    obtain ⟨hs, hq⟩ := step_quiet hi.carried.1 hop
    rw [hs]
    simp only [hq.position.lastEmitted]
    exact hi.last
  cases op with
  | pushData i m =>
    obtain ⟨hss, hl⟩ := push_keeps_session hi.carried hsn
    intro hn
    rcases hss with hh | hsame
    · exact absurd hh hn
    · rw [hsame] at hn ⊢
      rw [hl]
      exact hi.last hn
  | recvTask =>
    rcases step_recv hi.carried.1 hi.carried.2 with
      ⟨action, hs, hq⟩ | ⟨n, action, hs, hem⟩
    · rw [hs]
      simp only [hq.position.lastEmitted]
      exact hi.last
    · rw [hs]
      intro _
      have ht := hem.two_le
      simp only [hem.lastEmitted]
      have hn : h.nextIndices n ≠ [] := by
        intro hnl
        have := congrArg List.length hnl
        simp [nextIndices] at this
        omega
      rw [List.getLast?_append_of_ne_nil _ hn]
      simp [nextIndices, List.getLast?_range]
      omega
  | ackTask => exact hu (.inl rfl)
  | missingTask => exact hu (.inr rfl)

/-- Among the runs of sound messages, those whose acknowledgements are all honest are
those in which the ack task never runs before the session's first emission. -/
theorem ack_honest_iff_after_emission (config : SafeStreamConfig cap)
    (memory : RingIndex cap → UInt8) (ops : List RecvOp)
    (sound : Along step MessageSound (.init config memory) ops) :
    Along step AckHonest (.init config memory) ops ↔
      Along step AckAfterEmission (.init config memory) ops :=
  along_congr_of_invariant lastEmitted_step (fun h op hi _ => ackHonest_iff h op hi)
    (⟨carriedInv_init config memory, fun hn => absurd rfl hn⟩ :
      LastEmitted (.init config memory)) sound

theorem ack_honest_iff_after_emission_twice :
    Along step AckHonest (.init smallConfig (fun _ => 0))
      [.pushData 6 ⟨true, 0, 0, [1, 2]⟩, .recvTask, .ackTask,
        .pushData 0 ⟨false, 0, 0, [3, 4, 5]⟩, .recvTask, .ackTask] :=
  (ack_honest_iff_after_emission smallConfig (fun _ => 0) _ (by decide)).mpr
    ⟨trivial, trivial, fun _ => by decide, trivial, trivial, fun _ => by decide, trivial⟩

/-- A repeated single byte schedules the ack task before anything was emitted, and a restart
of the session leaves the ack of the session before it pending. -/
theorem ack_before_emission_is_dishonest :
    ¬ Along step AckHonest (.init smallConfig (fun _ => 0))
      [.pushData 6 ⟨true, 0, 0, [1]⟩, .pushData 6 ⟨true, 1, 0, [1]⟩, .ackTask] ∧
    ¬ Along step AckHonest (.init smallConfig (fun _ => 0))
      [.pushData 6 ⟨true, 0, 0, [1, 2]⟩, .recvTask, .pushData 3 ⟨true, 0, 0, [7]⟩, .ackTask] := by
  constructor
  · rintro ⟨-, -, ho, -⟩
    obtain ⟨q, hq, -⟩ := ho 0 (by decide)
    cases (show none = some q from hq)
  · rintro ⟨-, -, -, ho, -⟩
    obtain ⟨q, hq, -⟩ := ho 7 (by decide)
    cases (show none = some q from hq)

end Ae.SafeStream.AckHonesty
