/- source: safe_stream/details/safe_stream_recv_action.h
   digest: The receiver emits a prefix of the stream whose parts it is sent. -/

import Ae.SafeStream.RecvSoundness

/-!
Positions of the stream are natural numbers; the byte at position `p` has the ring index
`B + p`. A byte of a recorded range is good when it is the byte of the stream at the
position that the begin, at the number of emitted bytes, gives it.
-/

set_option autoImplicit false

namespace Ae.SafeStream.Reassembly
open List Types.Ring Lib.EventRun Message RecvAction RecvSoundness
open SafeStreamRecvAction RingIndex

variable {cap : Nat}

/-- A message that carries a part of the stream `D` for a sender whose begin is at
position `s`, when `emitted` bytes have been emitted: it stays in the window from `s`,
`s` is not past what was emitted, and the last byte is not so old that its ring index
is met again. -/
structure Carries (cap w : Nat) (D : List UInt8) (B emitted : Nat) (index : UInt16)
    (message : DataMessage) (s : Nat) : Prop where
  index_eq : index.toNat = (B + s) % cap
  data_eq : message.data = (D.drop (s + message.deltaOffset.toNat)).take message.data.length
  nonempty : 1 ≤ message.data.length
  in_window : message.deltaOffset.toNat + message.data.length ≤ w
  begin_le : s ≤ emitted
  reset_first : message.reset = true → s = 0
  recent : emitted + w < s + message.deltaOffset.toNat + message.data.length - 1 + cap

/-- Every message carries a part of the stream; tasks run at any moment. -/
def FromStream (D : List UInt8) (B : Nat) (h : RecvHistory cap) : RecvOp → Prop
  | .pushData index message =>
    ∃ s, Carries cap h.action.config.windowSize D B h.emitted.length index message s
  | _ => True

def OfStream (D : List UInt8) (emitted k : Nat) (v : UInt8) : Prop := D[emitted + k]? = some v

structure Reassembles [NeZero cap] (D : List UInt8) (B : Nat) (h : RecvHistory cap) : Prop where
  nofault : h.fault = false
  emitted_le : h.emitted <+: D
  session : (h.action.chunks = none ∧ h.emitted = []) ∨ (h.action.sessionOffset = B % cap ∧
      h.action.buffer.begin_ = .ofNat (B + h.emitted.length) ∧
      Live h.action (OfStream D h.emitted.length))

variable {D : List UInt8} {B : Nat} {message : DataMessage} {index : UInt16}

theorem Carries.byte {w e s i : Nat} {v : UInt8}
    (c : Carries cap w D B e index message s) (hi : message.data[i]? = some v) :
    i < message.data.length ∧ D[s + message.deltaOffset.toNat + i]? = some v := by
  have hl := (List.getElem?_eq_some_iff.mp hi).1
  rw [c.data_eq, getElem?_take_of_lt hl, getElem?_drop] at hi
  exact ⟨hl, hi⟩

variable [NeZero cap] {h : RecvHistory cap}

theorem Carries.receivedIndex {w e s : Nat} (c : Carries cap w D B e index message s) :
    (receivedIndex index message : RingIndex cap) = .ofNat (B + s + message.deltaOffset.toNat) := by
  unfold SafeStreamRecvAction.receivedIndex
  rw [c.index_eq, ← ofNat_add, ofNat_mod, ofNat_add]

/-- The window test places an accepted message: its bytes are at the positions that the
offsets from the begin say, and not a turn of the ring away from them. -/
theorem Carries.position {w e s i k : Nat}
    (c : Carries cap w D B e index message s) (hw : 2 * w + 2 ≤ cap) {b : RingIndex cap}
    (hb : b = .ofNat (B + e)) (ha : b.distance (rightOf
      (SafeStreamRecvAction.receivedIndex index message) message.data) ≤ w)
    (hi : i < message.data.length) (hk : k ≤ w)
    (hh : (SafeStreamRecvAction.receivedIndex index message : RingIndex cap).add i = b.add k) :
    s + message.deltaOffset.toNat + i = e + k := by
  have hn := c.nonempty
  have hin := c.in_window
  have hs := c.begin_le
  have hrc := c.recent
  rw [c.receivedIndex, hb, ofNat_add, ofNat_add] at hh
  have hr : (ofNat (B + s + message.deltaOffset.toNat + message.data.length - 1) : RingIndex cap) =
      .ofNat (B + e + b.distance (rightOf
        (SafeStreamRecvAction.receivedIndex index message) message.data)) := by
    rw [← ofNat_add (B + e), ← hb, add_distance, c.receivedIndex]
    unfold rightOf
    rw [add_sub_one _ (by omega), ofNat_add]
    congr 1
    omega
  have hl := ofNat_inj_of_near hr (by omega) (by omega)
  have hbt := ofNat_inj_of_near hh (by omega) (by omega)
  omega

theorem synced_session {s : Nat} (inv : Reassembles D B h)
    (c : Carries cap h.action.config.windowSize D B h.emitted.length index message s) :
    (h.action.synced index message).sessionOffset = B % cap ∧
      (h.action.synced index message).buffer.begin_ = .ofNat (B + h.emitted.length) ∧
      (h.action.synced index message).config = h.action.config ∧
      Live (h.action.synced index message) (OfStream D h.emitted.length) := by
  rcases inv.session with ⟨hn, hh⟩ | ⟨ho, hb, hlv⟩
  · -- nothing was emitted, so the sender's begin is the start of the stream
    have hs : s = 0 := by
      have := c.begin_le
      rw [hh] at this
      exact Nat.le_zero.mp this
    have hi : index.toNat = B % cap := by rw [c.index_eq, hs, Nat.add_zero]
    have hr : h.action.resets index message = true := by
      simp [resets, hn]
    have hlv := @synced_live cap (fun _ _ => False) h.action _ index message (Or.inl hn)
    refine ⟨?_, ?_, ?_, hlv.mono (fun k v _ hf => hf.2.elim)⟩
    · simp [synced, hr, startSession, hi]
    · simp only [synced, hr, if_true, startSession, hi, hh, length_nil, Nat.add_zero]
      exact ofNat_mod B
    · simp [synced, hr, startSession]
  · have hr : h.action.resets index message = false := by
      obtain ⟨l, hl, -⟩ := hlv
      cases hreset : message.reset with
      | false => simp [resets, hl, hreset]
      | true =>
        have hi : index.toNat = B % cap := by
          rw [c.index_eq, c.reset_first hreset, Nat.add_zero]
        simp [resets, hl, ho, hi]
    have hsm : h.action.synced index message = h.action := by
      simp [synced, hr]
    rw [hsm]
    exact ⟨ho, hb, rfl, hlv⟩

theorem reassembles_push (inv : Reassembles D B h)
    (hf : FromStream D B h (.pushData index message)) :
    Reassembles D B (h.step (.pushData index message)) := by
  obtain ⟨s, c⟩ := hf
  obtain ⟨ho, hb, hc, hl⟩ := synced_session inv c
  have hw := h.action.config.two_windows
  have hn := c.nonempty
  have hin := c.in_window
  have hs : MessageSound h (.pushData index message) := by
    refine ⟨?_, fun _ => by omega⟩
    rintro ⟨hh, -⟩
    rw [hh] at hn
    exact absurd hn (by simp)
  obtain ⟨a, hst, hp, hl'⟩ := step_push inv.nofault hl hs (by
    rw [hc]
    intro ha i v k hi hk hat
    obtain ⟨hlt, hbt⟩ := c.byte hi
    have hpl := c.position hw hb ha hlt hk hat
    unfold OfStream
    rw [← hpl]
    exact hbt)
  rw [hst]
  exact ⟨inv.nofault, inv.emitted_le, .inr ⟨hp.sessionOffset.trans ho, hp.begin_.trans hb, hl'⟩⟩

theorem prefix_append_next {xs : List UInt8} {n : Nat} {f : Nat → UInt8}
    (hx : xs <+: D) (hn : ∀ k < n, D[xs.length + k]? = some (f k)) :
    xs ++ (range n).map f <+: D := by
  obtain ⟨rest, rfl⟩ := hx
  apply (prefix_append_right_inj xs).mpr
  rw [prefix_iff_getElem?]
  intro k hk
  have hl : k < n := by simpa using hk
  have := hn k hl
  rw [getElem?_append_right (Nat.le_add_right _ _), Nat.add_sub_cancel_left] at this
  simpa using this

theorem reassembles_quiet {action : SafeStreamRecvAction cap}
    (hi : Reassembles D B h) (hq : Quiet h.action action) : Reassembles D B { h with action } := by
  refine ⟨hi.nofault, hi.emitted_le, ?_⟩
  rcases hi.session with ⟨hn, hh⟩ | ⟨ho, hbg, hlv⟩
  · exact .inl ⟨hq.chunks.trans hn, hh⟩
  · refine .inr ⟨hq.position.sessionOffset.trans ho, hq.position.begin_.trans hbg, ?_⟩
    obtain ⟨l, hl, hb⟩ := hlv
    refine ⟨l, hq.chunks.trans hl, ?_⟩
    rw [hq.position.config, hq.buffer]
    exact hb

theorem reassembles_recv (hi : Reassembles D B h) : Reassembles D B (h.step .recvTask) := by
  have hlv : h.action.chunks = none ∨ Live h.action (fun k v =>
      OfStream D h.emitted.length k v ∧
        h.action.sessionOffset = B % cap ∧
        h.action.buffer.begin_ = .ofNat (B + h.emitted.length)) := by
    rcases hi.session with ⟨hn, -⟩ | ⟨ho, hb, hl⟩
    · exact .inl hn
    · exact .inr (hl.mono (fun k v _ hg => ⟨hg, ho, hb⟩))
  rcases step_recv hi.nofault hlv with ⟨action, hs, hq⟩ | ⟨n, action, hs, hh⟩
  · rw [hs]
    exact reassembles_quiet hi hq
  · rw [hs]
    have ht := hh.two_le
    obtain ⟨-, ho, hb⟩ := hh.bytes 0 (by omega)
    refine ⟨hi.nofault, ?_, .inr ⟨hh.sessionOffset.trans ho, ?_, ?_⟩⟩
    · exact prefix_append_next hi.emitted_le (fun k hk => (hh.bytes k hk).1)
    · rw [hh.begin_, hb, ofNat_add]
      simp [add_assoc]
    · apply hh.live.mono
      rintro k v - ⟨hv, -, -⟩
      unfold OfStream at hv ⊢
      simpa [add_assoc, add_comm n k] using hv

theorem reassembles_step (h : RecvHistory cap) (op : RecvOp) (hi : Reassembles D B h)
    (hf : FromStream D B h op) : Reassembles D B (h.step op) := by
  have hu : op = .ackTask ∨ op = .missingTask → Reassembles D B (h.step op) := by
    intro hh
    obtain ⟨hs, hq⟩ := step_quiet hi.nofault hh
    rw [hs]
    exact reassembles_quiet hi hq
  cases op with
  | pushData index message => exact reassembles_push hi hf
  | recvTask => exact reassembles_recv hi
  | ackTask => exact hu (.inl rfl)
  | missingTask => exact hu (.inr rfl)

/-- Whatever the order, the duplication and the overlap of the parts, and whenever the
tasks run, every call is handled and what was emitted is a prefix of the stream. -/
theorem emitted_prefix_of_stream (config : SafeStreamConfig cap)
    (memory : RingIndex cap → UInt8) (D : List UInt8) (B : Nat) (ops : List RecvOp)
    (parts : Along RecvHistory.step (FromStream D B) (.init config memory) ops) :
    Always RecvHistory.step (fun h => h.fault = false ∧ h.emitted <+: D)
      (.init config memory) ops :=
  Always.of_invariant reassembles_step (fun _ hi => ⟨hi.nofault, hi.emitted_le⟩)
    (⟨rfl, nil_prefix, .inl ⟨rfl, rfl⟩⟩ : Reassembles D B (.init config memory)) parts

theorem emitted_prefix_of_stream_wrapped :
    Always RecvHistory.step (fun h => h.fault = false ∧ h.emitted <+: [1, 2, 3, 4, 5])
      (.init smallConfig (fun _ => 0))
      [.pushData 6 ⟨true, 0, 2, [3]⟩, .recvTask, .pushData 6 ⟨true, 0, 0, [1, 2]⟩,
        .pushData 6 ⟨true, 1, 0, [1, 2]⟩, .recvTask, .pushData 0 ⟨false, 0, 0, [3, 4, 5]⟩,
        .recvTask, .ackTask] := by
  refine emitted_prefix_of_stream smallConfig (fun _ => 0) [1, 2, 3, 4, 5] 6 _
    ⟨⟨0, ?_⟩, trivial, ⟨0, ?_⟩, ⟨0, ?_⟩, trivial, ⟨2, ?_⟩, trivial, trivial, trivial⟩
  all_goals constructor <;> decide

end Ae.SafeStream.Reassembly
