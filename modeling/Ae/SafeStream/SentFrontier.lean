/- source: safe_stream/details/safe_stream_send_action.h
   digest: While no index jumps past what was pushed, an acknowledgement discards only pushed bytes. -/

import Ae.SafeStream.SendAction

/-!
The bytes that were pushed and are still buffered form an initial part of the buffer. Its
end, the frontier, is where the first byte that was never pushed is or will be.
-/

set_option autoImplicit false

namespace Ae.SafeStream.SentFrontier
open List Types.Ring Lib.EventRun Circular Message SendingChunks
open SendAction SendHistory
open SafeStreamSendAction hiding init
open RingIndex CircularBuffer

variable {cap : Nat} [NeZero cap]

/-- What an acknowledgement may do: report and erase pushed bytes, or change nothing. -/
structure AckSafe (h : SendHistory cap) (offset : UInt16) : Prop where
  reported : ∀ b e, .acknowledged b e ∈ (h.action.acknowledge offset).2 →
    b = h.action.sendingBuffer.begin_ ∧ ∀ k ≤ b.distance e, h.Pushed (h.base + k)
  erased : ∀ k < h.action.sendingBuffer.begin_.distance
    (h.action.acknowledge offset).1.sendingBuffer.begin_, h.Pushed (h.base + k)
  otherwise : (h.action.acknowledge offset).2 = [] →
    (h.action.acknowledge offset).1.sendingBuffer.begin_ = h.action.sendingBuffer.begin_ ∧
    (h.action.acknowledge offset).1.sendingBuffer.end_ = h.action.sendingBuffer.end_ ∧
    (h.action.acknowledge offset).1.lastSent = h.action.lastSent ∧
    (h.action.acknowledge offset).1.sendingChunks = h.action.sendingChunks

variable (h : SendHistory cap)

def AcknowledgesSent : SendOp cap → Prop
  | .acknowledge offset => AckSafe h offset
  | _ => True

def Reached (i : RingIndex cap) : Prop :=
  h.action.sendingBuffer.begin_.distance i = 0 ∨
    h.Pushed (h.base + h.action.sendingBuffer.begin_.distance i - 1)

instance (h : SendHistory cap) (i : RingIndex cap) : Decidable (Reached h i) :=
  inferInstanceAs (Decidable (_ ∨ _))

/-- The chunk that a firing timer goes back to starts in the part that was pushed. -/
def TimerReached : Option (RingIndexRange cap) → Prop
  | none => True
  | some range => h.action.sendingChunks.empty = false →
    h.action.sendingBuffer.begin_.distance range.left ≤ h.action.config.windowSize →
    Reached h range.left

instance (h : SendHistory cap) :
    (timer : Option (RingIndexRange cap)) → Decidable (TimerReached h timer)
  | none => inferInstanceAs (Decidable True)
  | some _ => inferInstanceAs (Decidable (_ → _ → _))

/-- The peer acknowledges a byte that was pushed and is not `last_sent_`, and nobody asks
for a repeat past the frontier. -/
def PeerHonest : SendOp cap → Prop
  | .acknowledge offset =>
    h.action.sendingBuffer.begin_.distance (.ofNat offset.toNat) ≤ h.action.sendingBuffer.size →
      h.Pushed (h.base + h.action.sendingBuffer.begin_.distance (.ofNat offset.toNat)) ∧
      .ofNat offset.toNat ≠ h.action.lastSent
  | .requestRepeat offset =>
    h.action.sendingBuffer.begin_.distance (.ofNat offset.toNat) ≤ h.action.sendingBuffer.size →
      Reached h (.ofNat offset.toNat)
  | .repeatTimeout => TimerReached h h.action.repeatTimer
  | .stop _ => False
  | _ => True

instance (h : SendHistory cap) : (op : SendOp cap) → Decidable (PeerHonest h op)
  | .acknowledge _ => inferInstanceAs (Decidable (_ → _ ∧ _ ≠ _))
  | .requestRepeat _ => inferInstanceAs (Decidable (_ → _))
  | .repeatTimeout => inferInstanceAs (Decidable (TimerReached h h.action.repeatTimer))
  | .stop _ => inferInstanceAs (Decidable False)
  | .sendData _ | .setMaxPayload _ | .sendTask | .writeStatus _ _ =>
    inferInstanceAs (Decidable True)

structure SentUpTo (h : SendHistory cap) (f : Nat) : Prop where
  go_le : h.base + h.action.onTheGoDataSize ≤ f
  le_end : f ≤ h.base + h.action.sendingBuffer.size
  pushed : ∀ p, h.base ≤ p → p < f → h.Pushed p
  lt_of_pushed : ∀ p, h.Pushed p → p < f

variable {h : SendHistory cap} {op : SendOp cap} {f : Nat}

omit [NeZero cap] in
theorem SentUpTo.reached {i : RingIndex cap} (inv : SentUpTo h f) (hi : Reached h i) :
    h.base + h.action.sendingBuffer.begin_.distance i ≤ f := by
  have hg := inv.go_le
  rcases hi with hz | hpushed
  · omega
  · have := inv.lt_of_pushed _ hpushed
    omega

variable {chunks : SendingChunkList cap}

section

variable (hi : SentUpTo h f)
include hi

theorem sentUpTo_moved {buffer : CircularBuffer cap} {target : RingIndex cap}
    (b : Becomes h.action (h.action.runOp op).1 buffer chunks target)
    (hq : (h.action.runOp op).2.filterMap h.pushOf = [])
    (hbg : buffer.begin_ = h.action.sendingBuffer.begin_)
    (hs : h.action.sendingBuffer.size ≤ buffer.size)
    (hg : h.base + h.action.sendingBuffer.begin_.distance target ≤ f) : SentUpTo (h.step op) f := by
  have hb : (h.step op).base = h.base :=
    step_base_of_same (by rw [b.sendingBuffer, hbg])
  have ho : (h.step op).action.onTheGoDataSize =
      h.action.sendingBuffer.begin_.distance target := by
    rw [← hbg]
    exact b.onTheGo
  have hbf : (h.step op).action.sendingBuffer = buffer := b.sendingBuffer
  have he := hi.le_end
  refine ⟨?_, ?_, ?_, ?_⟩
  · rw [hb, ho]
    exact hg
  · rw [hb, hbf]
    omega
  · intro p hp hl
    rw [hb] at hp
    exact (step_pushed_iff hq p).mpr (hi.pushed p hp hl)
  · intro p hp
    exact hi.lt_of_pushed p ((step_pushed_iff hq p).mp hp)

theorem sentUpTo_erased {to_ last : RingIndex cap}
    (b : Becomes h.action (h.action.runOp op).1 (h.action.sendingBuffer.erase to_) chunks last)
    (hq : (h.action.runOp op).2.filterMap h.pushOf = [])
    (hin : h.action.sendingBuffer.begin_.distance to_ ≤ h.action.sendingBuffer.size)
    (hg : h.base + h.action.sendingBuffer.begin_.distance to_ + to_.distance last ≤
      max f (h.base + h.action.sendingBuffer.begin_.distance to_)) :
    SentUpTo (h.step op) (max f (h.base + h.action.sendingBuffer.begin_.distance to_)) := by
  obtain ⟨hb, hbg, hs⟩ := step_base_of_erase b.sendingBuffer hin
  have ho : (h.step op).action.onTheGoDataSize = to_.distance last := by
    rw [onTheGoDataSize, hbg]
    exact congrArg to_.distance b.lastSent
  have he := hi.le_end
  refine ⟨?_, ?_, ?_, ?_⟩
  · rw [hb, ho]
    exact hg
  · rw [hb, hs]
    omega
  · intro p hp hl
    rw [hb] at hp
    exact (step_pushed_iff hq p).mpr (hi.pushed p (by omega) (by omega))
  · intro p hp
    have := hi.lt_of_pushed p ((step_pushed_iff hq p).mp hp)
    omega

theorem sentUpTo_sent {n : Nat} {o : List (SendOutput cap)}
    (b : Becomes h.action (h.action.runOp op).1 h.action.sendingBuffer chunks
      (h.action.lastSent.add n)) (hot : (h.action.runOp op).2 = o)
    (hph : o.filterMap h.pushOf = [(h.base + h.action.onTheGoDataSize, n)])
    (hf : h.action.onTheGoDataSize + n ≤ h.action.sendingBuffer.size) :
    SentUpTo (h.step op) (max f (h.base + h.action.onTheGoDataSize + n)) := by
  have hlt := size_lt h.action.sendingBuffer
  have hb : (h.step op).base = h.base :=
    step_base_of_same (by rw [b.sendingBuffer])
  have ho : (h.step op).action.onTheGoDataSize = h.action.onTheGoDataSize + n := by
    refine b.onTheGo.trans (distance_add_right ?_)
    unfold onTheGoDataSize at hf
    omega
  have hbf : (h.step op).action.sendingBuffer = h.action.sendingBuffer := b.sendingBuffer
  have hps : (h.step op).pushes =
      h.pushes ++ [(h.base + h.action.onTheGoDataSize, n)] := by
    rw [← hph, ← hot]
    rfl
  have hg := hi.go_le
  have he := hi.le_end
  refine ⟨?_, ?_, ?_, ?_⟩
  · rw [hb, ho]
    omega
  · rw [hb, hbf]
    omega
  · intro p hp hpf
    rw [hb] at hp
    by_cases hh : p < f
    · exact (hi.pushed p hp hh).mono
    · refine ⟨_, by rw [hps]; exact mem_append_right _ (mem_singleton_self _), ?_⟩
      omega
  · rintro p ⟨pu, hm, hl, hhi⟩
    rw [hps, mem_append, mem_singleton] at hm
    rcases hm with hh | rfl
    · have := hi.lt_of_pushed p ⟨pu, hh, hl, hhi⟩
      omega
    · simp only at hl hhi
      omega

theorem sentUpTo_retargeted {t : RingIndex cap}
    (hr : Retargets h.action t op) (ho : PeerHonest h op) :
    h.base + h.action.sendingBuffer.begin_.distance t ≤ f := by
  have hg := hi.go_le
  cases op with
  | requestRepeat o =>
    obtain ⟨rfl, hin⟩ := hr
    exact hi.reached (ho hin)
  | repeatTimeout =>
    obtain ⟨hc, r, ht, rfl⟩ := hr
    have hk : TimerReached h h.action.repeatTimer := ho
    rw [ht] at hk
    split_ifs with hb
    · rw [distance_self]
      omega
    · exact hi.reached (hk hc (by omega))
  | writeStatus k s =>
    obtain ⟨-, hl⟩ := hr
    omega
  | sendData data | acknowledge o | setMaxPayload n | sendTask | stop r =>
    exact absurd hr id

end

omit [NeZero cap] in
theorem acknowledged_go {confirm : RingIndex cap} (hi : SentUpTo h f)
    (hs : h.Pushed (h.base + h.action.sendingBuffer.begin_.distance confirm))
    (hn : confirm ≠ h.action.lastSent)
    (hnx : h.action.sendingBuffer.begin_.distance (confirm.add 1) =
      h.action.sendingBuffer.begin_.distance confirm + 1) :
    h.base + h.action.sendingBuffer.begin_.distance (confirm.add 1) +
      (confirm.add 1).distance
        (if h.action.onTheGoDataSize < h.action.sendingBuffer.begin_.distance confirm then
          confirm.add 1 else h.action.lastSent) ≤ f := by
  have hl := hi.lt_of_pushed _ hs
  have hg := hi.go_le
  have hd : h.action.onTheGoDataSize ≠ h.action.sendingBuffer.begin_.distance confirm := by
    intro hh
    exact hn (distance_inj.mp hh).symm
  split_ifs with hp
  · rw [distance_self]
    omega
  · unfold onTheGoDataSize at hg hd hp
    have hr := @distance_of_le cap h.action.sendingBuffer.begin_ (confirm.add 1)
      h.action.lastSent (by omega)
    omega

omit [NeZero cap] in
theorem reads_fit {n : Nat} (hi : SentUpTo h f) (hr : Reads h.action n) :
    h.action.onTheGoDataSize + n ≤ h.action.sendingBuffer.size := by
  have hg := hi.go_le
  have he := hi.le_end
  rcases hr with ⟨-, rfl⟩ | ⟨-, hl, rfl⟩
  · omega
  · omega

theorem sentUpTo_step (h : SendHistory cap) (op : SendOp cap)
    (hi : ∃ f, SentUpTo h f) (hon : PeerHonest h op) : ∃ f, SentUpTo (h.step op) f := by
  obtain ⟨f, hi⟩ := hi
  have hg := hi.go_le
  have he := hi.le_end
  have hl := size_lt h.action.sendingBuffer
  generalize ho : (h.action.runOp op).2 = outs
  have hot := h.action.runOp_outcome op
  rw [ho] at hot
  cases hot with
  | @stored data _ b =>
    obtain ⟨hb, hgr⟩ := h.action.sendingBuffer.push_bounds data
    exact ⟨f, sentUpTo_moved hi b (by rw [ho]; rfl) hb hgr hg⟩
  | ignored hin b => exact ⟨f, sentUpTo_moved hi b (by rw [ho]; rfl) rfl le_rfl hg⟩
  | retargeted hr b =>
    exact ⟨f, sentUpTo_moved hi b (by rw [ho]; rfl) rfl le_rfl (sentUpTo_retargeted hi hr hon)⟩
  | @acknowledged o _ confirm hconfirm inside b =>
    subst hconfirm
    obtain ⟨hs, hne⟩ := hon inside
    have hbf := hi.lt_of_pushed _ hs
    have hnx : h.action.sendingBuffer.begin_.distance ((ofNat o.toNat : RingIndex cap).add 1) =
        h.action.sendingBuffer.begin_.distance (.ofNat o.toNat) + 1 :=
      distance_add_right (by omega)
    have hpl := acknowledged_go hi hs hne hnx
    exact ⟨_, sentUpTo_erased hi b (by rw [ho]; rfl) (by omega) (le_trans hpl (le_max_left _ _))⟩
  | waiting hp hfl b =>
    exact ⟨f, sentUpTo_moved hi b (by rw [ho]; rfl) rfl le_rfl hg⟩
  | @sent _ n hp reads hn b =>
    have hf := reads_fit hi reads
    refine ⟨_, sentUpTo_sent hi b ho ?_ hf⟩
    simp [pushOf]
    unfold onTheGoDataSize at hf ⊢
    omega
  | @exhausted _ n hp reads more b =>
    have hf := reads_fit hi reads
    have hof : h.action.sendingBuffer.begin_.distance (h.action.lastSent.add n) =
        h.action.onTheGoDataSize + n := by
      unfold onTheGoDataSize at hf ⊢
      exact distance_add_right (by omega)
    have hb : (h.action.sendingBuffer.erase (h.action.lastSent.add n)).begin_ =
        h.action.lastSent.add n := by
      rw [erase_of_le (by omega)]
    refine ⟨_, sentUpTo_erased hi b (by rw [ho]; rfl) (by omega) ?_⟩
    rw [hb, distance_self, Nat.add_zero]
    exact le_max_right _ _
  | misplaced hp hps hsz hou b => exact absurd hou (by omega)
  | stopped hsl b => exact absurd hon id

theorem ackSafe_of_sentUpTo (h : SendHistory cap) (op : SendOp cap)
    (hi : ∃ f, SentUpTo h f) (hon : PeerHonest h op) : AcknowledgesSent h op := by
  obtain ⟨f, hi⟩ := hi
  cases op with
  | acknowledge o =>
    change AckSafe h o
    have ho := h.action.runOp_outcome (.acknowledge o)
    change Outcome _ _ (h.action.acknowledge o).1 (h.action.acknowledge o).2 at ho
    generalize houts : (h.action.acknowledge o).2 = outs at ho
    cases ho with
    | ignored hin b =>
      refine ⟨by simp [houts], ?_, fun _ => ?_⟩
      · rw [b.sendingBuffer, distance_self]
        exact fun k hk => absurd hk (Nat.not_lt_zero k)
      · exact ⟨by rw [b.sendingBuffer], by rw [b.sendingBuffer], b.lastSent, b.sendingChunks⟩
    | retargeted hr b => exact absurd hr id
    | @acknowledged _ _ confirm hconfirm inside b =>
      subst hconfirm
      obtain ⟨hs, -⟩ := hon inside
      have hbf := hi.lt_of_pushed _ hs
      have hc : ∀ k ≤ h.action.sendingBuffer.begin_.distance (.ofNat o.toNat),
          h.Pushed (h.base + k) := by
        intro k hk
        exact hi.pushed _ (Nat.le_add_right _ _) (by omega)
      refine ⟨?_, ?_, fun hh => ?_⟩
      · intro b e hm
        rw [houts, mem_singleton] at hm
        obtain ⟨rfl, rfl⟩ := SendOutput.acknowledged.inj hm
        exact ⟨rfl, hc⟩
      · intro k hk
        have he := hi.le_end
        obtain ⟨hn, hb, -⟩ := @CircularBuffer.erase_through cap h.action.sendingBuffer
          (.ofNat o.toNat) (by omega)
        rw [b.sendingBuffer, hb, hn] at hk
        exact hc k (by omega)
      · rw [houts] at hh
        cases hh
  | sendData data | requestRepeat o | setMaxPayload n | sendTask | repeatTimeout
  | writeStatus k s | stop r => trivial

/-- In every run in which the peer is honest about what it was sent, an acknowledgement
reports and erases only bytes that were pushed, or leaves the positions as they are. -/
theorem acknowledges_only_pushed (config : SafeStreamConfig cap) (randomOffset : Nat)
    (memory : RingIndex cap → UInt8) (ops : List (SendOp cap))
    (honest : Along step PeerHonest (.init config randomOffset memory) ops) :
    Along step AcknowledgesSent (.init config randomOffset memory) ops := by
  have hs : SentUpTo (.init config randomOffset memory : SendHistory cap) 0 := by
    refine ⟨?_, Nat.zero_le _, fun p _ hp => absurd hp (Nat.not_lt_zero p), ?_⟩
    · simp [init, SafeStreamSendAction.init, onTheGoDataSize]
    · rintro p ⟨pu, hm, -⟩
      exact absurd hm (by simp [init])
  exact Along.of_invariant sentUpTo_step ackSafe_of_sentUpTo ⟨0, hs⟩ honest

theorem acknowledges_only_pushed_repeat :
    Along step AcknowledgesSent (.init smallConfig 6 (fun _ => 0))
      [.setMaxPayload 2, .sendData [1, 2, 3, 4], .sendTask, .acknowledge 7, .sendTask,
        .requestRepeat 0, .acknowledge 1] :=
  acknowledges_only_pushed smallConfig 6 (fun _ => 0) _ (by decide)

/-- Nothing was sent yet, but an old acknowledgement that names the second byte erases the
first two; and the index one past the last byte is reported as acknowledged. -/
theorem unsent_bytes_are_acknowledged :
    ¬ Along step AcknowledgesSent (.init smallConfig 0 (fun _ => 0))
      [.sendData [1, 2, 3], .acknowledge 1] ∧
    ¬ Along step AcknowledgesSent (.init smallConfig 0 (fun _ => 0))
      [.setMaxPayload 2, .sendData [1], .sendTask, .acknowledge 1] := by
  constructor
  · rintro ⟨-, hs, -⟩
    have hp := hs.erased 0 (by decide)
    exact absurd hp (by decide)
  · rintro ⟨-, -, -, hs, -⟩
    have hp := (hs.reported (.ofNat 0) (.ofNat 1) (by decide)).2 1 (by decide)
    exact absurd hp (by decide)

end Ae.SafeStream.SentFrontier
