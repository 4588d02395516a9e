/- source: safe_stream/details/safe_stream_recv_action.h
   digest: The receive task emits the whole run from the begin, unless the run is a single byte. -/

import Ae.SafeStream.ReceivedRanges
import Ae.SafeStream.RecvSoundness

/-!
The set of received positions is recorded beside the action, from the messages alone. The
invariant `Agrees` says that the chunk list covers exactly these positions; it rests on
`Backed` for the stored bytes and on `Recorded` for the list.
-/

set_option autoImplicit false

namespace Ae.SafeStream.MaximalEmission
open List Types.Ring Lib.EventRun Lib.IntervalChain Circular Message
open ReceivingChunks ReceivedRanges RecvAction
open RecvSoundness SafeStreamRecvAction RingIndex ReceiveChunkList Option

variable {cap : Nat}

/-- The action, and for each ring position the bytes received there that the buffer begin
has not passed. -/
structure ReceivedHistory (cap : Nat) where
  action : SafeStreamRecvAction cap
  received : RingIndex cap → List UInt8

/-- A message that ends outside the window is ignored; of any other the bytes inside the
window are received. -/
def accept (s : SafeStreamRecvAction cap) (received : RingIndex cap → List UInt8)
    (left : RingIndex cap) (data : List UInt8) : RingIndex cap → List UInt8 :=
  if s.buffer.begin_.distance (rightOf left data) > s.config.windowSize then
    received
  else fun q =>
    if s.buffer.begin_.distance q ≤ s.config.windowSize then carry received left data q
    else received q

def passed (before after : RingIndex cap) (received : RingIndex cap → List UInt8) :
    RingIndex cap → List UInt8 :=
  fun q => if before.distance q < before.distance after then [] else received q

namespace ReceivedHistory

def init [NeZero cap] (config : SafeStreamConfig cap) (memory : RingIndex cap → UInt8) :
    ReceivedHistory cap :=
  ⟨.init config memory, fun _ => []⟩

/-- What `HandleData` finds recorded: nothing when the message starts a session. -/
def kept [NeZero cap] (h : ReceivedHistory cap) (index : UInt16) (message : DataMessage) :
    RingIndex cap → List UInt8 :=
  if h.action.resets index message then fun _ => [] else h.received

def step [NeZero cap] (h : ReceivedHistory cap) : RecvOp → ReceivedHistory cap
  | .pushData index message =>
    match h.action.pushData index message with
    | none => h
    | some action =>
      ⟨action, accept (h.action.synced index message) (h.kept index message)
        (receivedIndex index message) message.data⟩
  | op =>
    ⟨(h.action.runTask op).1, passed h.action.buffer.begin_
      (h.action.runTask op).1.buffer.begin_ h.received⟩

def ReceivedAt (h : ReceivedHistory cap) (k : Nat) : Prop :=
  k ≤ h.action.config.windowSize ∧ h.received (h.action.buffer.begin_.add k) ≠ []

instance (h : ReceivedHistory cap) (k : Nat) : Decidable (h.ReceivedAt k) :=
  inferInstanceAs (Decidable (_ ∧ _))

/-- Running `HandleCompletedChains` now emits the received bytes from the begin up to the
first position that was not received, and the begin moves to that position. -/
def EmitsRun (h : ReceivedHistory cap) : Prop :=
  ∃ n, (∀ k < n, h.ReceivedAt k) ∧ ¬ h.ReceivedAt n ∧
    h.action.handleCompletedChains.1.buffer.begin_ = h.action.buffer.begin_.add n ∧
    (n = 0 → h.action.handleCompletedChains.2 = []) ∧
    (0 < n → ∃ bytes, h.action.handleCompletedChains.2 = [.receive bytes] ∧ bytes.length = n ∧
      ∀ k v, bytes[k]? = some v → v ∈ h.received (h.action.buffer.begin_.add k))

def OneByteRun (h : ReceivedHistory cap) : Prop := h.ReceivedAt 0 ∧ ¬ h.ReceivedAt 1

instance (h : ReceivedHistory cap) : Decidable h.OneByteRun :=
  inferInstanceAs (Decidable (_ ∧ _))

end ReceivedHistory

open ReceivedHistory

/-- A chunk with data, and short enough that its range in the window is not flipped: a
chunk inside the window has at most `window + 1` bytes. -/
def ChunkInWindow (s : SafeStreamRecvAction cap) (left : RingIndex cap) (data : List UInt8) :
    Prop :=
  data ≠ [] ∧ (s.buffer.begin_.distance (rightOf left data) ≤ s.config.windowSize →
      data.length + s.config.windowSize ≤ cap)

instance (s : SafeStreamRecvAction cap) (left : RingIndex cap) (data : List UInt8) :
    Decidable (ChunkInWindow s left data) := inferInstanceAs (Decidable (_ ∧ _))

def MessageInWindow [NeZero cap] (h : ReceivedHistory cap) : RecvOp → Prop
  | .pushData index message => ChunkInWindow (h.action.synced index message)
      (receivedIndex index message) message.data
  | _ => True

instance [NeZero cap] (h : ReceivedHistory cap) :
    (op : RecvOp) → Decidable (MessageInWindow h op)
  | .pushData index message => inferInstanceAs (Decidable (ChunkInWindow
      (h.action.synced index message)
      (receivedIndex index message) message.data))
  | .recvTask | .ackTask | .missingTask => inferInstanceAs (Decidable True)

variable {s : SafeStreamRecvAction cap} {data : List UInt8} {left : RingIndex cap}

theorem ChunkInWindow.sound (h : ChunkInWindow s left data) : Sound s left data :=
  ⟨fun hb => h.1 hb.1, fun ha => by have := h.2 ha; omega⟩

theorem add_eq_add_iff (b left : RingIndex cap) (i : Nat) {k : Nat} (hk : k < cap) :
    left.add i = b.add k ↔ (b.distance left + i) % cap = k := by
  rw [← add_distance b left, add_add, ← distance_inj (a := b),
    distance_add, distance_add_of_lt hk, add_distance]

theorem clip_left {left l' : RingIndex cap} {data sp : List UInt8}
    (hc : s.clip left data = some (l', sp)) :
    l' = if s.buffer.begin_.distance left > s.config.windowSize then s.buffer.begin_
      else left := by
  rw [clip] at hc
  by_cases behind : s.buffer.begin_.distance left > s.config.windowSize
  · rw [if_pos behind] at hc ⊢
    obtain ⟨_, _, he⟩ := map_eq_some_iff.mp hc
    exact (congrArg Prod.fst he).symm
  · rw [if_neg behind] at hc ⊢
    exact (congrArg Prod.fst (some.inj hc)).symm

theorem clip_exact {left l' : RingIndex cap} {data sp : List UInt8}
    (hf : ChunkInWindow s left data) (ha : s.buffer.begin_.distance (rightOf left data) ≤
      s.config.windowSize) (hc : s.clip left data = some (l', sp)) :
    s.buffer.begin_.distance l' ≤
        s.buffer.begin_.distance (rightOf left data) ∧
      ∀ k ≤ s.config.windowSize,
        (s.buffer.begin_.distance l' ≤ k ∧
          k ≤ s.buffer.begin_.distance (rightOf left data)) ↔
        ∃ i < data.length, left.add i = s.buffer.begin_.add k := by
  have hw := s.config.two_windows
  have len := hf.2 ha
  have pos : 0 < data.length := length_pos_of_ne_nil hf.1
  have hl := distance_lt s.buffer.begin_ left
  have hr := right_offset s.buffer.begin_ left data (by omega)
  rw [if_neg (by omega)] at hr
  have hb := clip_left hc
  by_cases behind : s.buffer.begin_.distance left > s.config.windowSize
  · have hp : ¬ s.buffer.begin_.distance left + data.length ≤ cap := by
      intro hs
      rw [if_pos hs] at hr
      omega
    rw [if_neg hp] at hr
    rw [hb, if_pos behind, distance_self]
    refine ⟨Nat.zero_le _, fun k hk => ?_⟩
    constructor
    · rintro ⟨-, hin⟩
      refine ⟨cap - s.buffer.begin_.distance left + k, by omega,
        (add_eq_add_iff _ _ _ (by omega)).mpr ?_⟩
      rw [show s.buffer.begin_.distance left + (cap - s.buffer.begin_.distance left + k) =
        k + cap by omega, Nat.add_mod_right, Nat.mod_eq_of_lt (by omega)]
    · rintro ⟨i, hi, he⟩
      have ho := (add_eq_add_iff _ _ _ (by omega)).mp he
      rcases Nat.lt_or_ge (s.buffer.begin_.distance left + i) cap with her | late
      · rw [Nat.mod_eq_of_lt her] at ho
        omega
      · rw [Nat.mod_eq_sub_mod late, Nat.mod_eq_of_lt (by omega)] at ho
        omega
  · rw [if_pos (by omega)] at hr
    rw [hb, if_neg behind]
    refine ⟨by omega, fun k hk => ?_⟩
    constructor
    · rintro ⟨hst, hin⟩
      refine ⟨k - s.buffer.begin_.distance left, by omega, (add_eq_add_iff _ _ _ (by omega)).mpr ?_⟩
      rw [Nat.mod_eq_of_lt (by omega)]
      omega
    · rintro ⟨i, hi, he⟩
      have ho := (add_eq_add_iff _ _ _ (by omega)).mp he
      rw [Nat.mod_eq_of_lt (by omega)] at ho
      omega

variable {l : ReceiveChunkList cap}

theorem handleData_chunks {s s' : SafeStreamRecvAction cap} {rc : UInt8}
    (hl : s.chunks = some l) (hh : s.handleData left rc data = some s') :
    (s.config.windowSize < s.buffer.begin_.distance (rightOf left data) ∧
      s'.chunks = some l) ∨
    (s.buffer.begin_.distance (rightOf left data) ≤ s.config.windowSize ∧
      ∃ lf' sp, s.clip left data = some (lf', sp) ∧
        s'.chunks = some (l.addChunk ⟨lf', rightOf left data⟩ rc).2) := by
  simp only [handleData] at hh
  by_cases old : s.buffer.begin_.distance (rightOf left data) >
      s.config.windowSize
  · rw [if_pos old] at hh
    obtain rfl := some.inj hh
    exact .inl ⟨old, by simp [hl]⟩
  · rw [if_neg old, hl] at hh
    refine .inr ⟨Nat.not_lt.mp old, ?_⟩
    cases hclip : s.clip left data with
    | none => simp [hclip] at hh
    | some cut =>
      obtain ⟨lf', sp⟩ := cut
      refine ⟨lf', sp, rfl, ?_⟩
      simp only [hclip] at hh
      generalize l.addChunk ⟨lf', rightOf left data⟩ rc = res
        at hh ⊢
      obtain ⟨r, l'⟩ := res
      cases r with
      | kDuplicate =>
        obtain rfl := some.inj hh
        rfl
      | kAddRepeated | kInvalid | kAdded =>
        obtain rfl := some.inj hh
        simp

structure Agrees (h : ReceivedHistory cap) (l : ReceiveChunkList cap) : Prop where
  chunks : h.action.chunks = some l
  backed : Backed h.action.config.windowSize h.action.buffer l
    (fun k v => v ∈ h.received (h.action.buffer.begin_.add k))
  recorded : Recorded l
  proper : ∀ r ∈ l.ranges,
    h.action.buffer.begin_.distance r.left ≤ h.action.buffer.begin_.distance r.right
  received : ∀ k < cap, h.received (h.action.buffer.begin_.add k) ≠ [] ↔
    Covered h.action.buffer.begin_ l.ranges k

def Consistent (h : ReceivedHistory cap) : Prop :=
  (h.action.chunks = none ∧ ∀ q, h.received q = []) ∨ ∃ l, Agrees h l

theorem agrees_fresh [NeZero cap] (s : SafeStreamRecvAction cap) (i : UInt16) :
    Agrees ⟨s.startSession i, fun _ => []⟩ (.ofBegin (s.buffer.reset i.toNat).begin_) where
  chunks := rfl
  backed := backed_ofBegin _ _ _
  recorded := ⟨Pairwise.nil, by simp [ofBegin], by simp [ofBegin]⟩
  proper := by simp [ofBegin]
  received := by simp [ofBegin, Covered]

variable {h : ReceivedHistory cap}

theorem Consistent.synced [NeZero cap] (hi : Consistent h) (i : UInt16) (m : DataMessage) :
    ∃ l, Agrees ⟨h.action.synced i m, h.kept i m⟩ l := by
  cases hr : h.action.resets i m with
  | true =>
    simp only [SafeStreamRecvAction.synced, kept, hr, if_true]
    exact ⟨_, agrees_fresh h.action i⟩
  | false =>
    simp only [SafeStreamRecvAction.synced, kept, hr, Bool.false_eq_true, if_false]
    rcases hi with ⟨hn, -⟩ | agrees
    · simp [SafeStreamRecvAction.resets, hn] at hr
    · exact agrees

variable {received : RingIndex cap → List UInt8}

theorem carry_ne_nil {left q : RingIndex cap} :
    carry received left data q ≠ [] ↔ received q ≠ [] ∨ ∃ i < data.length, left.add i = q := by
  constructor
  · intro hc
    obtain ⟨v, hv⟩ := exists_mem_of_ne_nil _ hc
    rcases mem_carry.mp hv with ho | ⟨i, he, hi⟩
    · exact .inl (ne_nil_of_mem ho)
    · exact .inr ⟨i, (List.getElem?_eq_some_iff.mp hi).1, he⟩
  · rintro (ho | ⟨i, hi, he⟩)
    · obtain ⟨v, hv⟩ := exists_mem_of_ne_nil _ ho
      exact ne_nil_of_mem (mem_carry.mpr (.inl hv))
    · exact ne_nil_of_mem
        (mem_carry.mpr (.inr ⟨i, he, getElem?_eq_getElem hi⟩))

theorem accept_ne_nil (ha : s.buffer.begin_.distance (rightOf left data) ≤
      s.config.windowSize) {k : Nat} (hk : k < cap) :
    accept s received left data (s.buffer.begin_.add k) ≠ [] ↔
      received (s.buffer.begin_.add k) ≠ [] ∨
        k ≤ s.config.windowSize ∧ ∃ i < data.length, left.add i = s.buffer.begin_.add k := by
  unfold accept
  simp only [Nat.not_lt.mpr ha, if_false, distance_add_of_lt hk]
  by_cases inside : k ≤ s.config.windowSize
  · rw [if_pos inside, carry_ne_nil, and_iff_right inside]
  · rw [if_neg inside, or_iff_left fun hn => inside hn.1]

theorem Agrees.handleData (ha : Agrees ⟨s, received⟩ l) (rc : UInt8)
    (hf : ChunkInWindow s left data) :
    ∃ s' l', s.handleData left rc data = some s' ∧
      Agrees ⟨s', accept s received left data⟩ l' := by
  have hw := s.config.two_windows
  have hn : ∀ k ≤ s.config.windowSize,
      s.buffer.begin_.distance (s.buffer.begin_.add k) = k :=
    fun k hk => distance_add_of_lt (by omega)
  -- bytes already received stay received, and the bytes of the chunk are received
  have hl : Live s (fun k v =>
      v ∈ accept s received left data (s.buffer.begin_.add k)) := by
    refine ⟨l, ha.chunks, ha.backed.mono ?_⟩
    intro k v hk hv
    unfold accept
    split_ifs with old
    · exact hv
    · simp only [hn k hk, hk, if_true]
      exact mem_carry.mpr (.inl hv)
  obtain ⟨s', hh, hp, l', hc, hb⟩ :=
    handleData_live rc hl hf.sound (by
      intro hac i v k hi hk he
      unfold accept
      simp only [Nat.not_lt.mpr hac, if_false, hn k hk, hk, if_true]
      exact mem_carry.mpr (.inr ⟨i, he, hi⟩))
  rcases handleData_chunks ha.chunks hh with
    ⟨ignored, he⟩ | ⟨hac, lf', span, hclip, he⟩
  · obtain rfl := some.inj (he.symm.trans hc)
    refine ⟨s', l, hh, hc, ?_, ha.recorded, ?_, ?_⟩
    · simp only [hp.begin_]
      exact hb
    · simp only [hp.begin_]
      exact ha.proper
    · simp only [hp.begin_, accept, if_pos ignored]
      exact ha.received
  · obtain rfl := some.inj (he.symm.trans hc)
    obtain ⟨hrc, -, hm⟩ := ha.recorded.addChunk
      ⟨lf', rightOf left data⟩ rc
    obtain ⟨ho, hex⟩ := clip_exact hf hac hclip
    refine ⟨s', _, hh, hc, ?_, hrc, ?_, ?_⟩
    · simp only [hp.begin_]
      exact hb
    · simp only [hp.begin_]
      intro r hr
      rcases (hm r).mp hr with rfl | old
      · exact ho
      · exact ha.proper r old
    · intro k hk
      have had : Covered s.buffer.begin_
          (l.addChunk ⟨lf', rightOf left data⟩ rc).2.ranges k ↔
          (s.buffer.begin_.distance lf' ≤ k ∧
            k ≤ s.buffer.begin_.distance (rightOf left data)) ∨
          Covered s.buffer.begin_ l.ranges k := by
        unfold Covered
        simp only [hm, or_and_right, exists_or, exists_eq_left]
      simp only [hp.begin_]
      rw [had, ← ha.received k hk, accept_ne_nil hac hk, or_comm]
      refine or_congr_left ⟨fun ⟨hin, has⟩ => (hex k hin).mpr has, fun hrn => ?_⟩
      have hin := hrn.2.trans hac
      exact ⟨hin, (hex k hin).mp hrn⟩

theorem Consistent.pushData [NeZero cap] (hi : Consistent h) {i : UInt16}
    {m : DataMessage} (hf : MessageInWindow h (.pushData i m)) :
    Consistent (h.step (.pushData i m)) := by
  obtain ⟨l, ha⟩ := hi.synced i m
  obtain ⟨s', l', hh, ha'⟩ := ha.handleData m.repeatCount hf
  have hp : h.action.pushData i m = some s' := hh
  simp only [step, hp]
  exact .inr ⟨l', ha'⟩

theorem Agrees.inWindow (ha : Agrees h l) : ∀ r ∈ l.ranges, InWindow l.bufferBegin r := by
  intro r hr
  have hw := h.action.config.two_windows
  have hrg := ha.backed.right_le r hr
  rw [ha.backed.same_begin]
  exact ⟨ha.proper r hr, by omega⟩

theorem Agrees.receivedAt (ha : Agrees h l) (k : Nat) :
    h.ReceivedAt k ↔ Covered h.action.buffer.begin_ l.ranges k := by
  have hw := h.action.config.two_windows
  constructor
  · rintro ⟨hi, received⟩
    exact (ha.received k (by omega)).mp received
  · rintro ⟨r, hr, left, hrg⟩
    have hb := ha.backed.right_le r hr
    exact ⟨by omega, (ha.received k (by omega)).mpr ⟨r, hr, left, hrg⟩⟩

theorem Agrees.runEnd (ha : Agrees h l) :
    l.receiveChunk.left = h.action.buffer.begin_ ∧
      RunEnd h.ReceivedAt (h.action.buffer.begin_.distance l.receiveChunk.right) := by
  obtain ⟨left, hr⟩ := receiveChunk_run ha.recorded.sorted ha.inWindow
  rw [ha.backed.same_begin] at left hr
  exact ⟨left, hr.congr (fun k => (ha.receivedAt k).symm)⟩

theorem passed_same (b : RingIndex cap) (received : RingIndex cap → List UInt8) :
    passed b b received = received := by
  funext q
  simp [passed]

theorem passed_ahead {b : RingIndex cap} {n k : Nat} (received : RingIndex cap → List UInt8)
    (ha : n + k < cap) :
    passed b (b.add n) received (b.add (n + k)) = received (b.add (n + k)) := by
  unfold passed
  rw [distance_add_of_lt ha, distance_add_of_lt (by omega), if_neg (by omega)]

theorem passed_behind {b : RingIndex cap} {n k : Nat} (received : RingIndex cap → List UInt8)
    (hn : n < cap) (hk : k < cap) (hb : cap ≤ n + k) :
    passed b (b.add n) received (b.add (n + k)) = [] := by
  unfold passed
  rw [distance_add, distance_add_of_lt hn, Nat.mod_eq_sub_mod hb,
    Nat.mod_eq_of_lt (by omega), if_pos (by omega)]

theorem Consistent.quiet {s' : SafeStreamRecvAction cap} (hi : Consistent h)
    (hq : Quiet h.action s') :
    Consistent ⟨s', passed h.action.buffer.begin_ s'.buffer.begin_ h.received⟩ := by
  rw [hq.position.begin_, passed_same]
  rcases hi with ⟨hnn, hn⟩ | ⟨l, ha⟩
  · exact .inl ⟨hq.chunks.trans hnn, hn⟩
  · refine .inr ⟨l, hq.chunks.trans ha.chunks, ?_, ha.recorded, ?_, ?_⟩
    · simp only [hq.buffer, hq.position.config]
      exact ha.backed
    · simp only [hq.buffer]
      exact ha.proper
    · simp only [hq.buffer]
      exact ha.received

theorem Agrees.emits (ha : Agrees h l) (hsc : ¬ l.empty) (hm : ¬ l.receiveChunk.isEmpty) :
    h.EmitsRun ∧ ¬ h.OneByteRun ∧
      ∃ l', Agrees ⟨h.action.handleCompletedChains.1, passed h.action.buffer.begin_
        h.action.handleCompletedChains.1.buffer.begin_ h.received⟩ l' := by
  have hw := h.action.config.two_windows
  obtain ⟨hlf, run⟩ := ha.runEnd
  obtain ⟨ho, hc, hh⟩ :=
    handleCompletedChains_emits ha.chunks ha.backed hsc hm
  have hn := hh.le_window
  have ht := hh.two_le
  have hz : h.ReceivedAt 0 := by
    by_contra uncovered
    have := run.uncovered uncovered
    omega
  refine ⟨⟨_, fun k hk => run.run hz k (by omega), run.maximal hz, hh.begin_, by omega, ?_⟩,
    fun hs => hs.2 (run.run hz 1 (by omega)), ?_⟩
  · refine fun _ => ⟨_, ho, by simp, ?_⟩
    intro k v hv
    obtain ⟨hl, rfl⟩ := List.getElem?_eq_some_iff.mp hv
    simp only [length_map, length_range] at hl
    simpa using hh.bytes k hl
  · obtain ⟨l', hc', hb'⟩ := hh.live
    obtain rfl := some.inj (hc.symm.trans hc')
    have htb : l.receiveChunk.right.add 1 =
        h.action.handleCompletedChains.1.buffer.begin_ := by
      rw [hh.begin_, ← add_add, add_distance]
    refine ⟨_, hc, ?_, ha.recorded.acknowledge ha.inWindow, ?_, ?_⟩
    · refine hb'.mono ?_
      intro k v hk hv
      rw [hh.config] at hk
      simp only [hh.begin_, add_add]
      rw [passed_ahead _ (by omega), add_comm _ k]
      exact hv
    · intro r' hr'
      change r' ∈ (l.acknowledge l.receiveChunk.right).ranges at hr'
      rw [acknowledge_ranges] at hr'
      obtain ⟨r, hr, hf⟩ := mem_filterMap.mp hr'
      obtain ⟨-, left, hrg⟩ := acknowledged_some hf
      have hp := (ha.inWindow r hr).proper
      simp only [← htb]
      omega
    · intro k hk
      have hcv := acknowledge_covered l l.receiveChunk.right k
      rw [ha.backed.same_begin] at hcv
      change _ ↔ Covered h.action.handleCompletedChains.1.buffer.begin_
        (l.acknowledge l.receiveChunk.right).ranges k
      rw [← htb, hcv, htb, hh.begin_, add_add]
      dsimp only
      rcases lt_or_ge (h.action.buffer.begin_.distance l.receiveChunk.right + 1 + k) cap with
        ahead | behind
      · rw [passed_ahead _ ahead]
        exact ha.received _ ahead
      · rw [passed_behind _ (by omega) hk behind]
        refine ⟨fun hnn => absurd rfl hnn, ?_⟩
        rintro ⟨r, -, -, hrg⟩
        have := distance_lt h.action.buffer.begin_ r.right
        omega

theorem emitsRun_of_silent (hs : h.action.handleCompletedChains.2 = [])
    (hsm : h.action.handleCompletedChains.1.buffer.begin_ = h.action.buffer.begin_) :
    h.EmitsRun ↔ ¬ h.ReceivedAt 0 := by
  constructor
  · rintro ⟨n, hb, ha, -, -, he⟩
    rcases Nat.eq_zero_or_pos n with rfl | pos
    · exact ha
    · obtain ⟨bs, ho, -⟩ := he pos
      rw [hs] at ho
      cases ho
  · intro hm
    exact ⟨0, by omega, hm, by rw [hsm, add_zero], fun _ => hs, by omega⟩

theorem Consistent.completed (hi : Consistent h) :
    (h.EmitsRun ↔ ¬ h.OneByteRun) ∧
      Consistent ⟨h.action.handleCompletedChains.1, passed h.action.buffer.begin_
        h.action.handleCompletedChains.1.buffer.begin_ h.received⟩ := by
  -- without an emission the property says that nothing waits at the begin
  have hq : Quiet h.action h.action.handleCompletedChains.1 →
      h.action.handleCompletedChains.2 = [] → (h.ReceivedAt 0 → ¬ h.ReceivedAt 1) →
      (h.EmitsRun ↔ ¬ h.OneByteRun) ∧
        Consistent ⟨h.action.handleCompletedChains.1, passed h.action.buffer.begin_
          h.action.handleCompletedChains.1.buffer.begin_ h.received⟩ := by
    intro hqt hsl hsh
    refine ⟨?_, hi.quiet hqt⟩
    rw [emitsRun_of_silent hsl hqt.position.begin_]
    exact not_congr ⟨fun hz => ⟨hz, hsh hz⟩, fun hsn => hsn.1⟩
  rcases hi with ⟨hnn, hnt⟩ | ⟨l, ha⟩
  · have run : h.action.handleCompletedChains = (h.action, []) := by
      simp only [handleCompletedChains, hnn]
    rw [run] at hq
    rw [run]
    exact hq (.refl _) rfl (fun hz => absurd (hnt _) hz.2)
  by_cases empty : l.empty
  · have run : h.action.handleCompletedChains = (h.action, []) := by
      simp only [handleCompletedChains, ha.chunks, if_pos empty]
    rw [run] at hq
    rw [run]
    refine hq (.refl _) rfl (fun hz => ?_)
    obtain ⟨r, hr, -⟩ := (ha.receivedAt 0).mp hz
    obtain ⟨node, hn, -⟩ := ha.recorded.lefts r hr
    rw [isEmpty_iff.mp empty] at hn
    cases hn
  by_cases hsn : l.receiveChunk.isEmpty
  · have run : h.action.handleCompletedChains = (h.action.enqueueMissing, []) := by
      simp only [handleCompletedChains, ha.chunks, if_neg empty, if_pos hsn]
    obtain ⟨hc, hb, hch, hs, he⟩ := enqueueMissing_fields h.action
    rw [run] at hq
    rw [run]
    refine hq ⟨⟨hc, by rw [hb], hs, he⟩, hb, hch⟩ rfl ?_
    obtain ⟨left, hen⟩ := ha.runEnd
    have hrg : l.receiveChunk.right = h.action.buffer.begin_ := by
      rw [← left]
      exact (beq_iff_eq.mp hsn).symm
    rw [hrg, distance_self] at hen
    exact hen.maximal
  · obtain ⟨hh, hl, ha'⟩ := ha.emits empty hsn
    exact ⟨⟨fun _ => hl, fun _ => hh⟩, .inr ha'⟩

theorem Consistent.step [NeZero cap] (h : ReceivedHistory cap) (op : RecvOp)
    (hi : Consistent h) (hf : MessageInWindow h op) : Consistent (h.step op) := by
  cases op with
  | pushData i m => exact hi.pushData hf
  | recvTask =>
    have hr : Consistent ⟨{ h.action with recvEnqueued := false }, h.received⟩ := by
      rcases hi with hn | ⟨l, ha⟩
      · exact .inl hn
      · exact .inr ⟨l, ha.chunks, ha.backed, ha.recorded, ha.proper, ha.received⟩
    exact hr.completed.2
  | ackTask | missingTask => exact hi.quiet (runTask_quiet h.action (by simp)).2

/-- In every state reached by chunks with data that fit the window, the receive task emits
exactly the run from the begin, unless that run is a single byte. -/
theorem handleCompletedChains_maximal_iff [NeZero cap] (config : SafeStreamConfig cap)
    (memory : RingIndex cap → UInt8) (ops : List RecvOp)
    (fits : Along step MessageInWindow (.init config memory) ops) :
    (run step (.init config memory) ops).EmitsRun ↔
      ¬ (run step (.init config memory) ops).OneByteRun := by
  have hs : Consistent (init config memory) := .inl ⟨rfl, fun _ => rfl⟩
  exact (Consistent.completed (run_of_invariant Consistent.step hs fits)).1

theorem handleCompletedChains_maximal_overlap :
    (run step (.init smallConfig (fun _ => 0))
      [.pushData 6 ⟨true, 0, 1, [2, 3]⟩, .pushData 6 ⟨true, 0, 0, [1, 2]⟩]).EmitsRun :=
  (handleCompletedChains_maximal_iff smallConfig (fun _ => 0) _ (by decide)).mpr (by decide)

/-- One byte arrives at the begin: it is received and nothing is emitted. -/
theorem single_byte_not_emitted :
    let h := run step (.init smallConfig (fun _ => 0)) [.pushData 0 ⟨true, 0, 0, [7]⟩]
    Along step MessageInWindow (.init smallConfig (fun _ => 0)) [.pushData 0 ⟨true, 0, 0, [7]⟩] ∧
      h.ReceivedAt 0 ∧ ¬ h.ReceivedAt 1 ∧ h.action.handleCompletedChains.2 = [] ∧
      h.action.handleCompletedChains.1.buffer.begin_ = h.action.buffer.begin_ := by
  decide

end Ae.SafeStream.MaximalEmission
