/- source: cloud_connections/{cloud_server_connections,cloud_server_connection}.cpp
   digest: A quarantine has one release timer as long as no error is reported twice for it and
     the scheduler takes the timer. -/

import Ae.CloudConnections.Ranking

set_option autoImplicit false

namespace Ae.CloudConnections.Quarantine
open List Lib.EventRun Selecting CloudServerConnections Ranking

variable {n : Nat} (sorting : Sorting (Fin n)) (s : CloudServerConnections n)

def OneTimer : Prop :=
  ∀ i, (s.servers i).quarantined = true ↔ s.timers.count i = 1

/-- The servers whose connection `InitServers` begins anew. -/
def begun : List (Fin n) :=
  let candidates := s.serverCandidates sorting
  let count := min candidates.length s.maxConnections
  if count ≤ s.selected.length then []
  else (candidates.take count).filter fun server => !(s.servers server).isConnection

/-- The scheduler takes the timer of every new connection that fails at once. -/
def Accepted (turn : Turn n) : Prop :=
  ∀ server ∈ begun sorting s, turn.refused server = true → turn.delayed server = true

/-- The event reports a failure of the server to the handler of its state. -/
def Fails (i : Fin n) : Event n → Prop
  | .streamUpdate server linkError _ =>
    server = i ∧ (s.servers i).subscribed = true ∧ linkError = true
  | .release _ _ => False
  | .task turn => s.deferred = true ∧ i ∈ begun sorting s ∧ turn.refused i = true

/-- A failure finds no timer of an earlier failure pending. -/
def NoOlderTimer (e : Event n) : Prop :=
  ∀ i, Fails sorting s i e → i ∉ s.timers

/-- A failure is reported only for a server that is not in quarantine, and the scheduler takes
its timer. -/
def FirstNotice (e : Event n) : Prop :=
  ∀ i, Fails sorting s i e → (s.servers i).quarantined = false ∧ e.turn.delayed i = true

def Timed : Prop :=
  ∀ i, s.timers.count i = if (s.servers i).quarantined then 1 else 0

variable {sorting s} {turn : Turn n}

theorem Timed.oneTimer (ht : Timed s) : OneTimer s := by
  intro i
  rw [ht i]
  cases (s.servers i).quarantined with
  | true | false => simp

theorem Timed.mem_iff (ht : Timed s) (i : Fin n) :
    i ∈ s.timers ↔ (s.servers i).quarantined = true := by
  rw [← count_pos_iff, ht i]
  cases (s.servers i).quarantined with
  | true | false => simp

variable (s turn) in
theorem count_badServer (server i : Fin n) :
    (s.badServer turn server).timers.count i =
      s.timers.count i + if i = server ∧ turn.delayed i = true then 1 else 0 := by
  change (if turn.delayed server then s.timers ++ [server] else s.timers).count i = _
  by_cases same : i = server
  · subst same
    cases turn.delayed i with
    | true => simp
    | false => simp
  · split
    · simp [same, Ne.symm same]
    · simp [same]

theorem Timed.badServer (ht : Timed s) {server : Fin n}
    (free : (s.servers server).quarantined = false) (accepted : turn.delayed server = true) :
    Timed (s.badServer turn server) := by
  intro i
  rw [count_badServer, ht i]
  by_cases same : i = server
  · rw [same, (badServer_same s server turn).2, free, accepted]
    simp
  · rw [badServer_other same]
    simp [same]

theorem Timed.release (ht : Timed s) {se : Fin n} (hp : se ∈ s.timers) :
    Timed (s.release turn se) := by
  intro i
  change (s.timers.erase se).count i = _
  by_cases same : i = se
  · have ho : s.timers.count se ≤ 1 := by
      rw [ht se]
      split <;> omega
    have hs := count_pos_iff.mpr hp
    rw [same, count_erase_self, release_same]
    simp only [Bool.false_eq_true, if_false]
    omega
  · rw [count_erase_of_ne same, release_other same]
    exact ht i

def failsAtOnce (turn : Turn n) (s : CloudServerConnections n) (i : Fin n) : Bool :=
  !(s.servers i).isConnection && turn.refused i

/-- What a turn of the selection makes of a server: its failure, and the timer of it. -/
structure Fate (turn : Turn n) (s t : CloudServerConnections n) (i : Fin n) : Prop where
  quarantined : (t.servers i).quarantined = ((s.servers i).quarantined || failsAtOnce turn s i)
  timers : t.timers.count i =
    s.timers.count i + if failsAtOnce turn s i = true ∧ turn.delayed i = true then 1 else 0

variable (s turn) in
theorem select_fate (e : Fin n × Nat) : Fate turn s (s.select turn e) e.1 := by
  let p : CloudServerConnections n := { s with selected := s.selected ++ [e.1] }
  let b := p.modify e.1 fun sc => { sc with priority := e.2, isConnection := true }
  have kept : (b.servers e.1).quarantined = (s.servers e.1).quarantined :=
    modify_quarantined (s := p) (by intro sc; rfl) e.1
  rw [select]
  split
  · next connected =>
    refine ⟨by simp [failsAtOnce, connected, kept, b, p], ?_⟩
    simp [failsAtOnce, connected]
    rfl
  · next unconnected =>
    rw [subscribeToServerState]
    split
    · next refused =>
      have failed : failsAtOnce turn s e.1 = true := by simp [failsAtOnce, unconnected, refused]
      refine ⟨?_, ?_⟩
      · rw [(badServer_same _ e.1 turn).2, failed, Bool.or_true]
      · rw [count_badServer, failed]
        simp
        rfl
    · next accepted =>
      have unfailed : failsAtOnce turn s e.1 = false := by simp [failsAtOnce, accepted]
      refine ⟨?_, by rw [unfailed]; rfl⟩
      rw [modify_quarantined (by intro sc; rfl), unfailed, Bool.or_false]
      exact kept

variable (turn) in
theorem select_timers_other (e : Fin n × Nat) {i : Fin n} (hn : i ≠ e.1) :
    (s.select turn e).timers.count i = s.timers.count i := by
  rw [select]
  split
  · rfl
  · rw [subscribeToServerState]
    split
    · rw [count_badServer, if_neg fun h => hn h.1]
      rfl
    · rfl

variable (turn) in
/-- Each candidate of a selection has one turn; the turns of the others leave it as it is. -/
theorem foldl_select_fate (l : List (Fin n × Nat)) (s : CloudServerConnections n)
    (hd : (l.map Prod.fst).Nodup) (i : Fin n) :
    let t := l.foldl (select turn) s
    (i ∈ l.map Prod.fst → Fate turn s t i) ∧
      (i ∉ l.map Prod.fst → t.servers i = s.servers i ∧ t.timers.count i = s.timers.count i) := by
  induction l generalizing s with
  | nil => exact ⟨by simp, fun _ => ⟨rfl, rfl⟩⟩
  | cons e l ih =>
    rw [map_cons, nodup_cons] at hd
    obtain ⟨turned, left⟩ := ih (s.select turn e) hd.2
    by_cases same : i = e.1
    · subst same
      obtain ⟨servers, timers⟩ := left hd.1
      obtain ⟨quarantined, count⟩ := select_fate s turn e
      refine ⟨fun _ => ⟨?_, timers.trans count⟩, fun out => absurd mem_cons_self out⟩
      exact (congrArg CloudServerConnection.quarantined servers).trans quarantined
    · have kept := (select_priority s turn e).1 i same
      have count := select_timers_other turn (s := s) e same
      rw [map_cons, mem_cons, or_iff_right same]
      refine ⟨fun mem => ?_, fun out => ?_⟩
      · obtain ⟨quarantined, timers⟩ := turned mem
        have fate : failsAtOnce turn (s.select turn e) i = failsAtOnce turn s i := by
          rw [failsAtOnce, failsAtOnce, kept]
        rw [kept, fate] at quarantined
        rw [fate, count] at timers
        exact ⟨quarantined, timers⟩
      · obtain ⟨servers, timers⟩ := left out
        exact ⟨servers.trans kept, timers.trans count⟩

theorem foldl_endConnection_timers (l : List (Fin n × Nat)) (s : CloudServerConnections n) :
    (l.foldl (fun s e => s.endConnection e.1 e.2) s).timers = s.timers := by
  induction l generalizing s with
  | nil => rfl
  | cons e l ih => exact ih _

variable (turn) in
theorem selectServers_fate {cs : List (Fin n)} (hd : cs.Nodup) (i : Fin n) :
    let t := s.selectServers turn cs
    (i ∈ cs.take (min cs.length s.maxConnections) → Fate turn s t i) ∧
      (i ∉ cs.take (min cs.length s.maxConnections) →
        (t.servers i).quarantined = (s.servers i).quarantined ∧
          t.timers.count i = s.timers.count i) := by
  let count := min cs.length s.maxConnections
  let chosen := (cs.zipIdx.take count).foldl (select turn) { s with selected := [] }
  have listed : (cs.zipIdx.take count).map Prod.fst = cs.take count := by
    rw [map_take, zipIdx_map_fst]
  have fate := foldl_select_fate turn (cs.zipIdx.take count) { s with selected := [] }
    (listed ▸ hd.sublist (take_sublist ..)) i
  rw [listed] at fate
  have ended : ((s.selectServers turn cs).servers i).quarantined =
      (chosen.servers i).quarantined := (foldl_endConnection (cs.zipIdx.drop count) chosen).2.2.2 i
  have timers : (s.selectServers turn cs).timers = chosen.timers :=
    foldl_endConnection_timers (cs.zipIdx.drop count) chosen
  refine ⟨fun mem => ?_, fun out => ?_⟩
  · obtain ⟨quarantined, counted⟩ := fate.1 mem
    exact ⟨ended.trans quarantined, (congrArg (List.count i) timers).trans counted⟩
  · obtain ⟨servers, counted⟩ := fate.2 out
    exact ⟨ended.trans (congrArg CloudServerConnection.quarantined servers),
      (congrArg (List.count i) timers).trans counted⟩

theorem mem_begun {i : Fin n} : i ∈ begun sorting s ↔
    s.selected.length < min (s.serverCandidates sorting).length s.maxConnections ∧
      i ∈ (s.serverCandidates sorting).take
        (min (s.serverCandidates sorting).length s.maxConnections) ∧
      (s.servers i).isConnection = false := by
  rw [begun]
  split
  · next full => simp [Nat.not_lt.mpr full]
  · next free => simp [not_le.mp free]

theorem Timed.initServers (ht : Timed s) (accepted : Accepted sorting s turn) :
    Timed (s.initServers sorting turn) := by
  rw [CloudServerConnections.initServers]
  split
  · exact ht
  · next free =>
    intro i
    obtain ⟨turned, left⟩ := selectServers_fate turn (s := s) (nodup_serverCandidates sorting s) i
    by_cases mem : i ∈ (s.serverCandidates sorting).take
        (min (s.serverCandidates sorting).length s.maxConnections)
    · obtain ⟨quarantined, timers⟩ := turned mem
      have unheld := mem_serverCandidates.mp (mem_of_mem_take mem)
      rw [timers, quarantined, ht i, unheld]
      by_cases failed : failsAtOnce turn s i = true
      · obtain ⟨unconnected, refused⟩ := Bool.and_eq_true_iff.mp failed
        have begun := mem_begun.mpr ⟨not_le.mp free, mem, by simpa using unconnected⟩
        simp [failed, accepted i begun refused]
      · simp [failed]
    · obtain ⟨quarantined, timers⟩ := left mem
      rw [timers, quarantined]
      exact ht i

/-- A timer that the scheduler refuses leaves its server in quarantine for good. -/
theorem Timed.accepted (ht : Timed s) (one : OneTimer (s.initServers sorting turn)) :
    Accepted sorting s turn := by
  intro i begun refused
  obtain ⟨free, mem, unconnected⟩ := mem_begun.mp begun
  rw [CloudServerConnections.initServers, if_neg (Nat.not_le.mpr free)] at one
  obtain ⟨quarantined, timers⟩ :=
    (selectServers_fate turn (s := s) (nodup_serverCandidates sorting s) i).1 mem
  have failed : failsAtOnce turn s i = true := by simp [failsAtOnce, unconnected, refused]
  have unheld := mem_serverCandidates.mp (mem_of_mem_take mem)
  rw [failed, Bool.or_true] at quarantined
  have count := (one i).mp quarantined
  rw [timers, ht i, unheld, failed] at count
  by_contra refused
  simp [refused] at count

variable (sorting) in
theorem Timed.step (ht : Timed s) {e : Event n} (first : FirstNotice sorting s e) :
    Timed (s.step sorting e) := by
  cases e with
  | streamUpdate server lie turn =>
    rw [CloudServerConnections.step]
    split
    · next reported =>
      rw [Bool.and_eq_true] at reported
      obtain ⟨free, accepted⟩ := first server ⟨rfl, reported⟩
      exact ht.badServer free accepted
    · exact ht
  | release server turn =>
    rw [CloudServerConnections.step]
    split
    · next pending => exact ht.release pending
    · exact ht
  | task turn =>
    rw [CloudServerConnections.step]
    split
    · next pending =>
      have taken : Timed { s with deferred := false } := ht
      exact taken.initServers fun i begun refused => (first i ⟨pending, begun, refused⟩).2
    · exact ht

theorem Timed.firstNotice (ht : Timed s) {e : Event n} (one : OneTimer (s.step sorting e))
    (none : NoOlderTimer sorting s e) : FirstNotice sorting s e := by
  intro i failure
  have free : (s.servers i).quarantined = false :=
    eq_false_of_ne_true fun held => none i failure ((ht.mem_iff i).mpr held)
  refine ⟨free, ?_⟩
  cases e with
  | streamUpdate server lie turn =>
    obtain ⟨rfl, subscribed, failed⟩ := failure
    rw [CloudServerConnections.step, if_pos (by simp [subscribed, failed])] at one
    have count := (one server).mp (badServer_same s server turn).2
    rw [count_badServer, ht server, free] at count
    by_contra refused
    simp [show turn.delayed server ≠ true from refused] at count
  | release server turn => cases failure
  | task turn =>
    obtain ⟨pending, begun, refused⟩ := failure
    rw [CloudServerConnections.step, if_pos pending] at one
    have taken : Timed { s with deferred := false } := ht
    exact taken.accepted one i begun refused

theorem Timed.step_iff (ht : Timed s) (e : Event n) :
    OneTimer (s.step sorting e) ∧ NoOlderTimer sorting s e ↔ FirstNotice sorting s e := by
  refine ⟨fun h => ht.firstNotice h.1 h.2, fun first => ⟨(ht.step sorting first).oneTimer, ?_⟩⟩
  intro i failure
  rw [ht.mem_iff, (first i failure).1]
  exact Bool.false_ne_true

variable (sorting) in
/-- Every quarantine has exactly one release timer, and none is ended by the timer of an
earlier failure, exactly in the runs in which no link error is reported for a server that is
already in quarantine and the scheduler takes the timer of every failure. -/
theorem quarantine_timers_iff (maxConnections : Nat) (turn : Turn n) (events : List (Event n)) :
    (Always (step sorting) OneTimer (.start sorting maxConnections turn) events ∧
      Along (step sorting) (NoOlderTimer sorting) (.start sorting maxConnections turn) events) ↔
      Accepted sorting (initServerConnections maxConnections) turn ∧
        Along (step sorting) (FirstNotice sorting) (.start sorting maxConnections turn) events := by
  have initial : Timed (initServerConnections maxConnections : CloudServerConnections n) :=
    fun _ => rfl
  rw [always_iff_after, and_assoc, ← along_and]
  have started : OneTimer (start sorting maxConnections turn) ↔
      Accepted sorting (initServerConnections maxConnections) turn :=
    ⟨initial.accepted, fun accepted => (initial.initServers accepted).oneTimer⟩
  rw [started]
  refine and_congr_right fun accepted => ?_
  exact along_iff_of_invariant (I := Timed) (fun s e timed first => timed.step sorting first)
    (fun s e timed => timed.step_iff e) (initial.initServers accepted)

def reportedTwice : List (Event 1) :=
  [.streamUpdate ⟨0, Nat.one_pos⟩ true .quiet, .streamUpdate ⟨0, Nat.one_pos⟩ true .quiet,
    .release ⟨0, Nat.one_pos⟩ .quiet]

/-- Two timers are pending after the second report; the first one releases the server while
the timer of the second failure is still pending. -/
theorem reported_twice_two_timers :
    let sorting := insertionSorting (Fin 1)
    let start := start sorting 1 .quiet
    ((run (step sorting) start (reportedTwice.take 2)).servers 0).quarantined = true ∧
      (run (step sorting) start (reportedTwice.take 2)).timers = [0, 0] ∧
      ((run (step sorting) start reportedTwice).servers 0).quarantined = false ∧
      (run (step sorting) start reportedTwice).timers = [0] := by
  decide

end Ae.CloudConnections.Quarantine
