/- source: cloud_connections/{cloud_server_connections,cloud_server_connection}.cpp
   digest: A failed server without a replacement leaves the selection without an update. -/

import Ae.Lib.EventRun
import Mathlib.Data.Fintype.Card
import Mathlib.Data.List.Sort

set_option autoImplicit false

namespace Ae.CloudConnections.Selecting
open Function List Lib.EventRun

/-- `std::sort` with a comparison of keys: the order of equal keys is left open. -/
structure Sorting (α : Type) where
  sort : (α → Nat) → List α → List α
  perm : ∀ key l, (sort key l).Perm l
  ordered : ∀ key l, (sort key l).Pairwise fun a b => key a ≤ key b

def insertionSorting (α : Type) : Sorting α where
  sort key := List.insertionSort fun a b => key a ≤ key b
  perm _ := perm_insertionSort _
  ordered key :=
    letI : Std.Total fun a b => key a ≤ key b := ⟨fun a b => Nat.le_total (key a) (key b)⟩
    letI : IsTrans α fun a b => key a ≤ key b := ⟨fun _ _ _ => Nat.le_trans⟩
    pairwise_insertionSort _

/-- `subscribed` tells that `server_state_subs_` has an entry for the connection; the entry
outlives `EndConnection`. -/
structure CloudServerConnection where
  priority : Nat
  isConnection : Bool
  quarantined : Bool
  subscribed : Bool

/-- `deferred` is `defer_sub_`, `timers` are the pending tasks of `QuarantineTimer`, and `notified`
is a history: the selected servers at the last `servers_update_event`. -/
structure CloudServerConnections (n : Nat) where
  maxConnections : Nat
  servers : Fin n → CloudServerConnection
  selected : List (Fin n)
  deferred : Bool
  timers : List (Fin n)
  notified : List (Fin n)

/-- What a turn meets outside: the servers whose new connection is null or has a link error at
once, and whether the scheduler's pools have room for a server's regular and delayed task; a full
pool answers `nullptr`. -/
structure Turn (n : Nat) where
  refused : Fin n → Bool
  regular : Fin n → Bool
  delayed : Fin n → Bool

def Turn.quiet {n : Nat} : Turn n := ⟨fun _ => false, fun _ => true, fun _ => true⟩

/-- An update of a server's subscribed connection, the end of a quarantine, and the task of
`ReselectServers`. -/
inductive Event (n : Nat) where
  | streamUpdate (server : Fin n) (linkError : Bool) (turn : Turn n)
  | release (server : Fin n) (turn : Turn n)
  | task (turn : Turn n)

def Event.turn {n : Nat} : Event n → Turn n
  | .streamUpdate _ _ turn | .release _ turn | .task turn => turn

variable {n : Nat}

namespace CloudServerConnections

variable (sorting : Sorting (Fin n)) (turn : Turn n) (s : CloudServerConnections n)

def modify (server : Fin n) (f : CloudServerConnection → CloudServerConnection) :
    CloudServerConnections n :=
  { s with servers := Function.update s.servers server (f (s.servers server)) }

def endConnection (server : Fin n) (priority : Nat) : CloudServerConnections n :=
  s.modify server fun sc => { sc with priority := priority, isConnection := false }

def quarantineTimer (server : Fin n) (room : Bool) : CloudServerConnections n :=
  { s.modify server fun sc => { sc with quarantined := true } with
    timers := if room then s.timers ++ [server] else s.timers }

def unselectServer (server : Fin n) : CloudServerConnections n :=
  { s with selected := s.selected.filter (· ≠ server) }

def reselectServers (room : Bool) : CloudServerConnections n :=
  { s with deferred := s.deferred || room }

def badServer (server : Fin n) : CloudServerConnections n :=
  (((s.endConnection server ((s.servers server).priority + n)).quarantineTimer
    server (turn.delayed server)).unselectServer server).reselectServers (turn.regular server)

def subscribeToServerState (server : Fin n) : CloudServerConnections n :=
  if turn.refused server then s.badServer turn server
  else s.modify server fun sc => { sc with subscribed := true }

def select (entry : Fin n × Nat) : CloudServerConnections n :=
  let begun := { s with selected := s.selected ++ [entry.1] }.modify entry.1 fun sc =>
    { sc with priority := entry.2, isConnection := true }
  if (s.servers entry.1).isConnection then begun else begun.subscribeToServerState turn entry.1

def selectServers (candidates : List (Fin n)) : CloudServerConnections n :=
  let count := min candidates.length s.maxConnections
  let chosen := (candidates.zipIdx.take count).foldl (select turn) { s with selected := [] }
  let ended := (candidates.zipIdx.drop count).foldl (fun s entry => s.endConnection entry.1 entry.2)
    chosen
  { ended with notified := ended.selected }

def serverCandidates : List (Fin n) :=
  sorting.sort (fun server => (s.servers server).priority)
    ((List.finRange n).filter fun server => !(s.servers server).quarantined)

def initServers : CloudServerConnections n :=
  if min (s.serverCandidates sorting).length s.maxConnections ≤ s.selected.length then s
  else s.selectServers turn (s.serverCandidates sorting)

def release (server : Fin n) : CloudServerConnections n :=
  { s.modify server fun sc => { sc with quarantined := false } with
    timers := s.timers.erase server }.reselectServers (turn.regular server)

def step : Event n → CloudServerConnections n
  | .streamUpdate server linkError turn =>
    if (s.servers server).subscribed && linkError then s.badServer turn server else s
  | .release server turn => if server ∈ s.timers then s.release turn server else s
  | .task turn =>
    if s.deferred then { s with deferred := false }.initServers sorting turn else s

def initServerConnections (maxConnections : Nat) : CloudServerConnections n :=
  ⟨maxConnections, fun _ => ⟨0, false, false, false⟩, [], false, [], []⟩

def start (maxConnections : Nat) (turn : Turn n) : CloudServerConnections n :=
  (initServerConnections maxConnections).initServers sorting turn

end CloudServerConnections

open CloudServerConnections

section

variable (s : CloudServerConnections n)

/-- Once no reselection is pending, the selected servers are those of the last update. -/
def Informed : Prop := s.deferred = false → s.selected = s.notified

def Spare (server : Fin n) : Prop :=
  server ∉ s.selected ∧ (s.servers server).quarantined = false

/-- The scheduler takes the reselection for a selected server that fails, and when it runs after
a change, there is a server to replace the failed ones. -/
def Replaceable : Event n → Prop
  | .streamUpdate server linkError turn => (s.servers server).subscribed = true →
    linkError = true → server ∈ s.selected → s.deferred = true ∨ turn.regular server = true
  | .release _ _ => True
  | .task _ => s.deferred = true → s.selected = s.notified ∨ ∃ server, Spare s server

end

section

variable {s : CloudServerConnections n} {server : Fin n} {turn : Turn n}

variable (f : CloudServerConnection → CloudServerConnection)

theorem modify_same :
    (s.modify server f).servers server = f (s.servers server) :=
  update_self ..

theorem modify_other {i : Fin n} (hn : i ≠ server) : (s.modify server f).servers i = s.servers i :=
  update_of_ne hn ..

theorem modify_quarantined {f : CloudServerConnection → CloudServerConnection}
    (hk : ∀ sc, (f sc).quarantined = sc.quarantined) (i : Fin n) :
    ((s.modify server f).servers i).quarantined = (s.servers i).quarantined := by
  by_cases same : i = server
  · rw [same, modify_same]
    exact hk _
  · rw [modify_other f same]

theorem badServer_other {i : Fin n} (hn : i ≠ server) :
    (s.badServer turn server).servers i = s.servers i := by
  have ht : (s.badServer turn server).servers i =
      (s.endConnection server ((s.servers server).priority + n)).servers i :=
    update_of_ne hn ..
  rw [ht]
  exact modify_other _ hn

variable (turn s server) in
theorem badServer_same :
    ((s.badServer turn server).servers server).priority = (s.servers server).priority + n ∧
      ((s.badServer turn server).servers server).quarantined = true := by
  have ht : (s.badServer turn server).servers server =
      { (s.endConnection server ((s.servers server).priority + n)).servers server with
        quarantined := true } := update_self ..
  rw [ht]
  refine ⟨?_, rfl⟩
  exact congrArg CloudServerConnection.priority (modify_same _)

theorem release_same : (s.release turn server).servers server =
    { s.servers server with quarantined := false } :=
  update_self ..

theorem release_other {i : Fin n} (hn : i ≠ server) :
    (s.release turn server).servers i = s.servers i :=
  update_of_ne hn ..

theorem foldl_endConnection (l : List (Fin n × Nat)) (s : CloudServerConnections n) :
    let t := l.foldl (fun s e => s.endConnection e.1 e.2) s
    t.selected = s.selected ∧ t.maxConnections = s.maxConnections ∧ t.deferred = s.deferred ∧
      ∀ i, (t.servers i).quarantined = (s.servers i).quarantined := by
  induction l generalizing s with
  | nil => exact ⟨rfl, rfl, rfl, fun _ => rfl⟩
  | cons e l ih =>
    obtain ⟨hs, hl, hd, hq⟩ := ih (s.endConnection e.1 e.2)
    refine ⟨hs, hl, hd, fun i => (hq i).trans ?_⟩
    exact modify_quarantined (by intro sc; rfl) i

end

section

variable {s : CloudServerConnections n} {turn : Turn n}

structure Selectable (s : CloudServerConnections n) (rest : List (Fin n)) : Prop where
  distinct : (s.selected ++ rest).Nodup
  free : ∀ i ∈ s.selected ++ rest, (s.servers i).quarantined = false

variable (s turn) in
theorem select_cases (e : Fin n × Nat) :
    ((s.select turn e).selected = s.selected ++ [e.1] ∧
        ∀ i, ((s.select turn e).servers i).quarantined = (s.servers i).quarantined) ∨
      ((s.select turn e).selected = (s.selected ++ [e.1]).filter (· ≠ e.1) ∧
        ∀ i, i ≠ e.1 →
          ((s.select turn e).servers i).quarantined = (s.servers i).quarantined) := by
  let p : CloudServerConnections n := { s with selected := s.selected ++ [e.1] }
  have hb : ∀ i, ((p.modify e.1 fun sc =>
      { sc with priority := e.2, isConnection := true }).servers i).quarantined =
        (s.servers i).quarantined :=
    modify_quarantined fun _ => rfl
  rw [select]
  split
  · exact .inl ⟨rfl, hb⟩
  · rw [subscribeToServerState]
    split
    · refine .inr ⟨rfl, fun i hn => Eq.trans ?_ (hb i)⟩
      rw [badServer_other hn]
    · exact .inl ⟨rfl, fun i => (modify_quarantined (by intro sc; rfl) i).trans (hb i)⟩

theorem select_maxConnections (e : Fin n × Nat) :
    (s.select turn e).maxConnections = s.maxConnections := by
  rw [select]
  split
  · rfl
  · rw [subscribeToServerState]
    split <;> rfl

variable (turn) in
theorem Selectable.select {e : Fin n × Nat} {rest : List (Fin n)}
    (hs : Selectable s (e.1 :: rest)) :
    Selectable (s.select turn e) rest ∧
      (s.select turn e).selected.Sublist (s.selected ++ [e.1]) := by
  have hsl : s.selected ++ e.1 :: rest = s.selected ++ [e.1] ++ rest := by simp
  obtain ⟨hd, hf⟩ := hs
  rw [hsl] at hd hf
  rcases select_cases s turn e with
    ⟨selected, hq⟩ | ⟨selected, hq⟩
  · refine ⟨⟨?_, fun i hm => ?_⟩, ?_⟩
    · rw [selected]
      exact hd
    · rw [selected] at hm
      exact (hq i).trans (hf i hm)
    · rw [selected]
  · have hdr : (s.select turn e).selected.Sublist (s.selected ++ [e.1]) := by
      rw [selected]
      exact filter_sublist
    refine ⟨⟨hd.sublist (hdr.append_right rest), fun i hm => ?_⟩, hdr⟩
    have hw := (hdr.append_right rest).subset hm
    refine (hq i fun he => ?_).trans (hf i hw)
    -- The dropped server is neither selected any more nor among those to come.
    rw [he, selected] at hm
    obtain hk | later := mem_append.mp hm
    · exact absurd rfl (of_decide_eq_true (mem_filter.mp hk).2)
    · exact disjoint_of_nodup_append hd (by simp) later

variable (turn) in
theorem Selectable.foldl (l : List (Fin n × Nat)) (s : CloudServerConnections n)
    (hs : Selectable s (l.map Prod.fst)) :
    let t := l.foldl (CloudServerConnections.select turn) s
    Selectable t [] ∧ t.selected.Sublist (s.selected ++ l.map Prod.fst) ∧
      t.maxConnections = s.maxConnections := by
  induction l generalizing s with
  | nil => exact ⟨hs, by simp, rfl⟩
  | cons e l ih =>
    obtain ⟨hn, hg⟩ := Selectable.select turn hs
    obtain ⟨hls, hsl, hl⟩ := ih _ hn
    refine ⟨hls, hsl.trans ?_, hl.trans (select_maxConnections e)⟩
    have ha := hg.append_right (l.map Prod.fst)
    rwa [append_assoc] at ha

variable (turn) in
theorem selectServers_selected {cs : List (Fin n)} (hd : cs.Nodup)
    (hf : ∀ i ∈ cs, (s.servers i).quarantined = false) :
    let t := s.selectServers turn cs
    t.selected = t.notified ∧ t.selected.Nodup ∧ t.selected.length ≤ s.maxConnections ∧
      t.maxConnections = s.maxConnections ∧
      ∀ i ∈ t.selected, (t.servers i).quarantined = false := by
  let count := min cs.length s.maxConnections
  let c : CloudServerConnections n := { s with selected := [] }
  have hc : (cs.zipIdx.take count).map Prod.fst = cs.take count := by
    rw [map_take, zipIdx_map_fst]
  have hsl : Selectable c ((cs.zipIdx.take count).map Prod.fst) := by
    rw [hc]
    refine ⟨hd.sublist (take_sublist ..), fun i hm => ?_⟩
    exact hf i (mem_of_mem_take hm)
  obtain ⟨hl, selected, hlm⟩ := Selectable.foldl turn _ c hsl
  obtain ⟨hs, hsm, -, hq⟩ :=
    foldl_endConnection (cs.zipIdx.drop count)
      ((cs.zipIdx.take count).foldl (CloudServerConnections.select turn) c)
  rw [hc] at selected
  refine ⟨rfl, ?_, ?_, hsm.trans hlm, fun i hm => ?_⟩
  · rw [selectServers, hs]
    exact hl.distinct.sublist (sublist_append_left ..)
  · rw [selectServers, hs]
    exact selected.length_le.trans ((length_take_le ..).trans (min_le_right ..))
  · rw [selectServers, hs] at hm
    exact (hq i).trans (hl.free i (mem_append_left _ hm))

end

section

variable {sorting : Sorting (Fin n)} {s : CloudServerConnections n}

structure Sound (s : CloudServerConnections n) : Prop where
  told : s.selected.Sublist s.notified
  distinct : s.notified.Nodup
  bounded : s.notified.length ≤ s.maxConnections
  free : ∀ i ∈ s.selected, (s.servers i).quarantined = false

theorem mem_serverCandidates {i : Fin n} :
    i ∈ s.serverCandidates sorting ↔ (s.servers i).quarantined = false := by
  rw [serverCandidates, (sorting.perm ..).mem_iff]
  simp

variable (sorting s) in
theorem nodup_serverCandidates : (s.serverCandidates sorting).Nodup := by
  rw [serverCandidates, (sorting.perm ..).nodup_iff]
  exact (nodup_finRange n).filter _

section

variable (hs : Sound s)
include hs

theorem Sound.guard_iff_spare (hch : s.selected ≠ s.notified) :
    s.selected.length < min (s.serverCandidates sorting).length s.maxConnections ↔
      ∃ server, Spare s server := by
  have hm : s.selected.length < s.maxConnections := by
    have hf := hs.told.length_le
    have hun : s.selected.length ≠ s.notified.length :=
      fun he => hch (hs.told.eq_of_length he)
    have hb := hs.bounded
    omega
  rw [Nat.lt_min, and_iff_left hm]
  constructor
  · intro hf
    by_contra none
    have ha : s.serverCandidates sorting ⊆ s.selected := by
      intro i hcn
      by_contra hu
      exact none ⟨i, hu, mem_serverCandidates.mp hcn⟩
    have hms := (subperm_of_subset (nodup_serverCandidates sorting s) ha).length_le
    omega
  · rintro ⟨server, hu, hfr⟩
    have hd : (server :: s.selected).Nodup :=
      nodup_cons.mpr ⟨hu, hs.distinct.sublist hs.told⟩
    have hc : server :: s.selected ⊆ s.serverCandidates sorting := by
      intro i mem
      obtain rfl | selected := mem_cons.mp mem
      · exact mem_serverCandidates.mpr hfr
      · exact mem_serverCandidates.mpr (hs.free i selected)
    exact (subperm_of_subset hd hc).length_le

theorem Sound.badServer (turn : Turn n) (server : Fin n) : Sound (s.badServer turn server) where
  told := filter_sublist.trans hs.told
  distinct := hs.distinct
  bounded := hs.bounded
  free := by
    intro i hm
    obtain ⟨hsl, hn⟩ := mem_filter.mp hm
    rw [badServer_other (of_decide_eq_true hn)]
    exact hs.free i hsl

theorem Sound.initServers (turn : Turn n) :
    Sound (s.initServers sorting turn) := by
  rw [CloudServerConnections.initServers]
  split
  · exact hs
  · obtain ⟨hn, hd, hb, hl, hf⟩ := selectServers_selected turn
      (nodup_serverCandidates sorting s) fun i => mem_serverCandidates.mp
    refine ⟨?_, ?_, ?_, hf⟩
    · rw [hn]
    · exact hn ▸ hd
    · rw [← hn, hl]
      exact hb

theorem Sound.release (turn : Turn n) (server : Fin n) : Sound (s.release turn server) where
  told := hs.told
  distinct := hs.distinct
  bounded := hs.bounded
  free := by
    intro i hm
    by_cases same : i = server
    · rw [same, release_same]
    · rw [release_other same]
      exact hs.free i hm

theorem Sound.taken : Sound { s with deferred := false } :=
  ⟨hs.told, hs.distinct, hs.bounded, hs.free⟩

end

variable (sorting s) in
theorem step_cases (e : Event n) :
    s.step sorting e = s ∨ (∃ turn server, s.step sorting e = s.badServer turn server) ∨
      (∃ turn server, s.step sorting e = s.release turn server) ∨
      ∃ turn, s.step sorting e = { s with deferred := false }.initServers sorting turn := by
  cases e with
  | streamUpdate server lie turn =>
    rw [step]
    split
    · exact .inr (.inl ⟨turn, server, rfl⟩)
    · exact .inl rfl
  | release server turn =>
    rw [step]
    split
    · exact .inr (.inr (.inl ⟨turn, server, rfl⟩))
    · exact .inl rfl
  | task turn =>
    rw [step]
    split
    · exact .inr (.inr (.inr ⟨turn, rfl⟩))
    · exact .inl rfl

theorem Sound.step (hs : Sound s) (e : Event n) : Sound (s.step sorting e) := by
  rcases step_cases sorting s e with he | ⟨turn, server, hb⟩ | ⟨turn, server, hr⟩ | ⟨turn, ht⟩
  · rw [he]
    exact hs
  · rw [hb]
    exact hs.badServer turn server
  · rw [hr]
    exact hs.release turn server
  · rw [ht]
    exact hs.taken.initServers turn

theorem Sound.initial (mc : Nat) :
    Sound (initServerConnections mc : CloudServerConnections n) :=
  ⟨.slnil, nodup_nil, Nat.zero_le _, nofun⟩

variable (sorting) in
theorem initServers_cases (s : CloudServerConnections n) (turn : Turn n) :
    (s.selected.length < min (s.serverCandidates sorting).length s.maxConnections ∧
        (s.initServers sorting turn).selected = (s.initServers sorting turn).notified) ∨
      (min (s.serverCandidates sorting).length s.maxConnections ≤ s.selected.length ∧
        s.initServers sorting turn = s) := by
  rw [initServers]
  split
  · next he => exact .inr ⟨he, rfl⟩
  · next hf => exact .inl ⟨not_le.mp hf, rfl⟩

theorem Sound.informed_initServers_iff (hs : Sound s) (turn : Turn n) :
    Informed ({ s with deferred := false }.initServers sorting turn) ↔
      s.selected = s.notified ∨ ∃ server, Spare s server := by
  let taken : CloudServerConnections n := { s with deferred := false }
  have hs : Sound taken := hs.taken
  rcases initServers_cases sorting taken turn with ⟨hg, hi⟩ | ⟨hg, he⟩
  · refine iff_of_true (fun _ => hi) ?_
    by_cases hc : s.selected = s.notified
    · exact .inl hc
    · exact .inr ((hs.guard_iff_spare hc).mp hg)
  · rw [he]
    constructor
    · exact fun hi => .inl (hi rfl)
    · rintro (hu | spare)
      · exact fun _ => hu
      · by_contra uninformed
        have hc : taken.selected ≠ taken.notified := fun he => uninformed fun _ => he
        exact absurd ((hs.guard_iff_spare hc).mpr spare) (Nat.not_lt.mpr hg)

theorem Informed.badServer_iff (hi : Informed s) (turn : Turn n) (server : Fin n) :
    Informed (s.badServer turn server) ↔
      (server ∈ s.selected → s.deferred = true ∨ turn.regular server = true) := by
  rw [← Bool.or_eq_true]
  constructor
  · intro informed selected
    by_contra pending
    have idle := eq_false_of_ne_true pending
    have told : s.selected.filter (· ≠ server) = s.notified := informed idle
    have kept : server ∈ s.selected.filter (· ≠ server) := by
      rw [told, ← hi (Bool.or_eq_false_iff.mp idle).1]
      exact selected
    exact absurd rfl (of_decide_eq_true (mem_filter.mp kept).2)
  · intro accepted idle
    have unselected : server ∉ s.selected := fun selected => by
      rw [show (s.deferred || turn.regular server) = false from idle] at accepted
      exact absurd (accepted selected) Bool.false_ne_true
    refine Eq.trans (filter_eq_self.mpr fun i mem => ?_) (hi (Bool.or_eq_false_iff.mp idle).1)
    exact decide_eq_true fun same => unselected (same ▸ mem)

theorem Sound.informed_step_iff (hsn : Sound s) (hi : Informed s) (e : Event n) :
    Informed (s.step sorting e) ↔ Replaceable s e := by
  cases e with
  | streamUpdate server lie turn =>
    rw [CloudServerConnections.step, Replaceable]
    split
    · next heard =>
      rw [Bool.and_eq_true] at heard
      rw [hi.badServer_iff turn server]
      exact ⟨fun h _ _ => h, fun h => h heard.1 heard.2⟩
    · next unheard =>
      exact iff_of_true hi fun hs hl => absurd (by simp [hs, hl]) unheard
  | release server turn =>
    rw [CloudServerConnections.step]
    split
    · refine iff_of_true (fun idle => hi ?_) trivial
      exact (Bool.or_eq_false_iff.mp idle).1
    · exact iff_of_true hi trivial
  | task turn =>
    rw [CloudServerConnections.step, Replaceable]
    split
    · next hp =>
      rw [hsn.informed_initServers_iff turn]
      exact ⟨fun hr _ => hr, fun hr => hr hp⟩
    · next hs => exact iff_of_true hi fun hp => absurd hp hs

variable (sorting) in
/-- Observers learn every change of the selected servers exactly when the scheduler takes the
reselection after each change and the reselection finds a server to replace the failed ones. -/
theorem observers_informed_iff (maxConnections : Nat) (turn : Turn n)
    (events : List (Event n)) :
    Always (step sorting) Informed
        (.start sorting maxConnections turn) events ↔
      Along (step sorting) Replaceable (.start sorting maxConnections turn) events := by
  refine always_iff_along (A := fun s _ => Sound s) ?_ ?_ ?_
  · exact fun s e hi hs => hs.informed_step_iff hi e
  · rcases initServers_cases sorting (initServerConnections maxConnections) turn with
      ⟨-, hi⟩ | ⟨-, same⟩
    · exact fun _ => hi
    · rw [start, same]
      exact fun _ => rfl
  · exact along_invariant (fun s e hs => hs.step e)
      ((Sound.initial maxConnections).initServers turn)

def oneOfTwoFails : List (Event 2) :=
  [.streamUpdate ⟨0, Nat.two_pos⟩ true .quiet, .task .quiet]

/-- The failed server has left the selection, no task is pending and no update was emitted. -/
theorem failed_server_unreported :
    let s := run (step (insertionSorting (Fin 2)))
      (.start (insertionSorting (Fin 2)) 2 .quiet) oneOfTwoFails
    s.deferred = false ∧ s.selected = [1] ∧ s.notified = [0, 1] ∧
      ¬ Always (step (insertionSorting (Fin 2))) Informed
        (.start (insertionSorting (Fin 2)) 2 .quiet) oneOfTwoFails := by
  refine ⟨by decide, by decide, by decide, ?_⟩
  rintro ⟨-, -, hi⟩
  exact absurd (hi (by decide)) (by decide)

end

end Ae.CloudConnections.Selecting
