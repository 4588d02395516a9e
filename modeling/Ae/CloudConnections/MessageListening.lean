/- source: client_messages/p2p_message_stream_manager.cpp,
     cloud_connections/{cloud_subscription.cpp,cloud_server_connections.h}
   digest: Messages are heard from as many servers as were selected when the manager was made. -/

import Ae.CloudConnections.Requesting
import Ae.CloudConnections.Selecting

set_option autoImplicit false

namespace Ae.CloudConnections.MessageListening
open Requesting (RequestPolicy)
open List Selecting Lib.EventRun

/-- `subscriptions` are the servers whose message event is subscribed to. -/
structure CloudEventListener where
  requestPolicy : RequestPolicy
  subscriptions : List Nat

namespace CloudEventListener

def serversUpdate (l : CloudEventListener) (selected : List Nat) : CloudEventListener :=
  { l with subscriptions := l.requestPolicy.servers selected }

def start (requestPolicy : RequestPolicy) (selected : List Nat) : CloudEventListener :=
  serversUpdate ⟨requestPolicy, []⟩ selected

end CloudEventListener

def selectedServers {n : Nat} (s : CloudServerConnections n) : List Nat := s.selected.map Fin.val

def emitsUpdate {n : Nat} (sorting : Sorting (Fin n)) (s : CloudServerConnections n) :
    Event n → Prop
  | .task _ => s.deferred = true ∧
    s.selected.length < min (s.serverCandidates sorting).length s.maxConnections
  | .streamUpdate _ _ _ => False
  | .release _ _ => False

instance {n : Nat} (sorting : Sorting (Fin n)) (s : CloudServerConnections n) :
    DecidablePred (emitsUpdate sorting s)
  | .task _ => inferInstanceAs (Decidable (_ ∧ _))
  | .streamUpdate _ _ _ | .release _ _ => isFalse id

structure P2pMessageStreamManager (n : Nat) where
  cloudConnection : CloudServerConnections n
  onMessageReceived : CloudEventListener

namespace P2pMessageStreamManager

variable {n : Nat}

def start (cloudConnection : CloudServerConnections n) : P2pMessageStreamManager n :=
  ⟨cloudConnection,
    .start (.replica cloudConnection.selected.length) (selectedServers cloudConnection)⟩

def step (sorting : Sorting (Fin n)) (s : P2pMessageStreamManager n) (e : Event n) :
    P2pMessageStreamManager n :=
  let cloudConnection := s.cloudConnection.step sorting e
  if emitsUpdate sorting s.cloudConnection e then
    ⟨cloudConnection, s.onMessageReceived.serversUpdate (selectedServers cloudConnection)⟩
  else ⟨cloudConnection, s.onMessageReceived⟩

end P2pMessageStreamManager

open P2pMessageStreamManager

section

variable {n : Nat}

def Heard (s : P2pMessageStreamManager n) : Prop :=
  ∀ sc ∈ selectedServers s.cloudConnection, s.onMessageReceived.subscriptions.count sc = 1

/-- If the event ends in an update, all selected servers are heard after it. -/
def HeardAfterUpdate (sorting : Sorting (Fin n)) (s : P2pMessageStreamManager n) (e : Event n) :
    Prop :=
  emitsUpdate sorting s.cloudConnection e → Heard (s.step sorting e)

def UpdateWithin (sorting : Sorting (Fin n)) (count : Nat) (s : P2pMessageStreamManager n)
    (e : Event n) : Prop :=
  emitsUpdate sorting s.cloudConnection e →
    (s.cloudConnection.step sorting e).selected.length ≤ count

end

section

variable {n : Nat} {sorting : Sorting (Fin n)} {s : P2pMessageStreamManager n}

theorem count_take_iff {l : List Nat} (hd : l.Nodup) (count : Nat) :
    (∀ sc ∈ l, (l.take (min l.length count)).count sc = 1) ↔ l.length ≤ count := by
  constructor
  · intro hh
    by_contra more
    have hw : count < l.length := not_le.mp more
    have ho := hh l[count] (getElem_mem hw)
    have hm : l[count] ∈ l.take (min l.length count) :=
      count_pos_iff.mp (ho ▸ one_pos)
    obtain ⟨i, her, he⟩ := mem_take_iff_getElem.mp hm
    have hp := (hd.getElem_inj_iff).mp he
    omega
  · intro hf sc hm
    rw [min_eq_left hf, take_length]
    exact count_eq_one_of_mem hd hm

structure Listening (count : Nat) (s : P2pMessageStreamManager n) : Prop where
  sound : Sound s.cloudConnection
  policy : s.onMessageReceived.requestPolicy = .replica count

theorem Listening.step {c : Nat} (hl : Listening c s) (e : Event n) :
    Listening c (s.step sorting e) := by
  have hs : Sound (s.cloudConnection.step sorting e) := hl.sound.step e
  rw [P2pMessageStreamManager.step]
  split
  · exact ⟨hs, hl.policy⟩
  · exact ⟨hs, hl.policy⟩

theorem Listening.heardAfterUpdate_iff {c : Nat} (hl : Listening c s)
    (e : Event n) : HeardAfterUpdate sorting s e ↔ UpdateWithin sorting c s e := by
  refine imp_congr_right fun he => ?_
  have hs : Sound (s.cloudConnection.step sorting e) := hl.sound.step e
  have hd : (selectedServers (s.cloudConnection.step sorting e)).Nodup :=
    (hs.distinct.sublist hs.told).map Fin.val_injective
  have hu : s.step sorting e = ⟨s.cloudConnection.step sorting e,
      s.onMessageReceived.serversUpdate (selectedServers (s.cloudConnection.step sorting e))⟩ :=
    if_pos he
  rw [hu, Heard, CloudEventListener.serversUpdate, hl.policy]
  refine (count_take_iff hd c).trans ?_
  rw [selectedServers, length_map]

/-- Messages are heard from all selected servers after every update exactly when no update
announces more servers than were selected when the manager was constructed. -/
theorem heard_iff_updates_within (sorting : Sorting (Fin n)) (maxConnections : Nat)
    (turn : Turn n) (before events : List (Event n)) :
    let cloud := run (CloudServerConnections.step sorting)
      (.start sorting maxConnections turn) before
    Along (step sorting) (HeardAfterUpdate sorting) (.start cloud) events ↔
      Along (step sorting) (UpdateWithin sorting cloud.selected.length) (.start cloud) events := by
  intro cloud
  have hs : Sound cloud := run_of_invariant (G := fun _ _ => True)
    (fun _ e hs _ => hs.step e) ((Sound.initial maxConnections).initServers turn)
    along_true
  exact along_congr_of_invariant (I := Listening cloud.selected.length) (G := fun _ _ => True)
    (fun _ e hl _ => hl.step e)
    (fun _ e hl _ => hl.heardAfterUpdate_iff e) ⟨hs, rfl⟩ along_true

def selectedLater : List (Event 2) := [.release ⟨0, Nat.two_pos⟩ .quiet, .task .quiet]

/-- The manager is made while no server is selected and never hears the one selected later. -/
theorem later_server_unheard :
    let sorting := insertionSorting (Fin 2)
    let c : CloudServerConnections 2 :=
      .start sorting 2 { Turn.quiet with refused := fun _ => true }
    let s := run (step sorting) (.start c) selectedLater
    (selectedServers s.cloudConnection = [0] ∧ s.onMessageReceived.subscriptions = []) ∧
      ¬Along (step sorting) (HeardAfterUpdate sorting) (.start c)
        selectedLater := by
  refine ⟨by decide, ?_⟩
  rintro ⟨-, hh, -⟩
  exact absurd (hh (by decide) 0 (by decide)) (by decide)

end

end Ae.CloudConnections.MessageListening
