/- source: client_messages/p2p_message_stream_manager.cpp, client_messages/p2p_port_handle.h
   digest: Every message is delivered to the one port that all handles for its sender share. -/

import Ae.Lib.EventRun
import Mathlib.Logic.Function.Basic

set_option autoImplicit false

namespace Ae.ClientMessages.Ports
open List Lib.EventRun

/-- `P2pMessageStreamManager`, with the destinations of the ports in the order in which these were
made. A `shared_ptr` to a port is in a handle or belongs to a message that is being handled, the
innermost first, with whether it is delivered. What was announced and delivered are histories. -/
structure P2pMessageStreamManager (U D : Type) where
  ports : U → Option Nat
  destinations : List U
  handles : List Nat
  handling : List (Nat × D × Bool)
  announced : List Nat
  delivered : List (Nat × D)

/-- The handlers of `new_port_event_` run before a message is delivered, those of the port before
`NewMessageReceived` returns. A handler that keeps the handle it is given makes one more, as
`CreatePort` does. -/
inductive Event (U D : Type) where
  | createPort (destination : U)
  | reset (handle : Nat)
  | newMessageReceived (uid : U) (data : D)
  | deliver
  | returns

variable {U D : Type} [DecidableEq U]

namespace P2pMessageStreamManager

def start : P2pMessageStreamManager U D := ⟨fun _ => none, [], [], [], [], []⟩

variable (m : P2pMessageStreamManager U D)

/-- The ports that a `shared_ptr` keeps alive. -/
def held : List Nat := m.handles ++ m.handling.map Prod.fst

def cleanUpPorts : P2pMessageStreamManager U D :=
  { m with ports := fun uid => (m.ports uid).filter (· ∈ m.held) }

/-- A new port; `emplace` leaves an entry that is there. -/
def addPort (destination : U) : P2pMessageStreamManager U D :=
  { m with
    ports := Function.update m.ports destination
      (m.ports destination <|> some m.destinations.length)
    destinations := m.destinations ++ [destination] }

def getOrCreatePort (destination : U) : P2pMessageStreamManager U D × Nat × Bool :=
  let m := m.cleanUpPorts
  match (m.ports destination).filter (· ∈ m.held) with
  | some port => (m, port, false)
  | none => (m.addPort destination, m.destinations.length, true)

def step : Event U D → P2pMessageStreamManager U D
  | .createPort destination =>
    let (m, port, _) := m.getOrCreatePort destination
    { m with handles := port :: m.handles }
  | .reset handle => { m with handles := m.handles.eraseIdx handle }
  | .newMessageReceived uid data =>
    let (m, port, isNew) := m.getOrCreatePort uid
    { m with
      handling := (port, data, false) :: m.handling
      announced := if isNew then m.announced ++ [port] else m.announced }
  | .deliver =>
    match m.handling with
    | (port, data, false) :: rest =>
      { m with handling := (port, data, true) :: rest, delivered := m.delivered ++ [(port, data)] }
    | _ => m
  | .returns =>
    match m.handling with
    | (_, _, true) :: rest => { m with handling := rest }
    | _ => m

end P2pMessageStreamManager

open P2pMessageStreamManager

def Alive (m : P2pMessageStreamManager U D) (uid : U) (port : Nat) : Prop :=
  port ∈ m.held ∧ m.destinations[port]? = some uid

/-- A message is handled with the one port that is alive for its uid, which is announced where
none was alive before. -/
def Routes (m : P2pMessageStreamManager U D) : Event U D → Prop
  | .newMessageReceived uid data => ∃ port,
    let n := m.step (.newMessageReceived uid data)
    n.handling = (port, data, false) :: m.handling ∧ (∀ q, Alive n uid q ↔ q = port) ∧
      (n.announced = m.announced ∧ Alive m uid port ∨
        n.announced = m.announced ++ [port] ∧ ∀ q, ¬ Alive m uid q)
  | _ => True

section

variable {m : P2pMessageStreamManager U D}

/-- The map leads to each port that is alive. -/
structure Mapped (m : P2pMessageStreamManager U D) : Prop where
  finds : ∀ port ∈ m.held, ∃ uid, m.destinations[port]? = some uid ∧ m.ports uid = some port
  own : ∀ uid port, m.ports uid = some port → m.destinations[port]? = some uid

omit [DecidableEq U] in
theorem Mapped.ports_of_alive (hm : Mapped m) {uid : U} {p : Nat} (ha : Alive m uid p) :
    m.ports uid = some p := by
  obtain ⟨u, hd, hp⟩ := hm.finds p ha.1
  obtain rfl := Option.some.inj (hd.symm.trans ha.2)
  exact hp

omit [DecidableEq U] in
theorem Mapped.of_held (hm : Mapped m) {n : P2pMessageStreamManager U D} (hp : n.ports = m.ports)
    (hd : n.destinations = m.destinations)
    (hh : ∀ p ∈ n.held, p ∈ m.held ∨ ∃ uid, m.ports uid = some p) : Mapped n := by
  refine ⟨fun p hn => ?_, fun uid p h => hd ▸ hm.own uid p (hp ▸ h)⟩
  rw [hp, hd]
  rcases hh p hn with h | ⟨uid, h⟩
  · exact hm.finds p h
  · exact ⟨uid, hm.own uid p h, h⟩

omit [DecidableEq U] in
theorem ports_cleanUpPorts {uid : U} {p : Nat} :
    m.cleanUpPorts.ports uid = some p ↔ m.ports uid = some p ∧ p ∈ m.held := by
  simp [cleanUpPorts, Option.filter_eq_some_iff]

omit [DecidableEq U] in
theorem Mapped.cleaned (hm : Mapped m) : Mapped m.cleanUpPorts := by
  refine ⟨fun p hp => ?_, fun uid p h => hm.own uid p (ports_cleanUpPorts.mp h).1⟩
  obtain ⟨uid, hd, hu⟩ := hm.finds p hp
  exact ⟨uid, hd, ports_cleanUpPorts.mpr ⟨hu, hp⟩⟩

theorem Mapped.added (hm : Mapped m) {uid : U} (hu : m.ports uid = none) :
    Mapped (m.addPort uid) := by
  refine ⟨fun p hp => ?_, fun u p h => ?_⟩
  · obtain ⟨u, hd, hu'⟩ := hm.finds p hp
    have hne : u ≠ uid := by
      rintro rfl
      cases hu.symm.trans hu'
    exact ⟨u, by grind [addPort], (Function.update_of_ne hne ..).trans hu'⟩
  · rcases eq_or_ne u uid with rfl | hne
    · obtain rfl : m.destinations.length = p := by simpa [addPort, hu] using h
      exact getElem?_concat_length
    · have ho := hm.own u p ((Function.update_of_ne hne ..).symm.trans h)
      grind [addPort]

/-- The port is the one in the map, and a new one is made where none is alive. -/
theorem getOrCreatePort_spec (hm : Mapped m) (uid : U) :
    ∃ n p isNew, m.getOrCreatePort uid = (n, p, isNew) ∧ Mapped n ∧ n.ports uid = some p ∧
      n.handling = m.handling ∧ n.announced = m.announced ∧
      (isNew = false ∧ Alive m uid p ∨ isNew = true ∧ ∀ q, ¬ Alive m uid q) := by
  rw [getOrCreatePort]
  rcases hp : m.cleanUpPorts.ports uid with _ | p
  · refine ⟨_, _, _, rfl, hm.cleaned.added hp, by simp [addPort, hp], rfl, rfl,
      .inr ⟨rfl, fun q hq => ?_⟩⟩
    cases hp.symm.trans (ports_cleanUpPorts.mpr ⟨hm.ports_of_alive hq, hq.1⟩)
  · obtain ⟨hu, hh⟩ := ports_cleanUpPorts.mp hp
    simp only [Option.filter, decide_eq_true (show p ∈ m.cleanUpPorts.held from hh)]
    exact ⟨_, _, _, rfl, hm.cleaned, hp, rfl, rfl, .inl ⟨rfl, hh, hm.own uid p hu⟩⟩

theorem Mapped.newMessage (hm : Mapped m) (uid : U) (data : D) :
    Mapped (m.step (.newMessageReceived uid data)) ∧ Routes m (.newMessageReceived uid data) := by
  obtain ⟨n, p, isNew, hg, hn, hp, hl, ha, hi⟩ := getOrCreatePort_spec hm uid
  have hk : Mapped { n with
      handling := (p, data, false) :: n.handling
      announced := if isNew then n.announced ++ [p] else n.announced } := by
    refine hn.of_held rfl rfl fun q hq => ?_
    simp only [held, map_cons, mem_append, mem_cons] at hq ⊢
    rcases hq with hq | rfl | hq
    · exact .inl (.inl hq)
    · exact .inr ⟨uid, hp⟩
    · exact .inl (.inr hq)
  simp only [Routes, P2pMessageStreamManager.step, hg]
  refine ⟨hk, p, by rw [hl], fun q => ⟨fun hq => ?_, ?_⟩, ?_⟩
  · exact Option.some.inj ((hk.ports_of_alive hq).symm.trans hp)
  · rintro rfl
    exact ⟨by simp [held], hk.own uid q hp⟩
  · rcases hi with ⟨rfl, hi⟩ | ⟨rfl, hi⟩
    · exact .inl ⟨ha, hi⟩
    · exact .inr ⟨by rw [← ha]; rfl, hi⟩

theorem Mapped.step (hm : Mapped m) (e : Event U D) : Mapped (m.step e) := by
  cases e with
  | newMessageReceived uid data => exact (hm.newMessage uid data).1
  | createPort uid =>
    obtain ⟨n, p, isNew, hg, hn, hp, -⟩ := getOrCreatePort_spec hm uid
    rw [P2pMessageStreamManager.step, hg]
    refine hn.of_held rfl rfl fun q hq => ?_
    rcases mem_cons.mp hq with rfl | hq
    · exact .inr ⟨uid, hp⟩
    · exact .inl hq
  | reset k =>
    refine hm.of_held rfl rfl fun q hq => .inl ?_
    rcases mem_append.mp hq with hq | hq
    · exact mem_append_left _ (mem_of_mem_eraseIdx hq)
    · exact mem_append_right _ hq
  | deliver | returns =>
    rw [P2pMessageStreamManager.step]
    split
    · next he =>
      refine hm.of_held rfl rfl fun q hq => .inl ?_
      simp only [held, he, map_cons, mem_append, mem_cons] at hq ⊢
      grind
    · exact hm

end

/-- Whatever happens meanwhile, also in the handlers, at most one port is alive for a uid, and each
message is handled with that one; a port is announced when it is made for a message. -/
theorem messages_reach_one_port (events : List (Event U D)) :
    Along step Routes (start : P2pMessageStreamManager U D) events ∧
      Always step (fun m => ∀ uid p q, Alive m uid p → Alive m uid q → p = q) start events := by
  have hs : Mapped (start : P2pMessageStreamManager U D) := ⟨nofun, nofun⟩
  refine ⟨Along.of_invariant (G := fun _ _ => True) (fun m e hm _ => hm.step e)
    (fun m e hm _ => ?_) hs along_true, Always.of_invariant (G := fun _ _ => True)
    (fun m e hm _ => hm.step e) (fun m hm uid p q hp hq => ?_) hs along_true⟩
  · cases e with
    | newMessageReceived uid data => exact (hm.newMessage uid data).2
    | createPort | reset | deliver | returns => trivial
  · exact Option.some.inj ((hm.ports_of_alive hp).symm.trans (hm.ports_of_alive hq))

end Ae.ClientMessages.Ports
