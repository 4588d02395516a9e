/- source: connection_manager/client_cloud_manager.cpp, aether.cpp
   digest: Known and resolved servers are joined in the order of the config. -/

import Ae.AeActions.GetServers
import Ae.CloudConnections.Selecting

set_option autoImplicit false

namespace Ae.ConnectionManager.ServerResolution
open List AeActions.GetServers
open CloudConnections.Selecting (Sorting insertionSorting)
open ServerDescriptor

variable {A P : Type}

structure Endpoint (A P : Type) where
  address : A
  port : Nat
  protocol : P

structure Server (A P : Type) where
  serverId : Nat
  endpoints : List (Endpoint A P)

/-- The servers of `Aether`, each stored under its own id. -/
structure Aether (A P : Type) where
  servers : Nat → Option (Server A P)
  keyed : ∀ sid server, servers sid = some server → server.serverId = sid

namespace Aether

def getServer (a : Aether A P) (sid : Nat) : Option (Server A P) := a.servers sid

theorem update_keyed (a : Aether A P) (s : Server A P) (sid : Nat) (se : Server A P)
    (hf : Function.update a.servers s.serverId (some s) sid = some se) :
    se.serverId = sid := by
  by_cases same : sid = s.serverId
  · rw [same, Function.update_self] at hf
    rw [same, Option.some.inj hf]
  · rw [Function.update_of_ne same] at hf
    exact a.keyed sid se hf

/-- `std::map::insert` keeps an entry that is there. -/
def storeServer (a : Aether A P) (s : Server A P) : Aether A P :=
  match a.servers s.serverId with
  | some _ => a
  | none => ⟨Function.update a.servers s.serverId (some s), a.update_keyed s⟩

end Aether

def makeEndpoints (sd : ServerDescriptor A P) : List (Endpoint A P) :=
  sd.ips.flatMap fun ip => ip.protocolAndPorts.map fun pp => ⟨ip.ip, pp.port, pp.protocol⟩

def buildNewServer (built : Aether A P × List (Server A P)) (sd : ServerDescriptor A P) :
    Aether A P × List (Server A P) :=
  match built.1.getServer sd.serverId with
  | some s => (built.1, built.2 ++ [s])
  | none =>
    let s := ⟨sd.serverId, makeEndpoints sd⟩
    (built.1.storeServer s, built.2 ++ [s])

def buildNewServers (a : Aether A P) (servers : List (Server A P))
    (serverDescriptors : List (ServerDescriptor A P)) : Aether A P × List (Server A P) :=
  serverDescriptors.foldl buildNewServer (a, servers)

def splitMissingLoaded (a : Aether A P) (sids : List Nat) : List (Server A P) × List Nat :=
  (sids.filterMap a.getServer, sids.filter fun sid => (a.getServer sid).isNone)

/-- `LoadMissing`, from the descriptors that reach its `GetServersAction`; the servers are built
in the `Aether` of that later time. There is no result before the action has one. -/
def loadMissing (a later : Aether A P) (servers : List (Server A P)) (missing : List Nat)
    (received : List (ServerDescriptor A P)) : Option (Aether A P × List (Server A P)) :=
  if missing = [] then some (a, servers)
  else (GetServersAction.receive missing received).results.head?.map (buildNewServers later servers)

def sortNewServers (sorting : Sorting (Server A P)) (sids : List Nat)
    (servers : List (Server A P)) : List (Server A P) :=
  sorting.sort (fun server => sids.idxOf server.serverId) servers

def makeServers (sorting : Sorting (Server A P)) (a later : Aether A P) (sids : List Nat)
    (received : List (ServerDescriptor A P)) : Option (List (Server A P)) :=
  let split := splitMissingLoaded a sids
  (loadMissing a later split.1 split.2 received).map fun built =>
    sortNewServers sorting sids built.2

def serverIds (servers : List (Server A P)) : List Nat := servers.map Server.serverId

variable {a later : Aether A P} {sids : List Nat} {servers : List (Server A P)}

theorem serverIds_buildNewServer (b : Aether A P × List (Server A P)) (sd : ServerDescriptor A P) :
    serverIds (buildNewServer b sd).2 = serverIds b.2 ++ [sd.serverId] := by
  rw [buildNewServer]
  split
  · next s found =>
    rw [← b.1.keyed _ s found]
    exact map_append
  · exact map_append

variable (later servers) in
theorem serverIds_buildNewServers (sed : List (ServerDescriptor A P)) :
    serverIds (buildNewServers later servers sed).2 = serverIds servers ++ sed.map serverId := by
  induction sed generalizing later servers with
  | nil => exact (append_nil _).symm
  | cons sd rest ih =>
    have ht : buildNewServers later servers (sd :: rest) =
        buildNewServers (buildNewServer (later, servers) sd).1
          (buildNewServer (later, servers) sd).2 rest := rfl
    rw [ht, ih, serverIds_buildNewServer, append_assoc]
    rfl

variable (a sids) in
theorem serverIds_loaded : serverIds (splitMissingLoaded a sids).1 =
    sids.filter fun sid => !(a.getServer sid).isNone := by
  induction sids with
  | nil => rfl
  | cons sid sids ih =>
    rw [splitMissingLoaded, serverIds] at ih ⊢
    cases found : a.getServer sid with
    | none =>
      rw [filterMap_cons_none found, ih]
      simp [found]
    | some s =>
      rw [filterMap_cons_some found, map_cons, ih, a.keyed sid s found]
      simp [found]

variable (a sids) in
theorem joined_perm {ans : List Nat} (hc : ans.Perm (splitMissingLoaded a sids).2) :
    (serverIds (splitMissingLoaded a sids).1 ++ ans).Perm sids := by
  rw [serverIds_loaded]
  refine (hc.append_left _).trans (perm_append_comm.trans ?_)
  exact filter_append_perm (fun sid => (a.getServer sid).isNone) sids

theorem pairwise_idxOf (hd : sids.Nodup) :
    sids.Pairwise fun l right => sids.idxOf l ≤ sids.idxOf right := by
  refine pairwise_iff_getElem.mpr fun i j _ _ hb => ?_
  rw [hd.idxOf_getElem, hd.idxOf_getElem]
  exact hb.le

theorem sortNewServers_perm (s : Sorting (Server A P)) (sids : List Nat)
    (servers : List (Server A P)) :
    (serverIds (sortNewServers s sids servers)).Perm (serverIds servers) :=
  (s.perm _ servers).map Server.serverId

theorem serverIds_sortNewServers (s : Sorting (Server A P)) (hd : sids.Nodup)
    (hc : (serverIds servers).Perm sids) :
    serverIds (sortNewServers s sids servers) = sids := by
  have hp := (sortNewServers_perm s sids servers).trans hc
  have ho : (serverIds (sortNewServers s sids servers)).Pairwise
      fun l right => sids.idxOf l ≤ sids.idxOf right :=
    pairwise_map.mpr (s.ordered _ servers)
  refine hp.eq_of_pairwise (fun l right hm _ le ge => ?_) ho (pairwise_idxOf hd)
  exact (idxOf_inj (hp.subset hm)).mp (le.antisymm ge)

section

variable {received : List (ServerDescriptor A P)}

theorem receive_missing {missing : List Nat} (hn : missing ≠ []) (hd : missing.Nodup)
    (har : (received.map serverId).Perm missing) :
    ∃ r, (GetServersAction.receive missing received).results = [r] ∧
      (r.map serverId).Perm missing := by
  have hc := collected_receive hn received
  have ha : Answered missing received := fun _ => har.mem_iff.mpr
  have hf := hc.full_of_answered hd ha
  exact ⟨_, hc.full hf, hc.perm_of_full hf⟩

variable (later) in
theorem loadMissing_complete (hd : sids.Nodup)
    (ha : (received.map serverId).Perm (splitMissingLoaded a sids).2) :
    ∃ b, loadMissing a later (splitMissingLoaded a sids).1 (splitMissingLoaded a sids).2
        received = some b ∧ (serverIds b.2).Perm sids := by
  rw [loadMissing]
  split
  · next allKnown =>
    refine ⟨_, rfl, ?_⟩
    have hj := joined_perm a sids ha
    rw [allKnown] at ha
    rwa [ha.eq_nil, append_nil] at hj
  · next hn =>
    have hm : (splitMissingLoaded a sids).2.Nodup := hd.filter _
    obtain ⟨r, hr, hc⟩ := receive_missing hn hm ha
    rw [hr]
    refine ⟨_, rfl, ?_⟩
    rw [serverIds_buildNewServers]
    exact joined_perm a sids hc

/-- Whatever was known before and in whatever order the missing servers arrive, the resolved
servers have the ids of the config, in its order. -/
theorem resolved_servers_keep_order (sorting : Sorting (Server A P)) (a later : Aether A P)
    (sids : List Nat) (distinct : sids.Nodup) (received : List (ServerDescriptor A P))
    (arrived : (received.map serverId).Perm (splitMissingLoaded a sids).2) :
    ∃ servers, makeServers sorting a later sids received = some servers ∧
      serverIds servers = sids := by
  obtain ⟨b, hl, hc⟩ := loadMissing_complete later distinct arrived
  exact ⟨_, congrArg (Option.map _) hl, serverIds_sortNewServers sorting distinct hc⟩

def noServers : Aether Nat Nat :=
  ⟨fun _ => none, fun _ server found => (Option.some_ne_none server found.symm).elim⟩

theorem resolved_three_servers :
    ∃ servers, makeServers (insertionSorting (Server Nat Nat)) (noServers.storeServer ⟨1, []⟩)
        noServers [3, 1, 2] [⟨2, []⟩, ⟨3, []⟩] = some servers ∧ serverIds servers = [3, 1, 2] :=
  resolved_servers_keep_order (insertionSorting (Server Nat Nat))
    (noServers.storeServer ⟨1, []⟩) noServers [3, 1, 2] (by decide) [⟨2, []⟩, ⟨3, []⟩] (by decide)

end

end Ae.ConnectionManager.ServerResolution
