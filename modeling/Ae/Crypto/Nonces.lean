/- source: server_connections/client_server_connection.cpp,
     {server_keys,client,aether_app}.cpp, crypto/crypto_nonce.cpp
   digest: Nonces stay distinct under one key as long as no stop loses an advance of the counter. -/

import Ae.Lib.EventRun
import Mathlib.Algebra.Group.Nat.Defs
import Mathlib.Data.List.Nodup
import Mathlib.Logic.Function.Basic

set_option autoImplicit false

namespace Ae.Crypto.Nonces
open List Lib.EventRun

variable {S K : Type} [DecidableEq S]

/-- `ServerKeys`. The nonce of both ciphers is a 64-bit counter. -/
structure ServerKeys (S K : Type) where
  serverId : S
  masterKey : K
  keyNumber : Nat
  nonce : BitVec 64
  clientToServerKey : K
  serverToClientKey : K

structure Client (S K : Type) where
  masterKey : K
  serverKeys : S → Option (ServerKeys S K)

structure Encryption (S K : Type) where
  server : S
  key : K
  nonce : BitVec 64
  deriving DecidableEq

/-- A running application: the client in memory, the client as the storage holds it, and the
encryptions of all its runs as a history. -/
structure AetherApp (S K : Type) where
  client : Client S K
  stored : Client S K
  encryptions : List (Encryption S K)

/-- Events that may have to create an entry carry the random nonce drawn for it. `exit` is the
destructor of `AetherApp` and the next start, `stop` a start after an abrupt end. -/
inductive Event (S : Type) where
  | getKey (server : S) (random : BitVec 64)
  | encrypt (server : S) (random : BitVec 64)
  | save
  | exit
  | stop

section

-- `CryptoSyncKeyDerive`: the key to the server and the key from it.
variable (derive : K → S → Nat → K × K)

namespace ServerKeys

def create (serverId : S) (masterKey : K) (random : BitVec 64) : ServerKeys S K :=
  { serverId := serverId
    masterKey := masterKey
    keyNumber := 0
    nonce := random + 1
    clientToServerKey := (derive masterKey serverId 0).1
    serverToClientKey := (derive masterKey serverId 0).2 }

def next (keys : ServerKeys S K) : ServerKeys S K := { keys with nonce := keys.nonce + 1 }

end ServerKeys

namespace Client

variable (client : Client S K)

def serverState (server : S) (random : BitVec 64) : ServerKeys S K :=
  (client.serverKeys server).getD (.create derive server client.masterKey random)

def put (server : S) (keys : ServerKeys S K) : Client S K :=
  { client with serverKeys := Function.update client.serverKeys server (some keys) }

def getKey (server : S) (random : BitVec 64) : Client S K × K :=
  let keys := client.serverState derive server random
  (client.put server keys, keys.clientToServerKey)

def nonce (server : S) (random : BitVec 64) : Client S K × BitVec 64 :=
  let keys := (client.serverState derive server random).next
  (client.put server keys, keys.nonce)

end Client

namespace AetherApp

variable (s : AetherApp S K)

def encrypt (server : S) (random : BitVec 64) : AetherApp S K :=
  let keyed := s.client.getKey derive server random
  let counted := keyed.1.nonce derive server random
  { s with
    client := counted.1
    encryptions := s.encryptions ++ [⟨server, keyed.2, counted.2⟩] }

def save : AetherApp S K := { s with stored := s.client }

def load : AetherApp S K := { s with client := s.stored }

def step : Event S → AetherApp S K
  | .getKey server random => { s with client := (s.client.getKey derive server random).1 }
  | .encrypt server random => s.encrypt derive server random
  | .save => s.save
  | .exit => s.save.load
  | .stop => s.load

def start (client stored : Client S K) : AetherApp S K := ⟨client, stored, []⟩

def encryptionsFor (server : S) : List (Encryption S K) :=
  s.encryptions.filter fun e => e.server = server

end AetherApp

end

def NeverReused (server : S) (s : AetherApp S K) : Prop :=
  s.encryptions.length < 2 ^ 64 → ((s.encryptionsFor server).map fun e => (e.key, e.nonce)).Nodup

/-- An abrupt stop finds the server's entry in the storage as it is in memory, unless nothing
has been encrypted for the server. -/
def StopsSaved (server : S) (s : AetherApp S K) : Event S → Prop
  | .stop => s.stored.serverKeys server = s.client.serverKeys server ∨ s.encryptionsFor server = []
  | _ => True

section

variable {derive : K → S → Nat → K × K} {s : AetherApp S K} {server : S}

def counted (server : S) (key : K) (base : BitVec 64) (k : Nat) : List (Encryption S K) :=
  (List.range k).map fun i => ⟨server, key, base + BitVec.ofNat 64 (i + 1)⟩

structure Counts (server : S) (s : AetherApp S K) (keys : ServerKeys S K) (base : BitVec 64)
    (k : Nat) : Prop where
  entry : s.client.serverKeys server = some keys
  used : s.encryptionsFor server = counted server keys.clientToServerKey base k
  counter : keys.nonce = base + BitVec.ofNat 64 k

def Counted (server : S) (s : AetherApp S K) : Prop :=
  s.encryptionsFor server = [] ∨ ∃ keys base k, Counts server s keys base k

omit [DecidableEq S] in
theorem counted_succ (key : K) (base : BitVec 64) (k : Nat) :
    counted server key base (k + 1) =
      counted server key base k ++ [⟨server, key, base + BitVec.ofNat 64 (k + 1)⟩] := by
  rw [counted, range_succ, map_append]
  rfl

omit [DecidableEq S] in
theorem nodup_counted (key : K) (base : BitVec 64) {k : Nat} (hf : k < 2 ^ 64) :
    ((counted server key base k).map fun e => (e.key, e.nonce)).Nodup := by
  rw [counted, map_map]
  refine Nodup.map_on (fun i hi j hj he => ?_) nodup_range
  have hi := mem_range.mp hi
  have hj := mem_range.mp hj
  have ho := congrArg BitVec.toNat (BitVec.add_right_inj base |>.mp (Prod.mk.inj he).2)
  rw [BitVec.toNat_ofNat, BitVec.toNat_ofNat, Nat.mod_eq_of_lt (by omega),
    Nat.mod_eq_of_lt (by omega)] at ho
  exact Nat.succ.inj ho

theorem Counted.neverReused (hc : Counted server s) : NeverReused server s := by
  intro hf
  obtain hn | ⟨ke, base, k, hc⟩ := hc
  · rw [hn]
    exact nodup_nil
  · have hl : (s.encryptionsFor server).length = k := by
      rw [hc.used, counted, length_map, length_range]
    have hw : (s.encryptionsFor server).length ≤ s.encryptions.length :=
      length_filter_le ..
    rw [hc.used]
    exact nodup_counted _ base (by omega)

theorem Counted.of_same {t : AetherApp S K} (hc : Counted server s)
    (hu : t.encryptionsFor server = s.encryptionsFor server)
    (he : ∀ ke, s.client.serverKeys server = some ke →
      t.client.serverKeys server = some ke) : Counted server t := by
  obtain hn | ⟨ke, base, k, hc⟩ := hc
  · exact .inl (hu.trans hn)
  · exact .inr ⟨ke, base, k, he ke hc.entry, hu.trans hc.used, hc.counter⟩

theorem put_same (client : Client S K) (keys : ServerKeys S K) :
    (client.put server keys).serverKeys server = some keys :=
  Function.update_self ..

theorem put_other {o : S} (client : Client S K) (k : ServerKeys S K) (hn : server ≠ o) :
    (client.put o k).serverKeys server = client.serverKeys server :=
  Function.update_of_ne hn ..

theorem getKey_entry {client : Client S K} {keys : ServerKeys S K} (o : S)
    (r : BitVec 64) (he : client.serverKeys server = some keys) :
    (client.getKey derive o r).1.serverKeys server = some keys := by
  by_cases hs : server = o
  · have hf : client.serverState derive server r = keys := by
      rw [Client.serverState, he]
      rfl
    rw [← hs, Client.getKey, hf]
    exact put_same client keys
  · exact (put_other client _ hs).trans he

variable (derive s server) in
theorem encrypt_self (r : BitVec 64) :
    let keys := s.client.serverState derive server r
    (s.encrypt derive server r).client.serverKeys server = some keys.next ∧
      (s.encrypt derive server r).encryptionsFor server =
        s.encryptionsFor server ++ [⟨server, keys.clientToServerKey, keys.next.nonce⟩] := by
  intro keys
  -- `Nonce` finds the entry that `GetKey` has just found or created.
  have hf : (s.client.getKey derive server r).1.serverState derive server r =
      keys := by
    rw [Client.serverState, Client.getKey, put_same]
    rfl
  have ha : (s.client.getKey derive server r).1.nonce derive server r =
      ((s.client.getKey derive server r).1.put server keys.next, keys.next.nonce) := by
    rw [Client.nonce, hf]
  constructor
  · rw [AetherApp.encrypt, ha]
    exact put_same _ keys.next
  · rw [AetherApp.encrypt, ha, AetherApp.encryptionsFor, filter_append,
      filter_cons_of_pos (by simp), filter_nil]
    rfl

theorem encrypt_other {o : S} (r : BitVec 64) (hn : server ≠ o) :
    (s.encrypt derive o r).encryptionsFor server = s.encryptionsFor server := by
  rw [AetherApp.encrypt, AetherApp.encryptionsFor, filter_append,
    filter_cons_of_neg (by simpa using hn.symm), filter_nil, append_nil]
  rfl

theorem Counted.encrypt (hc : Counted server s) (r : BitVec 64) :
    Counted server (s.encrypt derive server r) := by
  obtain ⟨he, hu⟩ := encrypt_self derive s server r
  obtain hn | ⟨keys, base, k, hc⟩ := hc
  · -- The first encryption: the counter has stood still until now.
    let keys := s.client.serverState derive server r
    refine .inr ⟨keys.next, keys.nonce, 1, he, ?_, rfl⟩
    rw [hu, hn]
    rfl
  · have hf : s.client.serverState derive server r = keys := by
      rw [Client.serverState, hc.entry]
      rfl
    rw [hf] at he hu
    have hcn : keys.next.nonce = base + BitVec.ofNat 64 (k + 1) := by
      rw [ServerKeys.next, hc.counter, BitVec.add_assoc, BitVec.ofNat_add]
      rfl
    refine .inr ⟨keys.next, base, k + 1, he, ?_, hcn⟩
    rw [hu, hc.used, hcn]
    exact (counted_succ _ base k).symm

theorem Counted.step (hc : Counted server s) {e : Event S} (hsv : StopsSaved server s e) :
    Counted server (s.step derive e) := by
  cases e with
  | getKey o r =>
    exact hc.of_same rfl fun k he => getKey_entry o r he
  | encrypt o r =>
    by_cases hs : server = o
    · rw [← hs]
      exact hc.encrypt r
    · refine hc.of_same (encrypt_other r hs) fun k he => ?_
      exact (put_other _ _ hs).trans (getKey_entry o r he)
  | save | exit => exact hc.of_same rfl fun _ he => he
  | stop =>
    obtain hu | nothing := hsv
    · exact hc.of_same rfl fun k he => hu.trans he
    · exact .inl nothing

/-- As long as no abrupt stop loses an advance of the server's counter, no nonce is used twice
under the key to the server. -/
theorem nonces_never_reused (client stored : Client S K) (events : List (Event S))
    (saved : Along (AetherApp.step derive) (StopsSaved server) (.start client stored) events) :
    Always (AetherApp.step derive) (NeverReused server) (.start client stored) events :=
  Always.of_invariant (I := Counted server) (fun _ _ hc saved => hc.step saved)
    (fun _ hc => hc.neverReused) (.inl rfl) saved

def deriveSum (masterKey server number : Nat) : Nat × Nat :=
  (masterKey + server + number, masterKey + server + number + 1)

def savedStop : List (Event Nat) :=
  [.encrypt 1 5, .encrypt 1 0, .exit, .encrypt 1 0, .save, .stop, .encrypt 1 0]

def newClient : Client Nat Nat := ⟨10, fun _ => none⟩

theorem nonces_never_reused_savedStop :
    (run (AetherApp.step deriveSum) (.start newClient newClient) savedStop).encryptionsFor 1 =
        [⟨1, 11, 7⟩, ⟨1, 11, 8⟩, ⟨1, 11, 9⟩, ⟨1, 11, 10⟩] ∧
      Always (AetherApp.step deriveSum) (NeverReused 1) (.start newClient newClient) savedStop :=
  ⟨by decide, nonces_never_reused newClient newClient savedStop
    ⟨trivial, trivial, trivial, trivial, trivial, .inl rfl, trivial, trivial⟩⟩

def lostAdvance : List (Event Nat) :=
  [.encrypt 1 5, .save, .encrypt 1 0, .stop, .encrypt 1 0]

/-- The reloaded counter is one behind and the next encryption repeats a nonce. -/
theorem nonce_repeats_after_stop :
    (run (AetherApp.step deriveSum) (.start newClient newClient) lostAdvance).encryptionsFor 1 =
        [⟨1, 11, 7⟩, ⟨1, 11, 8⟩, ⟨1, 11, 8⟩] ∧
      ¬ NeverReused 1
        (run (AetherApp.step deriveSum) (.start newClient newClient) lostAdvance) := by
  have hu : (run (AetherApp.step deriveSum) (.start newClient newClient)
      lostAdvance).encryptionsFor 1 = [⟨1, 11, 7⟩, ⟨1, 11, 8⟩, ⟨1, 11, 8⟩] := by
    decide
  refine ⟨hu, fun hun => ?_⟩
  have hd := hun (by decide)
  rw [hu] at hd
  exact absurd hd (by decide)

end

end Ae.Crypto.Nonces
