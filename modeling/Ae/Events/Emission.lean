/- source: events/{event_list.{h,cpp},events.h}
   digest: An emission goes through the handlers subscribed at its start, as long as they stay
     and the counter of active emissions does not wrap. -/

import Mathlib.Data.List.DropRight
import Mathlib.Data.List.Nodup

set_option autoImplicit false

namespace Ae.Events.Emission
open List

/-- `StoreType`: the node of a handler. Nodes are numbered in the order of their insertion, and
the number stands for the iterator that an `Index` holds. -/
structure Handler where
  id : Nat
  alive : Bool
deriving DecidableEq

variable {handlers : List Handler}

theorem ascending_insert {n : Nat} (ha : (handlers.map Handler.id).Pairwise (· < ·))
    (hf : ∀ h ∈ handlers, h.id < n) :
    ((handlers ++ [Handler.mk n true]).map Handler.id).Pairwise (· < ·) := by
  rw [map_append, pairwise_append]
  refine ⟨ha, by simp, fun id ho o hn => ?_⟩
  obtain ⟨h, hm, rfl⟩ := mem_map.mp ho
  rw [mem_singleton.mp hn]
  exact hf h hm

theorem fresh_insert {n : Nat} (hf : ∀ h ∈ handlers, h.id < n) :
    ∀ h ∈ handlers ++ [Handler.mk n true], h.id < n + 1 := by
  intro h hm
  rcases mem_append.mp hm with ho | new
  · exact Nat.lt_succ_of_lt (hf h ho)
  · rw [mem_singleton.mp new]
    exact Nat.lt_succ_self n

def kill (id : Nat) (h : Handler) : Handler := if h.id = id then { h with alive := false } else h

theorem kill_id (id : Nat) (h : Handler) : (kill id h).id = h.id := by
  rw [kill]
  split <;> rfl

theorem map_kill_id (id : Nat) (handlers : List Handler) :
    (handlers.map (kill id)).map Handler.id = handlers.map Handler.id := by
  rw [map_map]
  exact map_congr_left fun h _ => kill_id id h

theorem ascending_kill (id : Nat) (ha : (handlers.map Handler.id).Pairwise (· < ·)) :
    ((handlers.map (kill id)).map Handler.id).Pairwise (· < ·) :=
  (map_kill_id id handlers).symm ▸ ha

theorem fresh_kill {next : Nat} (id : Nat) (hf : ∀ h ∈ handlers, h.id < next) :
    ∀ h ∈ handlers.map (kill id), h.id < next := by
  rw [forall_mem_map]
  exact fun h hm => (kill_id id h).symm ▸ hf h hm

/-- What `CleanUp` leaves: the dead handlers at the end go, unless all are dead. -/
def trim (handlers : List Handler) : List Handler :=
  if handlers.any Handler.alive then handlers.rdropWhile fun h => !h.alive else handlers

theorem trim_sublist (handlers : List Handler) : (trim handlers).Sublist handlers := by
  rw [trim]
  split
  · exact ( rdropWhile_prefix _ handlers).sublist
  · exact Sublist.refl handlers

inductive Act where
  | invoked (id : Nat)
  | unsubscribed (id : Nat)
deriving DecidableEq

/-- `EventHandlersList`. `use_counter_` is a `std::atomic_int16_t`, which wraps; it is compared
with 0 only, so it stands here as the residue. What happened to the handlers is a history, oldest
first. -/
structure EventHandlersList where
  handlers : List Handler
  useCounter : Nat
  next : Nat
  history : List Act
  ascending : (handlers.map Handler.id).Pairwise (· < ·)
  fresh : ∀ h ∈ handlers, h.id < next

namespace EventHandlersList

def empty : EventHandlersList := ⟨[], 0, 0, [], List.Pairwise.nil, forall_mem_nil _⟩

variable (s : EventHandlersList)

def insert : EventHandlersList :=
  ⟨s.handlers ++ [⟨s.next, true⟩], s.useCounter, s.next + 1, s.history,
    ascending_insert s.ascending s.fresh, fresh_insert s.fresh⟩

/-- `Remove`, of a handler that was inserted. A subscription removes its handler once, so the
node of a handler that is removed again is not looked for. -/
def remove (id : Nat) : EventHandlersList :=
  if id < s.next then
    ⟨s.handlers.map (kill id), s.useCounter, s.next, s.history ++ [.unsubscribed id],
      ascending_kill id s.ascending, fresh_kill id s.fresh⟩
  else s

def cleanUp : EventHandlersList :=
  if s.useCounter = 0 then
    ⟨trim s.handlers, s.useCounter, s.next, s.history,
      s.ascending.sublist ((trim_sublist s.handlers).map _),
      fun h member => s.fresh h ((trim_sublist s.handlers).subset member)⟩
  else s

def acquire : EventHandlersList :=
  { s with useCounter := if s.useCounter = 65535 then 0 else s.useCounter + 1 }

def release : EventHandlersList :=
  cleanUp { s with useCounter := if s.useCounter = 0 then 65535 else s.useCounter - 1 }

def invoke (id : Nat) : EventHandlersList :=
  { s with history := s.history ++ [.invoked id] }

/-- The loop of `EmitImpl` over the next `left` positions. `operator++` skips a handler that is
dead, and it looks at a handler when the one before it has returned. -/
def visit (run : Nat → EventHandlersList → EventHandlersList) :
    Nat → Nat → EventHandlersList → EventHandlersList
  | 0, _, s => s
  | left + 1, index, s =>
    match s.handlers[index]? with
    | none => s
    | some h =>
      if h.alive then visit run left (index + 1) (run h.id (s.invoke h.id))
      else visit run left (index + 1) s

/-- `Emit`: the size of the list is taken at the start, as a `std::uint16_t`. -/
def emit (run : Nat → EventHandlersList → EventHandlersList) (s : EventHandlersList) :
    EventHandlersList :=
  (visit run (s.handlers.length % 65536) 0 s.acquire).release

def subscribed : List Nat :=
  (s.handlers.filter Handler.alive).map Handler.id

end EventHandlersList

open EventHandlersList

/-- What a handler does in one invocation: it subscribes, unsubscribes, and emits, where every
handler that is invoked by the inner emission does something of its own. -/
inductive Prog where
  | done
  | subscribe (rest : Prog)
  | unsubscribe (id : Nat) (rest : Prog)
  | emit (body : Nat → Prog) (rest : Prog)

def exec : Prog → EventHandlersList → EventHandlersList
  | .done, s => s
  | .subscribe rest, s => exec rest s.insert
  | .unsubscribe id rest, s => exec rest (s.remove id)
  | .emit body rest, s => exec rest (s.emit fun id => exec (body id))

/-- At most `depth` emissions of the program are active at once. -/
def Shallow : Nat → Prog → Prop
  | _, .done => True
  | depth, .subscribe rest => Shallow depth rest
  | depth, .unsubscribe _ rest => Shallow depth rest
  | depth, .emit body rest =>
    0 < depth ∧ (∀ id, Shallow (depth - 1) (body id)) ∧ Shallow depth rest

def turn (run : Nat → EventHandlersList → EventHandlersList) (s : EventHandlersList) (id : Nat) :
    EventHandlersList :=
  if id ∈ s.subscribed then run id (s.invoke id) else s

def SilentAfter (history : List Act) : Prop :=
  history.Pairwise fun earlier later =>
    ∀ id, earlier = .unsubscribed id → later ≠ .invoked id

variable {run : Nat → EventHandlersList → EventHandlersList} {depth : Nat}

section

variable {s t u : EventHandlersList}

/-- The positions are kept: no handler is erased, dead ones stay dead, and the new ones stand
behind. -/
structure Extends (s t : EventHandlersList) : Prop where
  useCounter : t.useCounter = s.useCounter
  added : ∃ count, t.next = s.next + count ∧
    t.handlers.map Handler.id = s.handlers.map Handler.id ++ range' s.next count
  kept : ∀ (i : Nat) (h : Handler), s.handlers[i]? = some h →
    ∃ k, t.handlers[i]? = some k ∧ k.id = h.id ∧ (k.alive = true → h.alive = true)

theorem Extends.refl (s : EventHandlersList) : Extends s s :=
  ⟨rfl, ⟨0, rfl, by simp⟩, fun _ h hh => ⟨h, hh, rfl, id⟩⟩

theorem Extends.trans (first : Extends s t) (second : Extends t u) : Extends s u := by
  refine ⟨second.useCounter.trans first.useCounter, ?_, fun i h hh => ?_⟩
  · obtain ⟨m, next, ids⟩ := first.added
    obtain ⟨n, next', ids'⟩ := second.added
    refine ⟨m + n, by omega, ?_⟩
    rw [ids', ids, next, append_assoc, range'_append_1]
  obtain ⟨k, ht, he, ha⟩ := first.kept i h hh
  obtain ⟨k', hlt, he', ha'⟩ := second.kept i k ht
  exact ⟨k', hlt, he'.trans he, fun hl => ha (ha' hl)⟩

theorem extends_insert (s : EventHandlersList) : Extends s s.insert := by
  refine ⟨rfl, ⟨1, rfl, by simp [EventHandlersList.insert]⟩, fun i h hh => ⟨h, ?_, rfl, id⟩⟩
  obtain ⟨hi, -⟩ := List.getElem?_eq_some_iff.mp hh
  exact (getElem?_append_left hi).trans hh

theorem extends_remove (s : EventHandlersList) (id : Nat) : Extends s (s.remove id) := by
  rw [remove]
  split
  case isFalse => exact Extends.refl s
  refine ⟨rfl, ⟨0, rfl, ?_⟩, fun i h hh => ⟨kill id h, ?_, kill_id id h, fun hl => ?_⟩⟩
  · rw [range'_zero, append_nil]
    exact map_kill_id id s.handlers
  · exact (getElem?_map ..).trans (congrArg _ hh)
  · rw [kill] at hl
    split at hl
    · cases hl
    · exact hl

theorem extends_invoke (s : EventHandlersList) (id : Nat) : Extends s (s.invoke id) :=
  ⟨rfl, (Extends.refl s).added, fun _ h hh => ⟨h, hh, rfl, fun hl => hl⟩⟩

/-- What a handler does keeps the positions while `depth` emissions more do not wrap the
counter. -/
def Keeps (depth : Nat) (run : EventHandlersList → EventHandlersList) : Prop :=
  ∀ s, 0 < s.useCounter → s.useCounter + depth < 65536 → Extends s (run s)

theorem extends_visit (keeps : ∀ id, Keeps depth (run id)) (l i : Nat) :
    Keeps depth (visit run l i) := by
  induction l generalizing i with
  | zero => exact fun s _ _ => Extends.refl s
  | succ l ih =>
    intro s used few
    rw [visit]
    split
    · exact Extends.refl s
    · next h hh =>
      split
      · have ran := (extends_invoke s h.id).trans (keeps h.id (s.invoke h.id) used few)
        exact ran.trans (ih (i + 1) _ (ran.useCounter ▸ used) (ran.useCounter ▸ few))
      · exact ih (i + 1) s used few

theorem extends_emit (keeps : ∀ id, Keeps depth (run id)) : Keeps (depth + 1) (emit run) := by
  intro s used few
  have acquired : s.acquire.useCounter = s.useCounter + 1 := if_neg (by omega)
  have visited := extends_visit keeps (s.handlers.length % 65536) 0 s.acquire (by omega) (by omega)
  have counter := visited.useCounter.trans acquired
  rw [emit, release, counter, if_neg (Nat.succ_ne_zero _), Nat.add_sub_cancel, cleanUp,
    if_neg used.ne']
  exact ⟨rfl, visited.added, visited.kept⟩

theorem extends_exec {p : Prog} (shallow : Shallow depth p) : Keeps depth (exec p) := by
  induction p generalizing depth with
  | done => exact fun s _ _ => Extends.refl s
  | subscribe rest ih =>
    exact fun s used few => (extends_insert s).trans (ih shallow s.insert used few)
  | unsubscribe id rest ih =>
    intro s used few
    have removed := extends_remove s id
    exact removed.trans (ih shallow _ (removed.useCounter ▸ used) (removed.useCounter ▸ few))
  | emit body rest inBody ih =>
    intro s used few
    obtain ⟨some, inner, after⟩ := shallow
    have emitted := extends_emit (fun id => inBody id (inner id)) s used (by omega)
    exact emitted.trans (ih after _ (emitted.useCounter ▸ used) (emitted.useCounter ▸ few))

end

section

variable {s : EventHandlersList}

theorem subscribed_ascending (s : EventHandlersList) : s.subscribed.Pairwise (· < ·) :=
  s.ascending.sublist (filter_sublist.map _)

theorem mem_subscribed_iff {i : Nat} {h : Handler} (hh : s.handlers[i]? = some h) :
    h.id ∈ s.subscribed ↔ h.alive = true := by
  have hm := mem_of_getElem? hh
  constructor
  · intro hs
    obtain ⟨k, ha, he⟩ := mem_map.mp hs
    obtain ⟨ham, ha⟩ := mem_filter.mp ha
    have hd : (s.handlers.map Handler.id).Nodup := s.ascending.imp ne_of_lt
    rwa [inj_on_of_nodup_map hd ham hm he] at ha
  · exact fun ha => mem_map_of_mem (mem_filter.mpr ⟨hm, ha⟩)

/-- The loop from one position on takes the turns of the handlers that were alive at the start:
one that was dead then is dead still. -/
theorem visit_eq_turns (keeps : ∀ id, Keeps depth (run id)) (st : List Handler) (ix : Nat)
    (s : EventHandlersList) (used : 0 < s.useCounter) (few : s.useCounter + depth < 65536)
    (kept : ∀ (i : Nat) (h : Handler), st[i]? = some h →
      ∃ k, s.handlers[i]? = some k ∧ k.id = h.id ∧ (k.alive = true → h.alive = true)) :
    s.visit run (st.drop ix).length ix =
      (((st.drop ix).filter Handler.alive).map Handler.id).foldl (turn run) s := by
  induction rest : st.drop ix generalizing ix s with
  | nil => rfl
  | cons h later ih =>
    have here : st[ix]? = some h := by
      rw [← head?_drop, rest]
      rfl
    have next : st.drop (ix + 1) = later := by
      rw [← tail_drop, rest]
      rfl
    obtain ⟨k, now, same, alive⟩ := kept ix h here
    have subscribed := mem_subscribed_iff now
    rw [length_cons, visit, now]
    dsimp only
    split
    · next lives =>
      have ran := (extends_invoke s k.id).trans (keeps k.id (s.invoke k.id) used few)
      rw [filter_cons_of_pos (alive lives), map_cons, foldl_cons, ← same, turn,
        if_pos (subscribed.mpr lives)]
      refine ih (ix + 1) _ (ran.useCounter ▸ used) (ran.useCounter ▸ few) (fun i h here => ?_) next
      obtain ⟨k, before, same, alive⟩ := kept i h here
      obtain ⟨k', after, same', alive'⟩ := ran.kept i k before
      exact ⟨k', after, same'.trans same, fun lives => alive (alive' lives)⟩
    · next dead =>
      rw [ih (ix + 1) s used few kept next, filter_cons]
      split
      · rw [map_cons, foldl_cons, ← same, turn, if_neg fun live => dead (subscribed.mp live)]
      · rfl

theorem emit_eq_turns (keeps : ∀ id, Keeps depth (run id)) (small : s.handlers.length < 65536)
    (few : s.useCounter + depth + 1 < 65536) :
    s.emit run = (s.subscribed.foldl (turn run) s.acquire).release := by
  have acquired : s.acquire.useCounter = s.useCounter + 1 := if_neg (by omega)
  have turns := visit_eq_turns keeps s.handlers 0 s.acquire (by omega) (by omega)
    (Extends.refl s.acquire).kept
  rw [drop_zero] at turns
  rw [emit, Nat.mod_eq_of_lt small, turns]
  rfl

end

section

variable {P : EventHandlersList → Prop}

/-- What every operation of the list keeps. -/
structure Closed (P : EventHandlersList → Prop) : Prop where
  insert : ∀ s, P s → P s.insert
  remove : ∀ s id, P s → P (s.remove id)
  counter : ∀ (s : EventHandlersList) (c : Nat), P s → P { s with useCounter := c }
  cleanUp : ∀ s, P s → P s.cleanUp
  invoke : ∀ s, ∀ id ∈ s.subscribed, P s → P (s.invoke id)

theorem Closed.visit (closed : Closed P) {run : Nat → EventHandlersList → EventHandlersList}
    (keeps : ∀ id s, P s → P (run id s)) (left index : Nat) (s : EventHandlersList) (hs : P s) :
    P (s.visit run left index) := by
  induction left generalizing index s with
  | zero => exact hs
  | succ left ih =>
    rw [EventHandlersList.visit]
    split
    · exact hs
    · next h here =>
      split
      · next alive =>
        have subscribed := (mem_subscribed_iff here).mpr alive
        exact ih (index + 1) _ (keeps h.id _ (closed.invoke s h.id subscribed hs))
      · exact ih (index + 1) s hs

theorem Closed.exec (closed : Closed P) (p : Prog) (s : EventHandlersList) (hs : P s) :
    P (exec p s) := by
  induction p generalizing s with
  | done => exact hs
  | subscribe rest ih => exact ih _ (closed.insert s hs)
  | unsubscribe id rest ih => exact ih _ (closed.remove s id hs)
  | emit body rest inBody ih =>
    refine ih _ (closed.cleanUp _ (closed.counter _ _ ?_))
    exact closed.visit (fun id => inBody id) _ 0 _ (closed.counter s _ hs)

end

section

variable {s : EventHandlersList}

/-- The handlers that are subscribed are those that were inserted and not removed. -/
structure Recorded (s : EventHandlersList) : Prop where
  known : ∀ id, .unsubscribed id ∈ s.history → id < s.next
  live : ∀ id, id ∈ s.subscribed ↔ id < s.next ∧ .unsubscribed id ∉ s.history
  after : SilentAfter s.history

theorem recorded_empty : Recorded .empty :=
  ⟨fun _ mem => absurd mem not_mem_nil, fun _ => by simp [subscribed, empty], Pairwise.nil⟩

theorem subscribed_insert : s.insert.subscribed = s.subscribed ++ [s.next] := by
  simp [subscribed, EventHandlersList.insert]

theorem mem_subscribed_remove {id : Nat} (known : id < s.next) (other : Nat) :
    other ∈ (s.remove id).subscribed ↔ other ≠ id ∧ other ∈ s.subscribed := by
  rw [remove, if_pos known, subscribed, subscribed]
  constructor
  · intro mem
    obtain ⟨k, alive, rfl⟩ := mem_map.mp mem
    obtain ⟨stored, alive⟩ := mem_filter.mp alive
    obtain ⟨h, before, rfl⟩ := mem_map.mp stored
    rw [kill] at alive ⊢
    split at alive
    · cases alive
    · next hn =>
      rw [if_neg hn]
      exact ⟨hn, mem_map_of_mem (mem_filter.mpr ⟨before, alive⟩)⟩
  · rintro ⟨hn, mem⟩
    obtain ⟨h, alive, rfl⟩ := mem_map.mp mem
    obtain ⟨stored, alive⟩ := mem_filter.mp alive
    have same : kill id h = h := if_neg hn
    refine mem_map_of_mem (mem_filter.mpr ⟨?_, alive⟩)
    exact mem_map.mpr ⟨h, stored, same⟩

theorem filter_trim (handlers : List Handler) :
    (trim handlers).filter Handler.alive = handlers.filter Handler.alive := by
  rw [trim]
  split
  · conv_rhs => rw [← rdropWhile_append_rtakeWhile (p := fun h => !h.alive) (l := handlers),
      filter_append]
    have dead : (handlers.rtakeWhile fun h => !h.alive).filter Handler.alive = [] :=
      filter_eq_nil_iff.mpr fun h mem => by simpa using mem_rtakeWhile_imp mem
    rw [dead, append_nil]
  · rfl

theorem subscribed_cleanUp : s.cleanUp.subscribed = s.subscribed := by
  rw [cleanUp]
  split
  · exact congrArg (map Handler.id) (filter_trim s.handlers)
  · rfl

theorem cleanUp_history : s.cleanUp.history = s.history ∧ s.cleanUp.next = s.next := by
  rw [cleanUp]
  split <;> exact ⟨rfl, rfl⟩

theorem recorded_closed : Closed Recorded where
  insert s h := by
    refine ⟨fun id mem => Nat.lt_succ_of_lt (h.known id mem), fun id => ?_, h.after⟩
    have fresh : .unsubscribed s.next ∉ s.history := fun mem => (h.known _ mem).false
    rw [subscribed_insert, mem_append, h.live, mem_singleton]
    change _ ↔ id < s.next + 1 ∧ .unsubscribed id ∉ s.history
    grind
  remove s id h := by
    by_cases known : id < s.next
    · have history : (s.remove id).history = s.history ++ [.unsubscribed id] := by
        rw [remove, if_pos known]
      have next : (s.remove id).next = s.next := by rw [remove, if_pos known]
      refine ⟨fun other mem => ?_, fun other => ?_, ?_⟩
      · have := h.known other
        rw [history] at mem
        grind
      · rw [mem_subscribed_remove known, h.live, history, next]
        grind
      · rw [history, SilentAfter, pairwise_append]
        refine ⟨h.after, pairwise_singleton _ _, fun _ _ later new _ _ => ?_⟩
        rw [mem_singleton.mp new]
        exact Act.noConfusion
    · rwa [remove, if_neg known]
  counter s c h := ⟨h.known, h.live, h.after⟩
  cleanUp s h := by
    obtain ⟨history, next⟩ := cleanUp_history (s := s)
    refine ⟨?_, fun id => ?_, ?_⟩
    · rw [history, next]
      exact h.known
    · rw [subscribed_cleanUp, history, next]
      exact h.live id
    · rw [history]
      exact h.after
  invoke s id subscribed h := by
    refine ⟨fun other mem => h.known other (by simpa [invoke] using mem), fun other => ?_, ?_⟩
    · refine (h.live other).trans (and_congr_right fun _ => not_congr ?_)
      simp [invoke]
    · rw [SilentAfter, invoke, pairwise_append]
      refine ⟨h.after, pairwise_singleton _ _, fun earlier before later new other eq => ?_⟩
      rw [mem_singleton.mp new]
      rintro ⟨⟩
      exact ((h.live id).mp subscribed).2 (eq ▸ before)

end

/-- Of three handlers the first unsubscribes the second and emits again, and in the inner emission
it subscribes a fourth. -/
def nested (id : Nat) : Prog :=
  if id = 0 then
    .unsubscribe 1 (.emit (fun id => if id = 0 then .subscribe .done else .done) .done)
  else .done

/-- The first of two handlers emits again `depth` times. The innermost emission unsubscribes the
second, and a third is subscribed behind it. -/
def deep : Nat → Nat → Prog
  | 0, id => if id = 0 then .unsubscribe 1 .done else .done
  | 1, id => if id = 0 then .emit (deep 0) (.subscribe .done) else .done
  | depth + 2, id => if id = 0 then .emit (deep (depth + 1)) .done else .done

theorem emit_deep_eq {n : Nat} {s : EventHandlersList}
    (handlers : s.handlers = [⟨0, true⟩, ⟨1, true⟩]) :
    let t := (s.acquire.invoke 0).emit fun id => exec (deep (n + 1) id)
    t.handlers = [⟨0, true⟩, ⟨2, true⟩] →
      (s.emit fun id => exec (deep (n + 2) id)) = (t.invoke 2).release := by
  intro t stored
  have first : s.acquire.handlers[0]? = some ⟨0, true⟩ := congrArg (·[0]?) handlers
  have second : t.handlers[1]? = some ⟨2, true⟩ := congrArg (·[1]?) stored
  have length : s.handlers.length % 65536 = 2 := congrArg (·.length % 65536) handlers
  have ran : exec (deep (n + 2) 0) (s.acquire.invoke 0) = t := rfl
  rw [emit, length, visit, first]
  simp only [if_true, ran]
  rw [visit, second]
  rfl

theorem release_live {s : EventHandlersList} {c : Nat}
    (handlers : s.handlers = [⟨0, true⟩, ⟨2, true⟩]) (counter : s.useCounter = c + 1) :
    s.release.handlers = [⟨0, true⟩, ⟨2, true⟩] ∧ s.release.useCounter = c ∧
      s.release.history = s.history := by
  rw [release, counter, if_neg (Nat.succ_ne_zero c), Nat.add_sub_cancel, cleanUp]
  split
  · exact ⟨by simp [trim, handlers, rdropWhile], rfl, rfl⟩
  · exact ⟨handlers, rfl, rfl⟩

theorem deep_wraps (n : Nat) (s : EventHandlersList)
    (handlers : s.handlers = [⟨0, true⟩, ⟨1, true⟩]) (next : s.next = 2)
    (counter : s.useCounter + n + 1 = 65536) :
    let t := s.emit fun id => exec (deep (n + 1) id)
    t.handlers = [⟨0, true⟩, ⟨2, true⟩] ∧ t.useCounter = s.useCounter ∧ .invoked 2 ∈ t.history := by
  induction n generalizing s with
  | zero =>
    obtain ⟨hs, c, nx, history, ascending, fresh⟩ := s
    obtain rfl : c = 65535 := by simpa using counter
    cases handlers
    cases next
    simp [emit, visit, acquire, release, cleanUp, deep, exec, invoke, remove, kill, trim,
      EventHandlersList.insert, rdropWhile]
  | succ n ih =>
    have acquired : (s.acquire.invoke 0).useCounter = s.useCounter + 1 := if_neg (by omega)
    obtain ⟨stored, restored, -⟩ := ih (s.acquire.invoke 0) handlers next (by omega)
    obtain ⟨kept, counter, history⟩ := release_live (s := EventHandlersList.invoke _ 2) stored
      (restored.trans acquired)
    rw [emit_deep_eq handlers stored]
    exact ⟨kept, counter, history ▸ mem_append_right _ (mem_singleton_self _)⟩

end Ae.Events.Emission
