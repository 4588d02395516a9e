/- source: events/event_list.{h,cpp}
   digest: Which handlers stay stored after their unsubscription, and when few do. -/

import Ae.Events.Emission

set_option autoImplicit false

namespace Ae.Events.Retention
open List Emission EventHandlersList

def EndsLive (s : EventHandlersList) : Prop := ∀ h, s.handlers.getLast? = some h → h.alive = true

/-- A history is what is done outside of every handler. The property holds after each emission
of it. -/
def AfterEmissions (P : EventHandlersList → Prop) : Prog → EventHandlersList → Prop
  | .done, _ => True
  | .subscribe rest, s => AfterEmissions P rest s.insert
  | .unsubscribe id rest, s => AfterEmissions P rest (s.remove id)
  | .emit body rest, s =>
    P (s.emit fun id => exec (body id)) ∧ AfterEmissions P rest (s.emit fun id => exec (body id))

def DuringVisit (run : Nat → EventHandlersList → EventHandlersList)
    (during : Nat → EventHandlersList → Prop) : Nat → Nat → EventHandlersList → Prop
  | 0, _, _ => True
  | left + 1, index, s =>
    match s.handlers[index]? with
    | none => True
    | some h =>
      if h.alive then during h.id (s.invoke h.id) ∧
        DuringVisit run during left (index + 1) (run h.id (s.invoke h.id))
      else DuringVisit run during left (index + 1) s

def AtSubscriptions (P : EventHandlersList → Prop) : Prog → EventHandlersList → Prop
  | .done, _ => True
  | .subscribe rest, s => P s ∧ AtSubscriptions P rest s.insert
  | .unsubscribe id rest, s => AtSubscriptions P rest (s.remove id)
  | .emit body rest, s =>
    DuringVisit (fun id => exec (body id)) (fun id => AtSubscriptions P (body id))
        (s.handlers.length % 65536) 0 s.acquire ∧
      AtSubscriptions P rest (s.emit fun id => exec (body id))

def Few (k : Nat) (s : EventHandlersList) : Prop := s.subscribed.length < k

/-- Nothing was subscribed yet, or of the handlers subscribed so far one was not unsubscribed. -/
def SomeLeft (s : EventHandlersList) : Prop :=
  s.next = 0 ∨ ∃ id < s.next, .unsubscribed id ∉ s.history

/-- The ends of the outermost emissions: how many handlers had been subscribed, and which of them
still were. -/
def ends : Prog → EventHandlersList → List (Nat × List Nat)
  | .done, _ => []
  | .subscribe rest, s => ends rest s.insert
  | .unsubscribe id rest, s => ends rest (s.remove id)
  | .emit body rest, s =>
    let t := s.emit fun id => exec (body id)
    (t.next, (range t.next).filter fun id => .unsubscribed id ∉ t.history) :: ends rest t

/-- The handlers behind which, at each end since their subscription, a handler was left, unless
none was left at all. -/
def retained (ends : List (Nat × List Nat)) (next : Nat) : List Nat :=
  (range next).filter fun id =>
    ends.all fun e => e.1 ≤ id ∨ e.2 = [] ∨ ∃ live ∈ e.2, id ≤ live

section

variable {s : EventHandlersList} {handlers : List Handler}

theorem trim_of_dead (dead : handlers.filter Handler.alive = []) : trim handlers = handlers :=
  if_neg fun live => by
    obtain ⟨h, mem, alive⟩ := any_eq_true.mp live
    exact filter_eq_nil_iff.mp dead h mem alive

theorem trim_of_live (live : handlers.filter Handler.alive ≠ []) :
    trim handlers = handlers.rdropWhile fun h => !h.alive := by
  rw [Ne, filter_eq_nil_iff] at live
  push Not at live
  exact if_pos (any_eq_true.mpr live)

theorem trim_eq_nil (empty : trim handlers = []) : handlers = [] := by
  have kept := filter_trim handlers
  rw [empty] at kept
  exact (trim_of_dead kept.symm).symm.trans empty

/-- The list is not emptied: a clean-up of dead handlers alone drops none. -/
theorem stored_closed : Closed fun s => s.handlers = [] → s.next = 0 where
  insert s _ empty := absurd empty (by simp [EventHandlersList.insert])
  remove s id h := by
    rw [EventHandlersList.remove]
    split
    · exact fun empty => h (map_eq_nil_iff.mp empty)
    · exact h
  counter _ _ h := h
  cleanUp s h := by
    rw [EventHandlersList.cleanUp]
    split
    · exact fun empty => h (trim_eq_nil empty)
    · exact h
  invoke _ _ _ h := h

theorem getLast_alive_of_trim {h : Handler} (live : handlers.filter Handler.alive ≠ [])
    (last : (trim handlers).getLast? = some h) : h.alive = true := by
  rw [trim_of_live live] at last
  have rest : handlers.rdropWhile (fun h => !h.alive) ≠ [] := fun empty => by simp [empty] at last
  have kept := rdropWhile_last_not _ handlers rest
  rw [getLast?_eq_some_getLast rest, Option.some.injEq] at last
  simpa [last] using kept

theorem emit_trims {body : Nat → Prog} (shallow : ∀ id, Shallow 65534 (body id))
    (outermost : s.useCounter = 0) : ∃ t, Extends s.acquire t ∧
      (s.emit fun id => exec (body id)).handlers = trim t.handlers ∧
      (s.emit fun id => exec (body id)).next = t.next ∧
      (s.emit fun id => exec (body id)).useCounter = 0 := by
  have acquired : s.acquire.useCounter = 1 := by
    rw [acquire, outermost]
    rfl
  have visited := extends_visit (fun id => extends_exec (shallow id))
    (s.handlers.length % 65536) 0 s.acquire (by omega) (by omega)
  refine ⟨_, visited, ?_⟩
  have counter := visited.useCounter.trans acquired
  rw [emit, release, counter, if_neg Nat.one_ne_zero, cleanUp, if_pos rfl]
  exact ⟨rfl, rfl, rfl⟩

theorem endsLive_iff_someLeft (recorded : Recorded s) (stored : s.handlers = [] → s.next = 0)
    (trimmed : s.handlers = trim handlers) : EndsLive s ↔ SomeLeft s := by
  have left : s.subscribed ≠ [] ↔ ∃ id < s.next, .unsubscribed id ∉ s.history := by
    rw [Ne, eq_nil_iff_forall_not_mem]
    push Not
    exact exists_congr recorded.live
  rw [SomeLeft, ← left]
  constructor
  · intro endsLive
    rcases eq_or_ne s.handlers [] with empty | some
    · exact .inl (stored empty)
    · have last := endsLive _ (getLast?_eq_some_getLast some)
      exact .inr (ne_nil_of_mem (mem_map_of_mem (mem_filter.mpr ⟨getLast_mem some, last⟩)))
  · rintro (none | some) h last
    · exact absurd (s.fresh h (mem_of_getLast? last)) (by simp [none])
    · rw [subscribed, Ne, map_eq_nil_iff, trimmed, filter_trim] at some
      rw [trimmed] at last
      exact getLast_alive_of_trim some last

theorem endsLive_iff {p : Prog} (shallow : Shallow 65535 p) (outermost : s.useCounter = 0)
    (recorded : Recorded s) (stored : s.handlers = [] → s.next = 0) :
    AfterEmissions EndsLive p s ↔ AfterEmissions SomeLeft p s := by
  induction p generalizing s with
  | done => exact .rfl
  | subscribe rest ih =>
    exact ih (s := s.insert) shallow outermost (recorded_closed.insert s recorded)
      (stored_closed.insert s stored)
  | unsubscribe id rest ih =>
    exact ih shallow ((extends_remove s id).useCounter.trans outermost)
      (recorded_closed.remove s id recorded) (stored_closed.remove s id stored)
  | emit body rest _ ih =>
    obtain ⟨t, -, trimmed, -, counter⟩ := emit_trims shallow.2.1 outermost
    have recorded := recorded_closed.exec (.emit body .done) s recorded
    have stored := stored_closed.exec (.emit body .done) s stored
    exact and_congr (endsLive_iff_someLeft recorded stored trimmed)
      (ih shallow.2.2 counter recorded stored)

/-- A clean-up keeps what stands before the last live handler, if there is one. -/
theorem map_id_trim (ascending : (handlers.map Handler.id).Pairwise (· < ·)) :
    (trim handlers).map Handler.id = (handlers.map Handler.id).filter fun id =>
      (handlers.filter Handler.alive).map Handler.id = [] ∨
        ∃ live ∈ (handlers.filter Handler.alive).map Handler.id, id ≤ live := by
  induction handlers using reverseRecOn with
  | nil => rfl
  | append_singleton l h ih =>
    rw [map_append, pairwise_append] at ascending
    obtain ⟨front, -, below⟩ := ascending
    have below : ∀ k ∈ l, k.id < h.id :=
      fun k mem => below k.id (mem_map_of_mem mem) h.id (mem_singleton_self _)
    by_cases alive : h.alive = true
    · have live : (l ++ [h]).filter Handler.alive ≠ [] := by simp [alive]
      rw [trim_of_live live, rdropWhile_concat_neg _ _ _ (by simp [alive])]
      refine (filter_eq_self.mpr fun id mem => decide_eq_true (.inr ?_)).symm
      refine ⟨h.id, by simp [alive], ?_⟩
      obtain ⟨k, stored, rfl⟩ := mem_map.mp mem
      rcases mem_append.mp stored with before | last
      · exact (below k before).le
      · rw [mem_singleton.mp last]
    · have live : (l ++ [h]).filter Handler.alive = l.filter Handler.alive := by simp [alive]
      rw [live]
      by_cases none : l.filter Handler.alive = []
      · rw [trim_of_dead (live.trans none)]
        exact (filter_eq_self.mpr fun id _ => by simp [none]).symm
      · rw [trim_of_live (live ▸ none), rdropWhile_concat_pos _ _ _ (by simp [alive]),
          ← trim_of_live none, ih front, map_append, filter_append]
        simpa [none] using fun k mem _ => below k mem

theorem retained_add {ends : List (Nat × List Nat)} {n : Nat} (past : ∀ e ∈ ends, e.1 ≤ n)
    (count : Nat) : retained ends (n + count) = retained ends n ++ range' n count := by
  rw [retained, range_eq_range', ← range'_append_1, filter_append, Nat.zero_add, ← range_eq_range']
  congr 1
  refine filter_eq_self.mpr fun id mem => all_eq_true.mpr fun e he => ?_
  have := (past e he).trans (mem_range'_1.mp mem).1
  simp [this]

theorem retained_append {ends : List (Nat × List Nat)} (n : Nat) (left : List Nat) :
    retained (ends ++ [(n, left)]) n =
      (retained ends n).filter fun id => left = [] ∨ ∃ live ∈ left, id ≤ live := by
  rw [retained, retained, filter_filter]
  refine filter_congr fun id mem => ?_
  have : ¬ n ≤ id := (mem_range.mp mem).not_ge
  simp [this, Bool.and_comm]

/-- The handlers stored are those that the ends of the outermost emissions retain. -/
theorem map_id_exec {p : Prog} (shallow : Shallow 65535 p) (outermost : s.useCounter = 0)
    (recorded : Recorded s) (past : List (Nat × List Nat)) (old : ∀ e ∈ past, e.1 ≤ s.next)
    (now : s.handlers.map Handler.id = retained past s.next) :
    (exec p s).handlers.map Handler.id = retained (past ++ ends p s) (exec p s).next := by
  induction p generalizing s past with
  | done => rwa [ends, append_nil]
  | subscribe rest ih =>
    refine ih (s := s.insert) shallow outermost (recorded_closed.insert s recorded) past
      (fun e he => (old e he).trans (Nat.le_succ _)) ?_
    exact (map_append ..).trans ((congrArg (· ++ _) now).trans (retained_add old 1).symm)
  | unsubscribe id rest ih =>
    have removed := extends_remove s id
    obtain ⟨count, next, ids⟩ := removed.added
    refine ih shallow (removed.useCounter.trans outermost) (recorded_closed.remove s id recorded)
      past (fun e he => (old e he).trans (by omega)) ?_
    rw [ids, now, next, retained_add old]
  | emit body rest _ ih =>
    obtain ⟨t, visited, trimmed, next, counter⟩ := emit_trims shallow.2.1 outermost
    have recorded := recorded_closed.exec (.emit body .done) s recorded
    obtain ⟨count, grown, ids⟩ := visited.added
    have whole : t.handlers.map Handler.id = retained past t.next :=
      ids.trans ((congrArg (· ++ _) now).trans ((retained_add old count).symm.trans
        (congrArg _ grown.symm)))
    have later : s.next ≤ t.next := grown ▸ Nat.le_add_right ..
    let e := s.emit fun id => exec (body id)
    let left := (range e.next).filter fun id => .unsubscribed id ∉ e.history
    have live : ∀ id, id ∈ e.subscribed ↔ id ∈ left := fun id => by
      rw [mem_filter, mem_range, decide_eq_true_iff]
      exact recorded.live id
    have stored : e.handlers.map Handler.id = retained (past ++ [(e.next, left)]) e.next := by
      rw [retained_append, trimmed, map_id_trim t.ascending, ← filter_trim, ← trimmed, whole, next]
      have none : e.subscribed = [] ↔ left = [] := by
        simp only [eq_nil_iff_forall_not_mem, live]
      refine filter_congr fun id _ => decide_eq_decide.mpr (or_congr none ?_)
      exact exists_congr fun m => and_congr_left' (live m)
    refine (ih shallow.2.2 counter recorded _ (fun e he => ?_) stored).trans ?_
    · rcases mem_append.mp he with before | last
      · exact (old e before).trans (later.trans next.ge)
      · rw [mem_singleton.mp last]
    · rw [append_assoc]
      rfl

end

/-- Of four handlers the first and the last two are unsubscribed: the emission keeps the first,
since the second stands behind it. -/
def unsubscribeThree : Prog :=
  .subscribe (.subscribe (.subscribe (.subscribe (.unsubscribe 0 (.unsubscribe 2 (.unsubscribe 3
    (.emit (fun _ => .done) .done)))))))

section

variable {s : EventHandlersList}

def churn : Nat → Nat → Prog
  | 0, _ => .done
  | n + 1, id => .subscribe (.unsubscribe id (.emit (fun _ => .done) (churn n (id + 1))))

def Dead (s : EventHandlersList) : Prop := ∀ h ∈ s.handlers, h.alive = false

theorem visit_dead (hd : Dead s) (run : Nat → EventHandlersList → EventHandlersList)
    (d : Nat → EventHandlersList → Prop) (left i : Nat) :
    s.visit run left i = s ∧ DuringVisit run d left i s := by
  induction left generalizing i with
  | zero => exact ⟨rfl, trivial⟩
  | succ left ih =>
    rw [visit, DuringVisit]
    rcases hh : s.handlers[i]? with _ | h
    · exact ⟨rfl, trivial⟩
    · simpa [hd h (mem_of_getElem? hh)] using ih (i + 1)

theorem emit_dead (hd : Dead s) (ho : s.useCounter = 0)
    (run : Nat → EventHandlersList → EventHandlersList) : s.emit run = s := by
  obtain ⟨hs, c, next, h, ha, hf⟩ := s
  have hn : hs.any Handler.alive = false := by simpa [Dead] using hd
  cases ho
  have hv (left : Nat) := (visit_dead (s := ⟨hs, 1, next, h, ha, hf⟩) hd
    run (fun _ _ => True) left 0).1
  simp [emit, acquire, hv, release, cleanUp, trim, hn]

theorem dead_remove_insert (hd : Dead s) : Dead (s.insert.remove s.next) ∧
    (s.insert.remove s.next).handlers.length = s.handlers.length + 1 ∧
    (s.insert.remove s.next).next = s.next + 1 := by
  have hk : s.next < s.insert.next := Nat.lt_succ_self _
  refine ⟨?_, ?_, ?_⟩
  · rw [remove, if_pos hk]
    simp only [Dead, EventHandlersList.insert, map_append, mem_append, mem_map]
    rintro h (⟨k, mem, rfl⟩ | mem)
    · rw [kill]
      split
      · rfl
      · exact hd k mem
    · obtain rfl : Handler.mk s.next false = h := by simpa [kill] using mem
      rfl
  · rw [remove, if_pos hk, length_map, EventHandlersList.insert, length_append]
    rfl
  · rw [remove, if_pos hk]
    rfl

theorem churn_grows (n : Nat) (hd : Dead s) (ho : s.useCounter = 0) :
    AtSubscriptions (Few 1) (churn n s.next) s ∧
      (exec (churn n s.next) s).handlers.length = s.handlers.length + n := by
  induction n generalizing s with
  | zero => exact ⟨trivial, rfl⟩
  | succ n ih =>
    obtain ⟨hg, hl, hnx⟩ := dead_remove_insert hd
    have hc : (s.insert.remove s.next).useCounter = 0 :=
      (extends_remove s.insert s.next).useCounter.trans ho
    have hf : Few 1 s := by
      have hn : s.handlers.filter Handler.alive = [] := by simpa [Dead] using hd
      rw [Few, subscribed, hn]
      exact Nat.one_pos
    obtain ⟨has, hgr⟩ := ih hg hc
    rw [hnx] at has hgr
    simp only [churn, AtSubscriptions, exec, emit_dead hg hc]
    exact ⟨⟨hf, (visit_dead (s := acquire _) hg _ _ _ _).2, has⟩, by omega⟩

end

theorem churn_shallow (n id : Nat) : Shallow 65535 (churn n id) := by
  induction n generalizing id with
  | zero => trivial
  | succ n ih => exact ⟨by decide, fun _ => trivial, ih (id + 1)⟩

end Ae.Events.Retention
