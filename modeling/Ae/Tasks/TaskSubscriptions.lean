/- source: tasks/details/{manual_task_scheduler,task_subsctiption}.h
   digest: Tasks run exactly once unless a subscription takes its pointer too late. -/

import Ae.Tasks.TaskQueues
import Mathlib.Order.Fin.Basic

set_option autoImplicit false

namespace Ae.Tasks.TaskSubscriptions
open Function List Lib.EventRun Scheduling TaskQueues ManualTaskScheduler

variable {T : Type} {s : ManualTaskScheduler T}

structure Linked (s : ManualTaskScheduler T) : Prop where
  held : ∀ sub slot id, s.subs sub = some (slot, id) →
    s.pool slot = some id ∧ s.active id = .linked sub ∧ id ∉ s.returned
  returned : ∀ id ∈ s.returned, id < s.tasks.length ∧ s.active id = .magic ∧ .cancelled id ∉ s.acts
  nodup : s.returned.Nodup
  known : ∀ id, .cancelled id ∈ s.acts → id < s.tasks.length
  cancelled : ∀ id < s.tasks.length, s.active id = .cancelled ↔ .cancelled id ∈ s.acts
  checked : ∀ r id left, s.running = some r → r.checked = true → r.left = id :: left →
    .cancelled id ∉ s.acts
  once : s.acts.Pairwise fun earlier later => ∀ id now, later = .invoked id now →
    earlier ≠ .cancelled id ∧ ∀ before, earlier ≠ .invoked id before
  kept : ∀ id < s.tasks.length, Waits s id ∨ Settled s id
  within : ∀ before w, s.last = some (before, w) → before ≤ s.tasks.length
  finished : ∀ before w, s.last = some (before, w) → ∀ id < before, ∀ slot,
    s.tasks[id]? = some ⟨slot, none⟩ → Settled s id

theorem linked_start : Linked (start : ManualTaskScheduler T) where
  held := nofun
  returned := nofun
  nodup := nodup_nil
  known := nofun
  cancelled := nofun
  checked := nofun
  once := .nil
  kept := nofun
  within := nofun
  finished := nofun

theorem Linked.triggered (hl : Linked s) : Linked { s with trigger := true } :=
  { hl with }

variable {id sub : Nat}

theorem settled_mono {t : ManualTaskScheduler T} (hs : Settled s id) (hm : ∀ a ∈ s.acts, a ∈ t.acts)
    : Settled t id :=
  hs.imp (fun ⟨now, mem⟩ => ⟨now, hm _ mem⟩) (hm _)

section

variable [LinearOrder T] (hl : Linked s) (hq : Queued s)
include hl hq

theorem Linked.added {t : GenericTask T}
    (hv : s.pool t.slot = none) {regular : List Nat} {delayed : List (T × Nat)}
    (hlt : ∀ id, id = s.tasks.length ∨ id ∈ s.regular ∨ id ∈ s.delayed.map Prod.snd →
      id ∈ regular ∨ id ∈ delayed.map Prod.snd) :
    Linked { s.emplace t with regular := regular, delayed := delayed, trigger := true } := by
  have hln : (s.tasks ++ [t]).length = s.tasks.length + 1 := length_append
  have ha : ∀ id < s.tasks.length,
      update s.active s.tasks.length .magic id = s.active id :=
    fun id hls => update_of_ne hls.ne ..
  refine ⟨?_, ?_, ?_, ?_, ?_, hl.checked, hl.once, ?_, ?_, ?_⟩
  · intro sub sl id hh
    obtain ⟨hlv, hb, ht⟩ := hl.held sub sl id hh
    obtain ⟨old, hf, -⟩ := hq.pool sl id hlv
    have hls := lookup_lt hf
    have hap : sl ≠ t.slot := by
      rintro rfl
      rw [hv] at hlv
      cases hlv
    refine ⟨(update_of_ne hap ..).trans hlv, (ha id hls).trans hb, fun hm => ?_⟩
    rcases mem_append.mp hm with hbf | new
    · exact ht hbf
    · exact hls.ne (mem_singleton.mp new)
  · intro id hm
    rcases mem_append.mp hm with hbf | new
    · obtain ⟨hls, hu, hs⟩ := hl.returned id hbf
      exact ⟨hln ▸ Nat.lt_succ_of_lt hls, (ha id hls).trans hu, hs⟩
    · obtain rfl := mem_singleton.mp new
      refine ⟨hln ▸ Nat.lt_succ_self _, update_self .., fun hc => ?_⟩
      exact lt_irrefl _ (hl.known _ hc)
  · refine nodup_append.mpr
      ⟨hl.nodup, pairwise_singleton _ _, fun id hbf o new => ?_⟩
    rw [mem_singleton.mp new]
    exact ne_of_lt (hl.returned id hbf).1
  · exact fun id hm => hln ▸ Nat.lt_succ_of_lt (hl.known id hm)
  · intro id hls
    rcases Nat.lt_succ_iff_lt_or_eq.mp (hln ▸ hls) with hbf | rfl
    · have hun := iff_of_eq (congrArg (· = Active.cancelled) (ha id hbf))
      exact hun.trans (hl.cancelled id hbf)
    · have hfr : update s.active s.tasks.length Active.magic s.tasks.length = .magic :=
        update_self ..
      refine iff_of_false (fun hc => ?_)
        fun hm => lt_irrefl _ (hl.known _ hm)
      cases hfr.symm.trans hc
  · intro id hls
    rcases Nat.lt_succ_iff_lt_or_eq.mp (hln ▸ hls) with hbf | rfl
    · refine (hl.kept id hbf).imp_left fun hw => ?_
      rcases hw with regular | delayed | left
      · exact (hlt id (.inr (.inl regular))).imp_right .inl
      · exact (hlt id (.inr (.inr delayed))).imp_right .inl
      · exact .inr (.inr left)
    · exact .inl ((hlt _ (.inl rfl)).imp_right .inl)
  · exact fun hbf w hla => hln ▸ Nat.le_succ_of_le (hl.within hbf w hla)
  · intro hbf w hla id hls sl hf
    have hk := hls.trans_le (hl.within hbf w hla)
    exact hl.finished hbf w hla id hls sl (lookup_of_append hk hf)

theorem Linked.task (c sl : Nat) :
    Linked (s.task c sl) := by
  rw [ManualTaskScheduler.task]
  split
  · next ha =>
    refine hl.added (t := ⟨sl, none⟩) hq ha.2.1 fun id hls => ?_
    rw [mem_append, mem_singleton]
    tauto
  · exact hl.triggered

theorem Linked.delayedTask (c sl : Nat) (tp : T) :
    Linked (s.delayedTask c sl tp) := by
  rw [ManualTaskScheduler.delayedTask]
  split
  · next ha =>
    refine hl.added (t := ⟨sl, some tp⟩) hq ha.2.1 fun id hls => ?_
    rw [(insertDelayed_perm.map Prod.snd).mem_iff, map_cons, mem_cons]
    tauto
  · exact hl.triggered

end

theorem Linked.reset_eq (hl : Linked s) {sl : Nat} (hh : s.subs sub = some (sl, id)) :
    s.reset sub = { s with
      active := update s.active id .cancelled
      subs := update s.subs sub none
      acts := s.acts ++ [.cancelled id] } := by
  rw [reset, hh]
  dsimp only
  rw [setActive, (hl.held sub sl id hh).1]

theorem Linked.reset [LinearOrder T] (hl : Linked s) (hq : Queued s) (hit : InTime s sub) :
    Linked (s.reset sub) := by
  cases held : s.subs sub with
  | none => rwa [ManualTaskScheduler.reset, held]
  | some p =>
    obtain ⟨sl, id⟩ := p
    obtain ⟨hlv, hb, ht⟩ := hl.held sub sl id held
    obtain ⟨t, hf, -⟩ := hq.pool sl id hlv
    have ha : ∀ other ≠ id, update s.active id .cancelled other = s.active other :=
      fun other hn => update_of_ne hn ..
    have hna : ∀ other, .cancelled other ∈ s.acts ++ [.cancelled id] ↔
        Act.cancelled other ∈ s.acts ∨ other = id := by
      intro other
      rw [mem_append, mem_singleton, Act.cancelled.injEq]
    rw [hl.reset_eq held]
    refine ⟨?_, ?_, hl.nodup, ?_, ?_, ?_, ?_, ?_, hl.within, ?_⟩
    · intro other s' id' hh'
      have hh' : update s.subs sub none other = some (s', id') := hh'
      by_cases he : other = sub
      · rw [he, update_self] at hh'
        cases hh'
      · rw [update_of_ne he] at hh'
        obtain ⟨hl', hb', ht'⟩ := hl.held other s' id' hh'
        have hn : id' ≠ id := by
          rintro rfl
          exact he (Active.linked.inj (hb'.symm.trans hb))
        exact ⟨hl', (ha id' hn).trans hb', ht'⟩
    · intro other hm
      obtain ⟨hls, hu, hsp⟩ := hl.returned other hm
      have hn : other ≠ id := fun he => ht (he ▸ hm)
      exact ⟨hls, (ha other hn).trans hu, fun hc => ((hna other).mp hc).elim hsp hn⟩
    · intro other hc
      rcases (hna other).mp hc with before | rfl
      · exact hl.known other before
      · exact lookup_lt hf
    · intro other hls
      refine Iff.trans ?_ (hna other).symm
      by_cases he : other = id
      · exact iff_of_true (by rw [he]; exact update_self ..) (.inr he)
      · have hun := iff_of_eq (congrArg (· = Active.cancelled) (ha other he))
        exact hun.trans ((hl.cancelled other hls).trans (or_iff_left he).symm)
    · intro r other lf hr hch h1 hc
      rcases (hna other).mp hc with before | rfl
      · exact hl.checked r other lf hr hch h1 before
      · exact hit r other lf sl other hr hch h1 held rfl
    · refine pairwise_append.mpr ⟨hl.once, pairwise_singleton _ _, ?_⟩
      intro e _ l new other now hi
      rw [mem_singleton.mp new] at hi
      cases hi
    · intro other hls
      exact (hl.kept other hls).imp_right fun hs =>
        settled_mono hs fun a hm => mem_append_left _ hm
    · intro before w hlt other hls s' hf'
      exact settled_mono (hl.finished before w hlt other hls s' hf')
        fun a hm => mem_append_left _ hm

theorem reset_keeps (s : ManualTaskScheduler T) (sub : Nat) :
    (s.reset sub).pool = s.pool ∧ (s.reset sub).tasks = s.tasks ∧
      (s.reset sub).returned = s.returned := by
  rw [reset]
  split
  · exact ⟨rfl, rfl, rfl⟩
  · next sl id held =>
    obtain ⟨a, eq⟩ := setActive_eq s sl .cancelled
    rw [eq]
    exact ⟨rfl, rfl, rfl⟩

theorem Linked.link (hl : Linked s) {sl : Nat} (returned : id ∈ s.returned)
    (hlv : s.pool sl = some id) : Linked (s.link sub id sl) := by
  obtain ⟨hls, hu, hs⟩ := hl.returned id returned
  have ha : ∀ other ≠ id, update s.active id (.linked sub) other = s.active other :=
    fun other hn => update_of_ne hn ..
  have hb : update s.active id (.linked sub) id = .linked sub := update_self ..
  rw [ManualTaskScheduler.link, ManualTaskScheduler.setActive, hlv]
  dsimp only
  refine { hl with
    held := ?_, returned := ?_, nodup := hl.nodup.erase id, cancelled := ?_ }
  · intro other s' id' held
    have held : update s.subs sub (some (sl, id)) other = some (s', id') := held
    by_cases he : other = sub
    · rw [he, update_self] at held
      cases held
      exact ⟨hlv, he ▸ hb, fun hm => (hl.nodup.mem_erase_iff.mp hm).1 rfl⟩
    · rw [update_of_ne he] at held
      obtain ⟨hl', hb', ht⟩ := hl.held other s' id' held
      have hn : id' ≠ id := fun he => ht (he ▸ returned)
      exact ⟨hl', (ha id' hn).trans hb', fun hm => ht (mem_of_mem_erase hm)⟩
  · intro other hm
    obtain ⟨hn, hm⟩ := hl.nodup.mem_erase_iff.mp hm
    obtain ⟨hls, hu, hs⟩ := hl.returned other hm
    exact ⟨hls, (ha other hn).trans hu, hs⟩
  · intro other hls
    by_cases he : other = id
    · subst he
      refine iff_of_false (fun cancelled => ?_) hs
      cases hb.symm.trans cancelled
    · have hun := iff_of_eq (congrArg (· = Active.cancelled) (ha other he))
      exact hun.trans (hl.cancelled other hls)

theorem Linked.attach [LinearOrder T] (hl : Linked s) (hq : Queued s)
    (ho : Orderly s (.attach sub id)) : Linked (s.attach sub id) := by
  obtain ⟨hit, hlv⟩ := ho
  rw [ManualTaskScheduler.attach]
  split
  · exact hl
  · next t found =>
    split
    · next returned =>
      obtain ⟨hp, -, he⟩ := reset_keeps s sub
      refine (hl.reset hq hit).link (he.symm ▸ returned) ?_
      rw [hp]
      exact hlv returned t found
    · exact hl

theorem Linked.update (hl : Linked s) (now : T) : Linked (s.update now) := by
  rw [ManualTaskScheduler.update]
  split
  · exact hl
  · next hi =>
    refine { hl with checked := ?_, kept := fun id hls => ?_ }
    · rintro r id left ⟨⟩ checked
      cases checked
    · refine (hl.kept id hls).imp_left fun hw => ?_
      rcases hw with hr | delayed | left
      · exact .inr (.inr hr)
      · exact .inr (.inl delayed)
      · rw [ManualTaskScheduler.left, hi] at left
        cases left

section

variable {id : Nat}

theorem kept_of_first {t : ManualTaskScheduler T} {r r' : Running T} {f : Nat}
    (hr : s.running = some r) (ha : t.running = some r') (hl : r.left = f :: r'.left)
    (hrg : t.regular = s.regular) (hd : t.delayed = s.delayed) (hm : ∀ a ∈ s.acts, a ∈ t.acts)
    (hs : Settled t f) (hk : Waits s id ∨ Settled s id) : Waits t id ∨ Settled t id := by
  rcases hk with (queued | queued | waits) | done
  · exact .inl (.inl (hrg ▸ queued))
  · exact .inl (.inr (.inl (hd ▸ queued)))
  · rw [left, hr, Option.elim_some, hl] at waits
    rcases mem_cons.mp waits with rfl | later
    · exact .inr hs
    · refine .inl (.inr (.inr ?_))
      rw [left, ha]
      exact later
  · exact .inr (settled_mono done hm)

theorem Linked.held_free (hl : Linked s) (ids : List Nat) {sub sl : Nat}
    (hh : (s.free ids).subs sub = some (sl, id)) :
    (s.free ids).pool sl = some id ∧ s.active id = .linked sub ∧ id ∉ s.returned := by
  have hh : (if ids.any fun id => s.active id = .linked sub then none else s.subs sub) =
      some (sl, id) := hh
  split at hh
  · cases hh
  · next hs =>
    obtain ⟨hlv, hb, ht⟩ := hl.held sub sl id hh
    refine ⟨Option.filter_eq_some_iff.mpr ⟨hlv, ?_⟩, hb, ht⟩
    by_contra hi
    have hi : id ∈ ids := by simpa using hi
    exact hs (any_eq_true.mpr ⟨id, hi, decide_eq_true hb⟩)

variable [LinearOrder T]

theorem Queued.left_lt (hq : Queued s) {r : Running T} {l : List Nat} (hr : s.running = some r)
    (h1 : r.left = id :: l) : id ∈ s.left ∧ id < s.tasks.length := by
  have hm : id ∈ s.left := by
    rw [left, hr, Option.elim_some, h1]
    exact mem_cons_self
  exact ⟨hm, hq.lt (mem_append_right _ (hq.left.subset hm))⟩

variable (hl : Linked s) (hq : Queued s)
include hl hq

theorem Linked.check : Linked s.check := by
  rw [ManualTaskScheduler.check]
  split
  · exact hl
  · next r running =>
    split
    · next id left unchecked first =>
      obtain ⟨-, hls⟩ := Queued.left_lt hq running first
      have hc := hl.cancelled id hls
      split
      · next is_cancelled =>
        refine { hl with checked := ?_, kept := fun other hk => ?_ }
        · rintro r' other l ⟨⟩ checked
          cases checked.symm.trans unchecked
        · exact kept_of_first (t := { s with running := some { r with left := left } }) running rfl
            first rfl rfl (fun _ hm => hm) (.inr (hc.mp is_cancelled))
            (hl.kept other hk)
      · next is_active =>
        refine { hl with checked := ?_, kept := fun other hk => ?_ }
        · rintro r' other l ⟨⟩ - h1'
          obtain rfl : id = other := (cons.inj (first.symm.trans h1')).1
          exact fun hm => is_active (hc.mpr hm)
        · refine (hl.kept other hk).imp_left (Or.imp_right (Or.imp_right fun hw => ?_))
          rw [ManualTaskScheduler.left, running] at hw
          exact hw
    · exact hl

theorem Linked.invoke : Linked s.invoke := by
  rw [ManualTaskScheduler.invoke]
  split
  · exact hl
  · next r running =>
    split
    · next id left checked first =>
      obtain ⟨hw, hle⟩ := Queued.left_lt hq running first
      have hs := hl.checked r id left running checked first
      have ho : ∀ o, .cancelled o ∈ s.acts ++ [.invoked id r.now] ↔
          Act.cancelled o ∈ s.acts := by
        intro o
        rw [mem_append, mem_singleton]
        exact or_iff_left fun he => by cases he
      have hmr : ∀ a ∈ s.acts, a ∈ s.acts ++ [.invoked id r.now] :=
        fun a hm => mem_append_left _ hm
      refine ⟨hl.held, fun o hm => ?_, hl.nodup, fun o hm => ?_,
        fun o hk => (hl.cancelled o hk).trans (ho o).symm, ?_, ?_,
        fun o hk => ?_, hl.within, fun before w hls o hk sl hf => ?_⟩
      · obtain ⟨hk, hu, hs⟩ := hl.returned o hm
        exact ⟨hk, hu, fun hc => hs ((ho o).mp hc)⟩
      · exact hl.known o ((ho o).mp hm)
      · rintro r' o l ⟨⟩ checked
        cases checked
      · refine pairwise_append.mpr ⟨hl.once, pairwise_singleton _ _, ?_⟩
        intro e before l hn o now hi
        rw [mem_singleton.mp hn] at hi
        cases hi
        refine ⟨fun hc => hs (hc ▸ before), fun a_ ht => ?_⟩
        exact (hq.invoked id a_ (ht ▸ before)).2 (.inr (.inr hw))
      · exact kept_of_first (t := { s with
            running := some { r with left := left, checked := false }
            acts := s.acts ++ [.invoked id r.now] }) running rfl first rfl rfl hmr
          (.inl ⟨r.now, mem_append_right _ mem_cons_self⟩) (hl.kept o hk)
      · exact settled_mono (hl.finished before w hls o hk sl hf) hmr
    · exact hl

theorem Linked.next [OrderTop T] : Linked s.next := by
  rw [ManualTaskScheduler.next]
  split
  · exact hl
  · next r running =>
    have hle : s.left = r.left := by rw [left, running]; rfl
    split
    · next hnl phase =>
      refine { hl with
        held := fun _ _ _ => hl.held_free r.batch, checked := ?_, kept := fun id hls => ?_ }
      · rintro r' id left ⟨⟩ checked
        cases checked
      · refine (hl.kept id hls).imp_left fun hw => ?_
        rcases hw with hr | delayed | left
        · exact .inl hr
        · rw [← rdropWhile_append_rtakeWhile (p := fun p => decide (p.1 ≤ r.now))
            (l := s.delayed), map_append] at delayed
          exact .inr (mem_append.mp delayed)
        · rw [hle, hnl] at left
          cases left
    · next hnl phase =>
      have hwq : ∀ id, Waits s id → id ∈ s.regular ∨ id ∈ s.delayed.map Prod.snd := by
        rintro id (hr | delayed | left)
        · exact .inl hr
        · exact .inr delayed
        · rw [hle, hnl] at left
          cases left
      refine { hl with
        held := fun _ _ _ => hl.held_free r.batch, checked := fun _ _ _ hi => by cases hi
        kept := fun id hls => ?_, within := ?_, finished := ?_ }
      · refine (hl.kept id hls).imp_left fun hw => ?_
        exact (hwq id hw).imp_right .inl
      · rintro b w ⟨⟩
        exact (hq.later r running).1
      · rintro b w ⟨⟩ id hls sl hf
        refine (hl.kept id (lookup_lt hf)).resolve_left fun hw => ?_
        rcases hwq id hw with hr | delayed
        · exact Nat.not_le_of_lt hls ((hq.later r running).2 id hr)
        · obtain ⟨p, hm, rfl⟩ := mem_map.mp delayed
          obtain ⟨s', he⟩ := hq.delayed p hm
          cases he.symm.trans hf
    · exact hl

end

section

variable [LinearOrder T]

theorem exact_of_linked (hq : Queued s) (hl : Linked s) : Exact s where
  once := hl.once
  due := hq.due
  kept := hl.kept
  finished := hl.finished
  awake idle quiet before w last := ⟨hq.quiet quiet, hq.awake idle quiet before w last⟩

variable [OrderTop T]

theorem Linked.step (hl : Linked s) (hq : Queued s) (c : Nat) {e : Event T}
    (ho : Orderly s e) : Linked (s.step c e) := by
  cases e with
  | task sl => exact hl.task hq c sl
  | delayedTask sl tp => exact hl.delayedTask hq c sl tp
  | attach sub id => exact hl.attach hq ho
  | reset sub => exact hl.reset hq ho
  | update now => exact hl.update now
  | check => exact hl.check hq
  | invoke => exact hl.invoke hq
  | next => exact hl.next hq

/-- As long as every pointer is taken while its task lives and no subscription is reset between
the check and the invocation of its task, the scheduler is exact at every moment. -/
theorem schedules_exactly (capacity : Nat) (events : List (Event T))
    (orderly : Along (step capacity) Orderly .start events) :
    Always (step capacity) Exact .start events :=
  Always.of_invariant (I := fun s => Queued s ∧ Linked s) (fun _ e ⟨hq, hl⟩ orderly =>
      ⟨hq.step capacity e, hl.step hq capacity orderly⟩)
    (fun _ ⟨hq, hl⟩ => exact_of_linked hq hl) ⟨queued_start, linked_start⟩ orderly

end

theorem inTime_of_unheld (hu : s.subs sub = none) : InTime s sub := by
  intro r id l sl o _ _ _ hh
  rw [hu] at hh
  cases hh

def bothInvoked : List (Event (Fin 4)) :=
  [.task 0, .attach 0 0, .delayedTask 1 2, .update 1, .check, .invoke, .next, .next,
    .update 2, .next, .check, .invoke, .next]

/-- The pointer of the first task is taken when its slot holds another task already, and the
subscription is reset. -/
def takenLate : List (Event (Fin 4)) :=
  [.task 0, .update 1, .check, .invoke, .next, .next, .task 0, .attach 0 0, .reset 0, .update 2,
    .check, .next, .next]

def resetLate : List (Event (Fin 4)) :=
  [.task 0, .attach 0 0, .update 1, .check, .reset 0, .invoke]

theorem schedules_exactly_bothInvoked :
    (run (step 2) .start bothInvoked).acts = [.invoked 0 1, .invoked 1 2] ∧
      Always (step 2) Exact .start bothInvoked := by
  refine ⟨rfl, schedules_exactly 2 bothInvoked ?_⟩
  refine ⟨trivial, ⟨inTime_of_unheld rfl, ?_⟩, by repeat' constructor⟩
  rintro - t ⟨⟩
  rfl

/-- A task is lost to the subscription of another, and a task is invoked after its
cancellation. -/
theorem late_subscriptions_inexact :
    ¬ Exact (run (step 1) .start takenLate) ∧ ¬ Exact (run (step 1) .start resetLate) := by
  constructor
  · intro her
    have ha : (run (step 1) .start takenLate).acts =
        [.invoked 0 1, .cancelled 0] := rfl
    rcases her.kept 1 (by decide) with (hr | delayed | left) | ⟨now, hi⟩ | cancelled
    · cases hr
    · cases delayed
    · cases left
    · rw [ha] at hi
      simp at hi
    · rw [ha] at cancelled
      simp at cancelled
  · intro her
    have ha : (run (step 1) .start resetLate).acts =
        [.cancelled 0, .invoked 0 1] := rfl
    have ho := her.once
    rw [ha] at ho
    exact ((pairwise_cons.mp ho).1 _ mem_cons_self 0 1 rfl).1 rfl

end Ae.Tasks.TaskSubscriptions
