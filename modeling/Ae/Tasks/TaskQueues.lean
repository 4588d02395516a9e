/- source: tasks/details/{manual_task_scheduler,task_queues}.h
   digest: The queues of the scheduler hold live tasks, each once, whatever subscriptions do. -/

import Ae.Tasks.Scheduling

set_option autoImplicit false

namespace Ae.Tasks.TaskQueues
open Function List Scheduling ManualTaskScheduler Prod

variable {T : Type}

section

variable {s : ManualTaskScheduler T} {id : Nat} {t : GenericTask T}

theorem lookup_lt (hf : s.tasks[id]? = some t) : id < s.tasks.length :=
  (List.getElem?_eq_some_iff.mp hf).1

theorem lookup_append (hf : s.tasks[id]? = some t) (x : GenericTask T) :
    (s.tasks ++ [x])[id]? = some t :=
  (getElem?_append_left (lookup_lt hf)).trans hf

theorem lookup_of_append {x : GenericTask T} (hk : id < s.tasks.length)
    (hf : (s.tasks ++ [x])[id]? = some t) : s.tasks[id]? = some t :=
  (getElem?_append_left hk).symm.trans hf

theorem lookup_concat (ts : List (GenericTask T)) (x : GenericTask T) :
    (ts ++ [x])[ts.length]? = some x :=
  getElem?_concat_length

theorem setActive_eq (s : ManualTaskScheduler T) (sl : Nat) (a : Active) :
    ∃ active, s.setActive sl a = { s with active := active } := by
  rw [setActive]
  split
  · exact ⟨s.active, rfl⟩
  · exact ⟨_, rfl⟩

theorem pool_of_free {ids : List Nat} {sl : Nat} (hl : (s.free ids).pool sl = some id) :
    s.pool sl = some id :=
  (Option.filter_eq_some_iff.mp hl).1

end

variable [LinearOrder T]

section

variable {tp : T} {id : Nat} {delayed : List (T × Nat)}

theorem insertDelayed_perm : (insertDelayed tp id delayed).Perm ((tp, id) :: delayed) := by
  rw [insertDelayed]
  refine perm_middle.trans (Perm.cons _ ?_)
  rw [rdropWhile_append_rtakeWhile]

variable (hs : delayed.Pairwise fun a b => b.1 ≤ a.1)
include hs

theorem rdropWhile_later {P : T × Nat → Bool}
    {low : T} (hen : ∀ p, P p = false → low ≤ p.1) : ∀ p ∈ delayed.rdropWhile P, low ≤ p.1 := by
  intro p hm
  have hsos : delayed.rdropWhile P ≠ [] := ne_nil_of_mem hm
  have hl := rdropWhile_last_not P delayed hsos
  have hss := hs.sublist ( rdropWhile_prefix P delayed).sublist
  rw [← dropLast_append_getLast hsos] at hm hss
  have hb := hen _ (eq_false_of_ne_true hl)
  rcases mem_append.mp hm with he | at_end
  · exact hb.trans ((pairwise_append.mp hss).2.2 p he _ mem_cons_self)
  · rwa [mem_singleton.mp at_end]

theorem insertDelayed_sorted :
    (insertDelayed tp id delayed).Pairwise fun a b => b.1 ≤ a.1 := by
  have hw := hs
  rw [← rdropWhile_append_rtakeWhile (p := fun p => !decide (tp < p.1)) (l := delayed),
    pairwise_append] at hw
  obtain ⟨hst, hmv, ha⟩ := hw
  rw [insertDelayed, pairwise_append, pairwise_cons]
  refine ⟨hst, ⟨fun p hm => ?_, hmv⟩, fun p hm q hn => ?_⟩
  · have he := mem_rtakeWhile_imp hm
    simpa using he
  · rcases mem_cons.mp hn with rfl | later
    · exact rdropWhile_later hs (fun p later => (by simpa using later : tp < p.1).le) p hm
    · exact ha p hm q later

end

section

variable {s : ManualTaskScheduler T}

def Stolen (s : ManualTaskScheduler T) (r : Running T) (id : Nat) : Prop :=
  match r.phase with
  | .regular => ∃ slot, s.tasks[id]? = some ⟨slot, none⟩
  | .delayed => ∃ slot e, s.tasks[id]? = some ⟨slot, some e⟩ ∧ e ≤ r.now

structure Queued (s : ManualTaskScheduler T) : Prop where
  pool : ∀ slot id, s.pool slot = some id → ∃ t, s.tasks[id]? = some t ∧ t.slot = slot
  live : ∀ id ∈ s.regular ++ s.delayed.map snd ++ s.batch,
    ∃ t, s.tasks[id]? = some t ∧ s.pool t.slot = some id
  distinct : (s.regular ++ s.delayed.map snd ++ s.batch).Nodup
  left : s.left <:+ s.batch
  regular : ∀ id ∈ s.regular, ∃ slot, s.tasks[id]? = some ⟨slot, none⟩
  delayed : ∀ p ∈ s.delayed, ∃ slot, s.tasks[p.2]? = some ⟨slot, some p.1⟩
  sorted : s.delayed.Pairwise fun a b => b.1 ≤ a.1
  batch : ∀ r, s.running = some r → ∀ id ∈ r.batch, Stolen s r id
  invoked : ∀ id now, .invoked id now ∈ s.acts → id < s.tasks.length ∧ ¬ Waits s id
  due : ∀ id now slot e, .invoked id now ∈ s.acts → s.tasks[id]? = some ⟨slot, some e⟩ → e ≤ now
  later : ∀ r, s.running = some r → r.before ≤ s.tasks.length ∧ ∀ id ∈ s.regular, r.before ≤ id
  quiet : s.trigger = false → s.regular = []
  awake : s.running = none → s.trigger = false → ∀ before w, s.last = some (before, w) →
    ∀ p ∈ s.delayed, w ≤ p.1

theorem queued_start : Queued (start : ManualTaskScheduler T) where
  pool := nofun
  live := nofun
  distinct := nodup_nil
  left := suffix_refl []
  regular := nofun
  delayed := nofun
  sorted := .nil
  batch := nofun
  invoked := nofun
  due := nofun
  later := nofun
  quiet _ := rfl
  awake := nofun

theorem Queued.relinked (hq : Queued s) (active : Nat → Active)
    (subs : Nat → Option (Nat × Nat)) (returned : List Nat) {acts : List (Act T)}
    (he : ∀ id now, .invoked id now ∈ acts → .invoked id now ∈ s.acts) :
    Queued { s with active := active, subs := subs, returned := returned, acts := acts } :=
  { hq with
    invoked := fun id now hm => hq.invoked id now (he id now hm)
    due := fun id now sl e hm => hq.due id now sl e (he id now hm) }

theorem Queued.triggered (hq : Queued s) : Queued { s with trigger := true } :=
  { hq with quiet := nofun, awake := nofun }

theorem Queued.lt (hq : Queued s) {id : Nat}
    (hl : id ∈ s.regular ++ s.delayed.map snd ++ s.batch) : id < s.tasks.length := by
  obtain ⟨t, hf, -⟩ := hq.live id hl
  exact lookup_lt hf

variable {r : Running T}

theorem Stolen.appended {l : ManualTaskScheduler T} {t : GenericTask T}
    (hg : l.tasks = s.tasks ++ [t]) {id : Nat} (hs : Stolen s r id) :
    Stolen l r id := by
  rw [Stolen] at hs ⊢
  rw [hg]
  split at hs
  · obtain ⟨sl, hf⟩ := hs
    exact ⟨sl, lookup_append hf t⟩
  · obtain ⟨sl, e, hf, he⟩ := hs
    exact ⟨sl, e, lookup_append hf t, he⟩

section

variable (hq : Queued s)
include hq

theorem Queued.pool_emplace (t : GenericTask T) {slot id : Nat}
    (hl : (s.emplace t).pool slot = some id) :
    ∃ u, (s.emplace t).tasks[id]? = some u ∧ u.slot = slot := by
  have hl : Function.update s.pool t.slot (some s.tasks.length) slot = some id := hl
  by_cases same : slot = t.slot
  · rw [same, update_self] at hl
    obtain rfl := Option.some.inj hl
    exact ⟨t, lookup_concat s.tasks t, same.symm⟩
  · rw [update_of_ne same] at hl
    obtain ⟨old, hf, hh⟩ := hq.pool slot id hl
    exact ⟨old, lookup_append hf t, hh⟩

theorem Queued.added {t : GenericTask T} (hv : s.pool t.slot = none)
    {regular : List Nat} {delayed : List (T × Nat)} (hp : (regular ++ delayed.map snd).Perm
      (s.tasks.length :: (s.regular ++ s.delayed.map snd)))
    (hrt : ∀ id ∈ regular, id ∈ s.regular ∨ id = s.tasks.length ∧ t.expireAt = none)
    (hdt : ∀ p ∈ delayed, p ∈ s.delayed ∨ p.2 = s.tasks.length ∧ t.expireAt = some p.1)
    (hs : delayed.Pairwise fun a b => b.1 ≤ a.1) :
    Queued { s.emplace t with regular := regular, delayed := delayed, trigger := true } := by
  have hls : (regular ++ delayed.map snd ++ s.batch).Perm
      (s.tasks.length :: (s.regular ++ s.delayed.map snd ++ s.batch)) :=
    (hp.append_right s.batch).trans (Perm.refl _)
  have hfr : ∀ id ∈ s.regular ++ s.delayed.map snd ++ s.batch, id ≠ s.tasks.length :=
    fun id hm => ne_of_lt (hq.lt hm)
  have hc := lookup_concat s.tasks t
  have hln : (s.tasks ++ [t]).length = s.tasks.length + 1 := length_append
  refine ⟨fun _ _ => hq.pool_emplace t, ?_, ?_, hq.left, ?_, ?_, hs, ?_, ?_, ?_, ?_, nofun, nofun⟩
  · intro id hm
    rcases mem_cons.mp (hls.subset hm) with rfl | before
    · exact ⟨t, hc, update_self ..⟩
    · obtain ⟨old, hf, hl⟩ := hq.live id before
      refine ⟨old, lookup_append hf t, ?_⟩
      have ha : old.slot ≠ t.slot := by
        intro hsm
        rw [hsm, hv] at hl
        cases hl
      exact (update_of_ne ha ..).trans hl
  · exact hls.nodup_iff.mpr (nodup_cons.mpr
      ⟨fun hm => hfr _ hm rfl, hq.distinct⟩)
  · intro id hm
    rcases hrt id hm with before | ⟨rfl, hne⟩
    · obtain ⟨sl, hf⟩ := hq.regular id before
      exact ⟨sl, lookup_append hf t⟩
    · exact ⟨t.slot, hc.trans (by rw [← hne])⟩
  · intro p hm
    rcases hdt p hm with before | ⟨hae, he⟩
    · obtain ⟨sl, hf⟩ := hq.delayed p before
      exact ⟨sl, lookup_append hf t⟩
    · rw [hae, ← he]
      exact ⟨t.slot, hc⟩
  · exact fun r hr id hm => (hq.batch r hr id hm).appended rfl
  · intro id now hm
    obtain ⟨hk, hd⟩ := hq.invoked id now hm
    refine ⟨hln ▸ Nat.lt_succ_of_lt hk, fun hwt => hd ?_⟩
    have hn : id ≠ s.tasks.length := hk.ne
    rcases hwt with regular | delayed | left
    · exact .inl ((hrt id regular).resolve_right fun new => hn new.1)
    · obtain ⟨p, hq, rfl⟩ := mem_map.mp delayed
      have before := (hdt p hq).resolve_right fun new => hn new.1
      exact .inr (.inl (mem_map_of_mem before))
    · exact .inr (.inr left)
  · intro id now sl e hm hf
    have hk := (hq.invoked id now hm).1
    exact hq.due id now sl e hm (lookup_of_append hk hf)
  · intro r hr
    obtain ⟨hw, hlt⟩ := hq.later r hr
    refine ⟨hln ▸ Nat.le_succ_of_le hw, fun id hm => ?_⟩
    rcases hrt id hm with before | ⟨rfl, -⟩
    · exact hlt id before
    · exact hw

theorem Queued.task (c sl : Nat) : Queued (s.task c sl) := by
  rw [ManualTaskScheduler.task]
  split
  · next ha =>
    refine hq.added (t := ⟨sl, none⟩) ha.2.1 ?_ (fun id hm => ?_) (fun p => .inl)
      hq.sorted
    · rw [append_assoc]
      exact perm_middle
    · rcases mem_append.mp hm with hb | new
      · exact .inl hb
      · exact .inr ⟨mem_singleton.mp new, rfl⟩
  · exact hq.triggered

theorem Queued.delayedTask (c sl : Nat) (tp : T) :
    Queued (s.delayedTask c sl tp) := by
  rw [ManualTaskScheduler.delayedTask]
  split
  · next ha =>
    refine hq.added (t := ⟨sl, some tp⟩) ha.2.1 ?_ (fun id => .inl)
      (fun p hm => ?_) (insertDelayed_sorted hq.sorted)
    · exact ((insertDelayed_perm.map snd).append_left s.regular).trans perm_middle
    · rcases mem_cons.mp (insertDelayed_perm.subset hm) with rfl | before
      · exact .inr ⟨rfl, rfl⟩
      · exact .inl before
  · exact hq.triggered

theorem Queued.reset (sub : Nat) : Queued (s.reset sub) := by
  rw [ManualTaskScheduler.reset]
  split
  · exact hq
  · next sl id held =>
    obtain ⟨a, eq⟩ := setActive_eq s sl .cancelled
    rw [eq]
    refine hq.relinked a _ s.returned fun o now hm => ?_
    rcases mem_append.mp hm with hb | new
    · exact hb
    · cases mem_singleton.mp new

theorem Queued.attach (sub id : Nat) : Queued (s.attach sub id) := by
  rw [ManualTaskScheduler.attach]
  split
  · exact hq
  · split
    · next t found returned =>
      obtain ⟨a, eq⟩ := setActive_eq (s.reset sub) t.slot (.linked sub)
      rw [link, eq]
      exact (hq.reset sub).relinked a _ _ fun _ _ hm => hm
    · exact hq

theorem Queued.update (now : T) : Queued (s.update now) := by
  rw [ManualTaskScheduler.update]
  split
  · exact hq
  · next hi =>
    have hns : s.batch = [] := by rw [ManualTaskScheduler.batch, hi]; rfl
    have hl : ∀ id, id ∈ [] ++ s.delayed.map snd ++ s.regular ↔
        id ∈ s.regular ++ s.delayed.map snd ++ s.batch := by
      intro id
      rw [hns]
      simp [or_comm]
    refine ⟨hq.pool, fun id hm => hq.live id ((hl id).mp hm), ?_, suffix_refl _, nofun, hq.delayed,
      hq.sorted, ?_, ?_, hq.due, ?_, fun _ => rfl, nofun⟩
    · have hd := hq.distinct
      rw [hns, append_nil] at hd
      exact (perm_append_comm.nodup_iff).mp hd
    · rintro r ⟨⟩ id hm
      exact hq.regular id hm
    · intro id a hm
      obtain ⟨hk, hdn⟩ := hq.invoked id a hm
      refine ⟨hk, fun hw => hdn ?_⟩
      rcases hw with hnl | delayed | left
      · cases hnl
      · exact .inr (.inl delayed)
      · exact .inl left
    · rintro r ⟨⟩
      exact ⟨le_rfl, nofun⟩

theorem Queued.advanced (running : s.running = some r) {left : List Nat}
    (hls : left <:+ r.left) (checked : Bool) {acts : List (Act T)}
    (hmr : ∀ id now, .invoked id now ∈ acts → .invoked id now ∈ s.acts ∨
      now = r.now ∧ r.left = id :: left) :
    Queued
      { s with running := some { r with left := left, checked := checked }, acts := acts } := by
  have hbt : s.batch = r.batch := by rw [ManualTaskScheduler.batch, running]; rfl
  have hol : s.left = r.left := by rw [ManualTaskScheduler.left, running]; rfl
  have hl := hq.live
  have hd := hq.distinct
  have hw := hq.left
  rw [hbt] at hl hd hw
  rw [hol] at hw
  refine ⟨hq.pool, hl, hd, hls.trans hw, hq.regular, hq.delayed,
    hq.sorted, ?_, ?_, ?_, ?_, hq.quiet, nofun⟩
  · rintro r' ⟨⟩
    exact hq.batch r running
  · intro id now hm
    rcases hmr id now hm with hb | ⟨-, h1⟩
    · obtain ⟨hk, hdn⟩ := hq.invoked id now hb
      refine ⟨hk, fun hwt => hdn (hwt.imp_right (Or.imp_right fun still => ?_))⟩
      rw [hol]
      exact hls.subset still
    · have hs : id ∈ r.batch := hw.subset (h1 ▸ mem_cons_self)
      rw [nodup_append] at hd
      refine ⟨?_, fun hwt => ?_⟩
      · obtain ⟨t, hf, -⟩ := hl id (mem_append_right _ hs)
        exact lookup_lt hf
      · rcases hwt with hr | delayed | still
        · exact hd.2.2 id (mem_append_left _ hr) id hs rfl
        · exact hd.2.2 id (mem_append_right _ delayed) id hs rfl
        · have ho := (hw.sublist.nodup hd.2.1)
          rw [h1] at ho
          exact (nodup_cons.mp ho).1 still
  · intro id now sl e hm hf
    rcases hmr id now hm with hb | ⟨rfl, h1⟩
    · exact hq.due id now sl e hb hf
    · have hs := hq.batch r running id (hw.subset (h1 ▸ mem_cons_self))
      rw [Stolen] at hs
      split at hs
      · obtain ⟨s', hr⟩ := hs
        rw [hf] at hr
        cases hr
      · obtain ⟨s', e', delayed, he⟩ := hs
        rw [hf] at delayed
        cases delayed
        exact he
  · rintro r' ⟨⟩
    exact hq.later r running

theorem Queued.check : Queued s.check := by
  rw [ManualTaskScheduler.check]
  split
  · exact hq
  · next r running =>
    split
    · next id l checked first =>
      split
      · exact hq.advanced running (first ▸ suffix_cons id l) r.checked fun _ _ => .inl
      · exact hq.advanced running (suffix_refl _) true fun _ _ => .inl
    · exact hq

theorem Queued.invoke : Queued s.invoke := by
  rw [ManualTaskScheduler.invoke]
  split
  · exact hq
  · next r running =>
    split
    · next id l checked first =>
      refine hq.advanced running (first ▸ suffix_cons id l) false
        fun o now hm => ?_
      rcases mem_append.mp hm with hb | new
      · exact .inl hb
      · cases mem_singleton.mp new
        exact .inr ⟨rfl, first⟩
    · exact hq

theorem Queued.live_free {id : Nat} (hl : id ∈ s.regular ++ s.delayed.map snd) :
    ∃ t, s.tasks[id]? = some t ∧ (s.free s.batch).pool t.slot = some id := by
  obtain ⟨t, hf, hlv⟩ := hq.live id (mem_append_left _ hl)
  have ha : id ∉ s.batch := fun hs =>
    (nodup_append.mp hq.distinct).2.2 id hl id hs rfl
  exact ⟨t, hf, Option.filter_eq_some_iff.mpr ⟨hlv, by simpa using ha⟩⟩

end

theorem getLast_le {delayed : List (T × Nat)} [OrderTop T]
    (hs : delayed.Pairwise fun a b => b.1 ≤ a.1) :
    ∀ p ∈ delayed, (delayed.getLast?.map fst).getD ⊤ ≤ p.1 := by
  intro p hm
  have hsl := ne_nil_of_mem hm
  rw [getLast?_eq_some_getLast hsl, Option.map_some, Option.getD_some]
  rw [← dropLast_append_getLast hsl] at hm hs
  rcases mem_append.mp hm with he | at_end
  · exact (pairwise_append.mp hs).2.2 p he _ mem_cons_self
  · rw [mem_singleton.mp at_end]

theorem Queued.steal (hq : Queued s) (running : s.running = some r) :
    let stolen := (s.delayed.rtakeWhile fun p => decide (p.1 ≤ r.now)).map snd
    Queued { s.free r.batch with
      delayed := s.delayed.rdropWhile fun p => decide (p.1 ≤ r.now)
      running := some ⟨r.now, .delayed, r.before, stolen, stolen, false⟩ } := by
  intro stolen
  have hb : s.batch = r.batch := by rw [ManualTaskScheduler.batch, running]; rfl
  have hsp := rdropWhile_append_rtakeWhile (p := fun p => decide (p.1 ≤ r.now))
    (l := s.delayed)
  have hi : s.delayed.map snd =
      (s.delayed.rdropWhile fun p => decide (p.1 ≤ r.now)).map snd ++ stolen := by
    rw [← map_append, hsp]
  have hs := ( rdropWhile_prefix (fun p => decide (p.1 ≤ r.now)) s.delayed).sublist
  refine ⟨fun sl id hl => hq.pool sl id (pool_of_free hl), ?_, ?_,
    suffix_refl _, hq.regular, fun p hm => hq.delayed p (hs.subset hm),
    hq.sorted.sublist hs, ?_, ?_, hq.due, ?_, hq.quiet, nofun⟩
  · intro id hm
    rw [append_assoc] at hm
    exact hb ▸ hq.live_free (hi.symm ▸ hm)
  · have hd := (nodup_append.mp hq.distinct).1
    rw [hi, ← append_assoc] at hd
    exact hd
  · rintro r' ⟨⟩ id hm
    obtain ⟨p, ht, rfl⟩ := mem_map.mp hm
    obtain ⟨sl, hf⟩ := hq.delayed p ((rtakeWhile_suffix _ _).subset ht)
    have he := mem_rtakeWhile_imp ht
    exact ⟨sl, p.1, hf, of_decide_eq_true he⟩
  · intro id now hm
    obtain ⟨hk, hdn⟩ := hq.invoked id now hm
    refine ⟨hk, fun hw => hdn ?_⟩
    rcases hw with hr | delayed | left
    · exact .inl hr
    · exact .inr (.inl ((hs.map _).subset delayed))
    · exact .inr (.inl (hi ▸ mem_append_right _ left))
  · rintro r' ⟨⟩
    exact hq.later r running

variable [OrderTop T]

theorem Queued.return (hq : Queued s) (running : s.running = some r) :
    Queued { s.free r.batch with
      running := none
      last := some (r.before, (s.delayed.getLast?.map fst).getD ⊤) } := by
  have hb : s.batch = r.batch := by rw [ManualTaskScheduler.batch, running]; rfl
  refine ⟨fun sl id hlv => hq.pool sl id (pool_of_free hlv), ?_, ?_, suffix_refl _, hq.regular,
    hq.delayed, hq.sorted, nofun, ?_, hq.due, nofun, hq.quiet, ?_⟩
  · intro id hm
    rcases mem_append.mp hm with hl | none_stolen
    · exact hb ▸ hq.live_free hl
    · cases none_stolen
  · exact (append_nil _).symm ▸ (nodup_append.mp hq.distinct).1
  · intro id now hm
    obtain ⟨hk, hd⟩ := hq.invoked id now hm
    refine ⟨hk, fun hw => hd (hw.imp_right (Or.imp_right fun hnl => ?_))⟩
    cases hnl
  · rintro - - b w ⟨⟩
    exact getLast_le hq.sorted

theorem Queued.next (hq : Queued s) : Queued s.next := by
  rw [ManualTaskScheduler.next]
  split
  · exact hq
  · next r running =>
    split
    · exact hq.steal running
    · exact hq.return running
    · exact hq

theorem Queued.step (hq : Queued s) (c : Nat) (e : Event T) :
    Queued (s.step c e) := by
  cases e with
  | task sl => exact hq.task c sl
  | delayedTask sl tp => exact hq.delayedTask c sl tp
  | attach sub id => exact hq.attach sub id
  | reset sub => exact hq.reset sub
  | update now => exact hq.update now
  | check => exact hq.check
  | invoke => exact hq.invoke
  | next => exact hq.next

end

end Ae.Tasks.TaskQueues
