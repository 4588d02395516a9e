/- source: cloud_connections/{cloud_server_connections,cloud_server_connection}.cpp
   digest: The selected servers stay ranked by priority, before every server that is not selected. -/

import Ae.CloudConnections.Selecting

set_option autoImplicit false

namespace Ae.CloudConnections.Ranking
open List Lib.EventRun Selecting CloudServerConnections Prod

variable {n : Nat}

/-- The selected servers are distinct, at most `limit`, free, ranked by their priorities, and
no free server outside is ranked before one of them. -/
structure WellSelected (limit : Nat) (s : CloudServerConnections n) : Prop where
  distinct : s.selected.Nodup
  bounded : s.selected.length ≤ limit
  free : ∀ i ∈ s.selected, (s.servers i).quarantined = false
  increasing : s.selected.Pairwise fun i j => (s.servers i).priority < (s.servers j).priority
  best : ∀ i, i ∉ s.selected → (s.servers i).quarantined = false →
    ∀ j ∈ s.selected, ¬ (s.servers i).priority < (s.servers j).priority

/-- A selected server has the priority of a selection, which is below the number of servers;
a failure lifts a priority above it until the next selection. -/
structure Ranked (s : CloudServerConnections n) : Prop where
  increasing : s.selected.Pairwise fun i j => (s.servers i).priority < (s.servers j).priority
  small : ∀ j ∈ s.selected, (s.servers j).priority < n
  outside : ∀ i, i ∉ s.selected → ∀ j ∈ s.selected, (s.servers j).priority < (s.servers i).priority
  demoted : ∀ i, (s.servers i).quarantined = true → n ≤ (s.servers i).priority

section

variable {s : CloudServerConnections n} {server : Fin n} {turn : Turn n}

theorem release_priority (i : Fin n) :
    ((s.release turn server).servers i).priority = (s.servers i).priority := by
  by_cases same : i = server
  · rw [same, release_same]
  · rw [release_other same]

theorem release_quarantined {i : Fin n}
    (hq : ((s.release turn server).servers i).quarantined = true) :
    (s.servers i).quarantined = true := by
  by_cases same : i = server
  · rw [same, release_same] at hq
    cases hq
  · rw [release_other same] at hq
    exact hq

theorem Ranked.badServer (hr : Ranked s) (turn : Turn n) (server : Fin n) :
    Ranked (s.badServer turn server) := by
  have hk : ∀ j ∈ (s.badServer turn server).selected, j ∈ s.selected ∧
      (s.badServer turn server).servers j = s.servers j := by
    intro j hm
    obtain ⟨hs, hn⟩ := mem_filter.mp hm
    exact ⟨hs, badServer_other (of_decide_eq_true hn)⟩
  obtain ⟨hl, -⟩ := badServer_same s server turn
  refine ⟨?_, ?_, ?_, ?_⟩
  · refine (hr.increasing.sublist filter_sublist).imp_of_mem ?_
    intro i j hi hj hls
    rw [(hk i hi).2, (hk j hj).2]
    exact hls
  · intro j hm
    rw [(hk j hm).2]
    exact hr.small j (hk j hm).1
  · intro i hu j hm
    rw [(hk j hm).2]
    by_cases same : i = server
    · have hsm := hr.small j (hk j hm).1
      rw [same, hl]
      omega
    · rw [badServer_other same]
      refine hr.outside i (fun hs => hu ?_) j (hk j hm).1
      exact mem_filter.mpr ⟨hs, decide_eq_true same⟩
  · intro i hq
    by_cases same : i = server
    · rw [same, hl]
      omega
    · rw [badServer_other same] at hq ⊢
      exact hr.demoted i hq

theorem Ranked.release (hr : Ranked s) (turn : Turn n) (server : Fin n) :
    Ranked (s.release turn server) := by
  refine ⟨?_, ?_, ?_, ?_⟩
  · simp only [release_priority]
    exact hr.increasing
  · simp only [release_priority]
    exact hr.small
  · simp only [release_priority]
    exact hr.outside
  · intro i hq
    rw [release_priority]
    exact hr.demoted i (release_quarantined hq)

end

section

variable {s t : CloudServerConnections n} {turn : Turn n}

variable (s turn) in
theorem select_priority (e : Fin n × Nat) :
    (∀ i, i ≠ e.1 → (s.select turn e).servers i = s.servers i) ∧
    (((s.select turn e).selected = s.selected ++ [e.1] ∧
        ((s.select turn e).servers e.1).priority = e.2 ∧
        ((s.select turn e).servers e.1).quarantined =
          (s.servers e.1).quarantined) ∨
      ((s.select turn e).selected = (s.selected ++ [e.1]).filter (· ≠ e.1) ∧
        ((s.select turn e).servers e.1).priority = e.2 + n)) := by
  let p : CloudServerConnections n := { s with selected := s.selected ++ [e.1] }
  let b : CloudServerConnections n := p.modify e.1 fun sc =>
    { sc with priority := e.2, isConnection := true }
  have hh : b.servers e.1 =
      { s.servers e.1 with priority := e.2, isConnection := true } := modify_same _
  have priority : (b.servers e.1).priority = e.2 := by rw [hh]
  have hq : (b.servers e.1).quarantined = (s.servers e.1).quarantined := by
    rw [hh]
  have ho : ∀ i, i ≠ e.1 → b.servers i = s.servers i := fun i => modify_other _
  rw [select]
  split
  · exact ⟨ho, .inl ⟨rfl, priority, hq⟩⟩
  · rw [subscribeToServerState]
    split
    · refine ⟨fun i hn => (badServer_other hn).trans (ho i hn), .inr ⟨rfl, ?_⟩⟩
      exact (badServer_same b e.1 turn).1.trans (by rw [priority])
    · have subscribed : (b.modify e.1 fun sc =>
          { sc with subscribed := true }).servers e.1 =
            { b.servers e.1 with subscribed := true } := modify_same _
      exact ⟨fun i hn => (modify_other _ hn).trans (ho i hn),
        .inl ⟨rfl, (congrArg CloudServerConnection.priority subscribed).trans priority,
          (congrArg CloudServerConnection.quarantined subscribed).trans hq⟩⟩

structure Chosen (s t : CloudServerConnections n) (l : List (Fin n × Nat)) : Prop where
  within : t.selected.Sublist (l.map fst)
  kept : ∀ e ∈ l, e.1 ∈ t.selected → (t.servers e.1).priority = e.2 ∧
    (t.servers e.1).quarantined = (s.servers e.1).quarantined
  dropped : ∀ e ∈ l, e.1 ∉ t.selected → (t.servers e.1).priority = e.2 + n
  others : ∀ i, i ∉ l.map fst → t.servers i = s.servers i

theorem Chosen.append {u : CloudServerConnections n} {l : List (Fin n × Nat)}
    (hc : Chosen s t l) {en : Fin n × Nat} (hf : en.1 ∉ l.map fst)
    (hw : u.selected.Sublist ((l ++ [en]).map fst))
    (hs : ∀ i, i ≠ en.1 → (i ∈ u.selected ↔ i ∈ t.selected))
    (hot : ∀ i, i ≠ en.1 → u.servers i = t.servers i)
    (hk : en.1 ∈ u.selected → (u.servers en.1).priority = en.2 ∧
      (u.servers en.1).quarantined = (s.servers en.1).quarantined)
    (hd : en.1 ∉ u.selected → (u.servers en.1).priority = en.2 + n) :
    Chosen s u (l ++ [en]) := by
  have hn : ∀ e ∈ l, e.1 ≠ en.1 :=
    fun e he hsm => hf (hsm ▸ mem_map_of_mem he)
  refine ⟨hw, fun e he mem => ?_, fun e he hm => ?_, fun i ho => ?_⟩
  · rcases mem_append.mp he with old | new
    · rw [hot e.1 (hn e old)]
      exact hc.kept e old ((hs e.1 (hn e old)).mp mem)
    · obtain rfl := mem_singleton.mp new
      exact hk mem
  · rcases mem_append.mp he with old | new
    · rw [hot e.1 (hn e old)]
      exact hc.dropped e old (mt (hs e.1 (hn e old)).mpr hm)
    · obtain rfl := mem_singleton.mp new
      exact hd hm
  · simp only [map_append, map_cons, map_nil, mem_append, mem_singleton, not_or] at ho
    exact (hot i ho.2).trans (hc.others i ho.1)

theorem Chosen.select {l : List (Fin n × Nat)} (hc : Chosen s t l) {e : Fin n × Nat}
    (hf : e.1 ∉ l.map fst) : Chosen s (t.select turn e) (l ++ [e]) := by
  have hu : e.1 ∉ t.selected := fun hm => hf (hc.within.subset hm)
  obtain ⟨ho, hef⟩ := select_priority t turn e
  rcases hef with ⟨hs, hp, hq⟩ | ⟨hs, hp⟩
  · have hl : e.1 ∈ (t.select turn e).selected := by
      rw [hs]
      exact mem_append_right _ (mem_singleton_self _)
    refine hc.append hf ?_ (fun i hn => ?_) ho (fun _ => ?_) (absurd hl)
    · rw [hs, map_append]
      exact hc.within.append (Sublist.refl _)
    · rw [hs, mem_append, mem_singleton]
      exact or_iff_left hn
    · exact ⟨hp, hq.trans (by rw [hc.others _ hf])⟩
  · have he : (t.select turn e).selected = t.selected := by
      have ha : t.selected.filter (· ≠ e.1) = t.selected :=
        filter_eq_self.mpr fun i hm =>
          decide_eq_true fun hh => hu (hh ▸ hm)
      have hg : [e.1].filter (· ≠ e.1) = [] := by simp
      rw [hs, filter_append, ha, hg, append_nil]
    refine hc.append hf ?_ (fun i _ => by rw [he]) ho (fun hm => ?_)
      fun _ => hp
    · rw [he, map_append]
      exact hc.within.trans (sublist_append_left ..)
    · rw [he] at hm
      exact absurd hm hu

variable (s turn) in
theorem chosen_foldl (l : List (Fin n × Nat)) (hd : (l.map fst).Nodup) :
    Chosen s (l.foldl (select turn) { s with selected := [] }) l := by
  induction l using reverseRecOn with
  | nil => exact ⟨.slnil, by simp, by simp, fun _ _ => rfl⟩
  | append_singleton l e ih =>
    rw [map_append, map_singleton, nodup_append] at hd
    rw [foldl_append, foldl_cons, foldl_nil]
    refine (ih hd.1).select fun hm => ?_
    exact hd.2.2 _ hm _ (mem_singleton_self _) rfl

theorem foldl_endConnection_priority (l : List (Fin n × Nat)) (hd : (l.map fst).Nodup)
    (s : CloudServerConnections n) :
    let t := l.foldl (fun s en => s.endConnection en.1 en.2) s
    (∀ e ∈ l, (t.servers e.1).priority = e.2) ∧
      ∀ i, i ∉ l.map fst → t.servers i = s.servers i := by
  induction l using reverseRecOn with
  | nil => exact ⟨by simp, fun _ _ => rfl⟩
  | append_singleton l en ih =>
    rw [map_append, map_singleton, nodup_append] at hd
    obtain ⟨hp, hf⟩ := ih hd.1
    simp only [foldl_append, foldl_cons, foldl_nil]
    refine ⟨?_, ?_⟩
    · intro e he
      rcases mem_append.mp he with old | new
      · have hn : e.1 ≠ en.1 := fun hs => hd.2.2 _ (mem_map_of_mem old) _
          (mem_singleton_self _) hs
        rw [endConnection, modify_other _ hn]
        exact hp e old
      · obtain rfl := mem_singleton.mp new
        exact congrArg CloudServerConnection.priority (modify_same _)
    · intro i ho
      simp only [map_append, map_cons, map_nil, mem_append, mem_singleton, not_or] at ho
      exact (modify_other _ ho.2).trans (hf i ho.1)

theorem zipIdx_increasing {α : Type} (l : List α) : l.zipIdx.Pairwise fun a b => a.2 < b.2 := by
  rw [pairwise_iff_getElem]
  intro i j hi hj hl
  simpa using hl

theorem snd_lt_of_mem_take {α : Type} {l : List α} {k : Nat} {e : α × Nat}
    (hm : e ∈ l.zipIdx.take k) : e.2 < k := by
  obtain ⟨i, hi, rfl⟩ := mem_take_iff_getElem.mp hm
  rw [getElem_zipIdx]
  simp only [length_zipIdx] at hi
  omega

theorem le_snd_of_mem_drop {α : Type} {l : List α} {k : Nat} {e : α × Nat}
    (hm : e ∈ l.zipIdx.drop k) : k ≤ e.2 := by
  obtain ⟨i, hi, rfl⟩ := mem_drop_iff_getElem.mp hm
  rw [getElem_zipIdx]
  omega

theorem exists_mem_zipIdx {α : Type} {l : List α} {a : α} (hm : a ∈ l) :
    ∃ p, (a, p) ∈ l.zipIdx := by
  rw [← zipIdx_map_fst 0 l] at hm
  obtain ⟨e, he, rfl⟩ := mem_map.mp hm
  exact ⟨e.2, he⟩

/-- Where `SelectServers` leaves the candidates: a selected one has its index, one that failed
at once is lifted above all indices, the others keep an index behind the selected ones. -/
structure Placed (s t : CloudServerConnections n) (candidates : List (Fin n)) (count : Nat) :
    Prop where
  order : t.selected.Sublist candidates
  inside : ∀ e ∈ candidates.zipIdx, e.1 ∈ t.selected → e.2 < count ∧
    (t.servers e.1).priority = e.2 ∧ (t.servers e.1).quarantined = (s.servers e.1).quarantined
  outside : ∀ e ∈ candidates.zipIdx, e.1 ∉ t.selected → (t.servers e.1).priority = e.2 + n ∨
    (count ≤ e.2 ∧ (t.servers e.1).priority = e.2 ∧
      (t.servers e.1).quarantined = (s.servers e.1).quarantined)
  rest : ∀ i, i ∉ candidates → t.servers i = s.servers i

variable {candidates : List (Fin n)}

variable (s turn) in
theorem selectServers_placed (hdt : candidates.Nodup) :
    Placed s (s.selectServers turn candidates) candidates
      (min candidates.length s.maxConnections) := by
  let co := min candidates.length s.maxConnections
  let first := candidates.zipIdx.take co
  let se := candidates.zipIdx.drop co
  let c := first.foldl (select turn) { s with selected := [] }
  let en := se.foldl (fun s entry => s.endConnection entry.1 entry.2) c
  have hb : first ++ se = candidates.zipIdx := take_append_drop ..
  have hf : first.map fst ++ se.map fst = candidates := by
    rw [← map_append, hb, zipIdx_map_fst]
  rw [← hf, nodup_append] at hdt
  obtain ⟨hds, hd, hdf⟩ := hdt
  have ha : ∀ i ∈ first.map fst, i ∉ se.map fst :=
    fun i he late => hdf i he i late rfl
  have hp : Chosen s c first := chosen_foldl s turn first hds
  obtain ⟨hg, hfr⟩ := foldl_endConnection_priority se hd c
  obtain ⟨selected, -, -, hq⟩ := foldl_endConnection se c
  change Placed s { en with notified := en.selected } candidates co
  refine ⟨?_, ?_, ?_, ?_⟩
  · change en.selected.Sublist candidates
    rw [selected, ← hf]
    exact hp.within.trans (sublist_append_left ..)
  · intro e entry mem
    change e.1 ∈ en.selected at mem
    rw [selected] at mem
    have he : e.1 ∈ first.map fst := hp.within.subset mem
    rw [← hb] at entry
    rcases mem_append.mp entry with hh | late
    · refine ⟨snd_lt_of_mem_take hh, ?_⟩
      change (en.servers e.1).priority = _ ∧ (en.servers e.1).quarantined = _
      rw [hfr e.1 (ha e.1 he)]
      exact hp.kept e hh mem
    · exact absurd (mem_map_of_mem late) (ha e.1 he)
  · intro e entry hm
    change e.1 ∉ en.selected at hm
    rw [selected] at hm
    rw [← hb] at entry
    rcases mem_append.mp entry with he | late
    · apply Or.inl
      change (en.servers e.1).priority = _
      rw [hfr e.1 (ha e.1 (mem_map_of_mem he))]
      exact hp.dropped e he hm
    · refine Or.inr ⟨le_snd_of_mem_drop late, hg e late, ?_⟩
      change (en.servers e.1).quarantined = _
      rw [hq e.1, hp.others e.1 fun he => ha e.1 he (mem_map_of_mem late)]
  · intro i ho
    rw [← hf, mem_append, not_or] at ho
    exact (hfr i ho.2).trans (hp.others i ho.1)

theorem Placed.increasing {c : Nat} (hp : Placed s t candidates c) :
    t.selected.Pairwise fun i j => (t.servers i).priority < (t.servers j).priority := by
  have he : candidates.zipIdx.Pairwise fun a b => a.1 ∈ t.selected → b.1 ∈ t.selected →
      (t.servers a.1).priority < (t.servers b.1).priority := by
    refine (zipIdx_increasing candidates).imp_of_mem ?_
    intro a b ha hb hl sa sb
    rw [(hp.inside a ha sa).2.1, (hp.inside b hb sb).2.1]
    exact hl
  have ho : candidates.Pairwise fun i j => i ∈ t.selected → j ∈ t.selected →
      (t.servers i).priority < (t.servers j).priority := by
    rw [← zipIdx_map_fst 0 candidates]
    exact pairwise_map.mpr he
  exact (ho.sublist hp.order).imp_of_mem fun hi hj hl => hl hi hj

theorem Placed.ranked {c : Nat} (hp : Placed s t candidates c) (hsl : c ≤ n)
    (ha : ∀ i, i ∈ candidates ↔ (s.servers i).quarantined = false)
    (hd : ∀ i, (s.servers i).quarantined = true → n ≤ (s.servers i).priority) : Ranked t := by
  have hs : ∀ j ∈ t.selected, (t.servers j).priority < c ∧
      (t.servers j).quarantined = false := by
    intro j hm
    have hf := hp.order.subset hm
    obtain ⟨p, he⟩ := exists_mem_zipIdx hf
    obtain ⟨hls, hpr, hsm⟩ := hp.inside (j, p) he hm
    exact ⟨by simp only at hls hpr; omega, hsm.trans ((ha j).mp hf)⟩
  have hh : ∀ i, i ∉ candidates → n ≤ (t.servers i).priority := by
    intro i ho
    rw [hp.rest i ho]
    exact hd i (eq_true_of_ne_false fun hf => ho ((ha i).mpr hf))
  refine ⟨hp.increasing, ?_, ?_, ?_⟩
  · intro j hm
    have hls := (hs j hm).1
    omega
  · intro i hms j hm
    have hls := (hs j hm).1
    by_cases hc : i ∈ candidates
    · obtain ⟨p, he⟩ := exists_mem_zipIdx hc
      rcases hp.outside (i, p) he hms with hl | ⟨hlt, hpr, -⟩
      · simp only at hl
        omega
      · simp only at hlt hpr
        omega
    · have hl := hh i hc
      omega
  · intro i hq
    by_cases hc : i ∈ candidates
    · by_cases hm : i ∈ t.selected
      · rw [(hs i hm).2] at hq
        cases hq
      · obtain ⟨p, he⟩ := exists_mem_zipIdx hc
        rcases hp.outside (i, p) he hm with hl | ⟨-, -, hsm⟩
        · simp only at hl
          omega
        · rw [hsm, (ha i).mp hc] at hq
          cases hq
    · exact hh i hc

end

section

variable {s : CloudServerConnections n} {sorting : Sorting (Fin n)}

theorem Ranked.initServers (hr : Ranked s) (turn : Turn n) :
    Ranked (s.initServers sorting turn) := by
  rw [CloudServerConnections.initServers]
  split
  · exact hr
  · have hd := nodup_serverCandidates sorting s
    have hf := hd.length_le_card
    rw [Fintype.card_fin] at hf
    exact (selectServers_placed s turn hd).ranked (by omega)
      (fun i => mem_serverCandidates) hr.demoted

theorem Ranked.step (hr : Ranked s) (e : Event n) : Ranked (s.step sorting e) := by
  rcases step_cases sorting s e with he | ⟨turn, server, hb⟩ | ⟨turn, server, hrl⟩ | ⟨turn, ht⟩
  · rw [he]
    exact hr
  · rw [hb]
    exact hr.badServer turn server
  · rw [hrl]
    exact hr.release turn server
  · have hu : Ranked { s with deferred := false } :=
      ⟨hr.increasing, hr.small, hr.outside, hr.demoted⟩
    rw [ht]
    exact hu.initServers turn

theorem initServers_maxConnections (turn : Turn n) :
    (s.initServers sorting turn).maxConnections = s.maxConnections := by
  rw [initServers]
  split
  · rfl
  · exact (selectServers_selected turn (nodup_serverCandidates sorting s)
      fun i => mem_serverCandidates.mp).2.2.2.1

theorem step_maxConnections (e : Event n) :
    (s.step sorting e).maxConnections = s.maxConnections := by
  rcases step_cases sorting s e with he | ⟨turn, server, hb⟩ | ⟨turn, server, hr⟩ | ⟨turn, ht⟩
  · rw [he]
  · rw [hb]
    rfl
  · rw [hr]
    rfl
  · rw [ht]
    exact initServers_maxConnections turn

theorem wellSelected_of_ranked {l : Nat} (hs : Sound s) (hr : Ranked s)
    (he : s.maxConnections = l) : WellSelected l s where
  distinct := hs.distinct.sublist hs.told
  bounded := he ▸ hs.told.length_le.trans hs.bounded
  free := hs.free
  increasing := hr.increasing
  best i hm _ j mem := Nat.not_lt.mpr (le_of_lt (hr.outside i hm j mem))

theorem Ranked.initial (mc : Nat) :
    Ranked (initServerConnections mc : CloudServerConnections n) where
  increasing := .nil
  small _ mem := by cases mem
  outside _ _ _ mem := by cases mem
  demoted _ quarantined := by cases quarantined

variable (sorting) in
/-- Whatever fails and whenever a quarantine ends, in every state of every run the selected
servers are the best ranked free ones. -/
theorem selected_servers_ranked (maxConnections : Nat) (turn : Turn n)
    (events : List (Event n)) :
    Always (step sorting) (WellSelected maxConnections)
      (.start sorting maxConnections turn) events := by
  refine Always.of_invariant (G := fun _ _ => True)
    (I := fun s => Sound s ∧ Ranked s ∧ s.maxConnections = maxConnections) ?_ ?_ ?_ along_true
  · rintro s e ⟨hs, hr, he⟩ -
    exact ⟨hs.step e, hr.step e, (step_maxConnections e).trans he⟩
  · rintro s ⟨hs, hr, he⟩
    exact wellSelected_of_ranked hs hr he
  · exact ⟨(Sound.initial maxConnections).initServers turn,
      (Ranked.initial maxConnections).initServers turn, initServers_maxConnections turn⟩

/-! A priority is a `std::size_t` in the source. It grows by the number of servers at most once
for each event, so it does not wrap in any run of fewer than `2 ^ 64 / n - 2` events. -/

variable (sorting) in
theorem initServers_priority_lt {bound : Nat} (room : 2 * n ≤ bound) (turn : Turn n)
    (below : ∀ i, (s.servers i).priority < bound) (i : Fin n) :
    ((s.initServers sorting turn).servers i).priority < bound := by
  rw [initServers]
  split
  · exact below i
  · have distinct := nodup_serverCandidates sorting s
    have placed := selectServers_placed s turn distinct
    have few := distinct.length_le_card
    rw [Fintype.card_fin] at few
    by_cases candidate : i ∈ s.serverCandidates sorting
    · obtain ⟨p, he⟩ := exists_mem_zipIdx candidate
      have index : p < (s.serverCandidates sorting).length := (mem_zipIdx' he).1
      by_cases hm : i ∈ (s.selectServers turn (s.serverCandidates sorting)).selected
      · have hp := (placed.inside _ he hm).2.1
        simp only at hp
        omega
      · rcases placed.outside _ he hm with hl | ⟨-, hp, -⟩
        · simp only at hl
          omega
        · simp only at hp
          omega
    · rw [placed.rest i candidate]
      exact below i

theorem step_priority_lt {bound : Nat} (room : 2 * n ≤ bound) (e : Event n)
    (below : ∀ i, (s.servers i).priority < bound) (i : Fin n) :
    ((s.step sorting e).servers i).priority < bound + n := by
  have here := below i
  rcases step_cases sorting s e with he | ⟨turn, server, bad⟩ | ⟨turn, server, hr⟩ | ⟨turn, ht⟩
  · rw [he]
    omega
  · rw [bad]
    by_cases he : i = server
    · rw [he, (badServer_same s server turn).1, ← he]
      omega
    · rw [badServer_other he]
      omega
  · rw [hr, release_priority]
    omega
  · rw [ht]
    have taken : ∀ j, (({ s with deferred := false } : CloudServerConnections n).servers
        j).priority < bound := below
    have kept := initServers_priority_lt sorting room turn taken i
    omega

variable (n) in
/-- An event raises no bound on the priorities by more than the number of servers, and so they
stay below a multiple of it that the number of events gives. -/
theorem priority_lt (sorting : Sorting (Fin n)) :
    (∀ (s : CloudServerConnections n) (e : Event n) (bound : Nat), 2 * n ≤ bound →
      (∀ i, (s.servers i).priority < bound) →
        ∀ i, ((s.step sorting e).servers i).priority < bound + n) ∧
    ∀ (maxConnections : Nat) (turn : Turn n) (events : List (Event n)) (i : Fin n),
      ((run (step sorting) (.start sorting maxConnections turn)
        events).servers i).priority < n * (events.length + 2) := by
  refine ⟨fun s e bound room => step_priority_lt room e, fun maxConnections turn events => ?_⟩
  induction events using reverseRecOn with
  | nil =>
    exact initServers_priority_lt sorting (Nat.mul_comm 2 n).le turn fun j =>
      Nat.mul_pos j.pos (Nat.succ_pos _)
  | append_singleton events e ih =>
    intro i
    rw [run, foldl_append, length_append]
    have room : 2 * n ≤ n * (events.length + 2) := by
      rw [Nat.mul_comm 2 n]
      exact Nat.mul_le_mul_left n (Nat.le_add_left 2 _)
    exact step_priority_lt room e ih i

end

end Ae.CloudConnections.Ranking
