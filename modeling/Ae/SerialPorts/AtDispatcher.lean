/- source: serial_ports/at_support/at_dispatcher.cpp
   digest: A pass over the observers while they listen and remove, and what keeps it safe. -/

import Ae.Lib.EventRun
import Ae.SerialPorts.AtBuffer

set_option autoImplicit false

namespace Ae.SerialPorts.AtDispatcher
open List Lib.EventRun AtBuffer

/-- `FindPattern` asks whether a line holds the command. -/
def holds (command line : Line) : Bool :=
  (cutAt command line).isSome

/-- The inner loop of `BufferUpdate`: the positions `FindPattern` gives one after the other, each
with the lines from it on. -/
def positions (command : Line) : List Line → List (List Line)
  | [] => []
  | line :: rest =>
    if holds command line then (line :: rest) :: positions command rest
    else positions command rest

theorem of_mem_positions {c : Line} {search pos : List Line}
    (h : pos ∈ positions c search) : pos ≠ [] ∧ pos <:+ search := by
  induction search with
  | nil => cases h
  | cons l rest ih =>
    rw [positions] at h
    split_ifs at h with hf
    · obtain rfl | later := mem_cons.mp h
      · exact ⟨cons_ne_nil _ _, suffix_rfl⟩
      · exact (ih later).imp_right (·.trans (suffix_cons l rest))
    · exact (ih h).imp_right (·.trans (suffix_cons l rest))

def presented (command : Line) (reads : List Line) : List Line :=
  reads.flatMap fun read => (positions command (lines read)).filterMap List.head?

theorem head_positions (c : Line) (ls : List Line) :
    (positions c ls).filterMap head? = ls.filter (holds c) := by
  induction ls with
  | nil => rfl
  | cons l rest ih =>
    rw [positions]
    split_ifs with hf <;> simp [hf, ih]

theorem presented_eq (c : Line) (rs : List Line) :
    presented c rs = (rs.flatMap lines).filter (holds c) := by
  simp [presented, head_positions, filter_flatMap]

/-- The observers are shown the same lines as by one read exactly when each cut of the stream
meets a line end. -/
theorem presented_same_iff_whole (reads : List Line) :
    (∀ command, presented command reads = presented command [reads.flatten]) ↔ Whole reads := by
  rw [← lines_reads_iff]
  refine ⟨fun he => ?_, fun he command => by simp [presented_eq, he]⟩
  have hev (ls : List Line) : ls.filter (holds []) = ls := by
    refine filter_eq_self.mpr fun l _ => ?_
    rw [holds, cutAt_isSome_iff]
    exact l.nil_infix
  have ha := he []
  rw [presented_eq, presented_eq, hev, hev] at ha
  simpa using ha

/-- An answer that comes in two reads is shown as two lines. -/
theorem answer_split_in_two : presented [] [[79], [75, 13, 10]] = [[79], [75]] ∧
    presented [] [[79, 75, 13, 10]] = [[79, 75]] := by
  have ho (a : Line) (hc : ¬ crlf <:+: a) : lines (a ++ crlf) = nonEmpty a := by
    rw [lines_ended, lines_clean hc]
  have h1 : lines [79] = [[79]] := lines_clean (by decide)
  have h2 : lines [75, 13, 10] = [[75]] := ho [75] (by decide)
  have hw : lines [79, 75, 13, 10] = [[79, 75]] := ho [79, 75] (by decide)
  rw [presented_eq, presented_eq]
  simp only [flatMap_cons, flatMap_nil, h1, h2, hw]
  exact ⟨rfl, rfl⟩

variable {ω : Type}

/-- `observers_`, in the order of the commands. A removed observer is null there until the table
is cleaned up. -/
abbrev Table (ω : Type) := List (Line × Option ω)

def listen (command : Line) (observer : ω) : Table ω → Table ω
  | [] => [(command, some observer)]
  | entry :: rest =>
    if entry.1 = command then (command, some observer) :: rest
    else if command < entry.1 then (command, some observer) :: entry :: rest
    else entry :: listen command observer rest

def remove [DecidableEq ω] (observer : ω) (table : Table ω) : Table ω :=
  table.map fun entry => if entry.2 = some observer then (entry.1, none) else entry

def cleanupObservers (table : Table ω) : Table ω :=
  table.filter (·.2.isSome)

def lookup (table : Table ω) (command : Line) : Option ω :=
  (table.find? (·.1 = command)).bind (·.2)

/-- What an observer does to the dispatcher from inside `Observe`. -/
inductive Op (ω : Type) where
  | listen (command : Line) (observer : ω)
  | remove (observer : ω)

def Op.apply [DecidableEq ω] (table : Table ω) : Op ω → Table ω
  | .listen command observer => AtDispatcher.listen command observer table
  | .remove observer => AtDispatcher.remove observer table

/-- A call of `Observe`: through the null pointer when there is no observer. -/
structure Call (ω : Type) where
  command : Line
  observer : Option ω
  pos : List Line

/-- The calls of a whole pass, when no observer changes the table. -/
def observed (lines : List Line) (table : Table ω) : List (Call ω) :=
  table.flatMap fun entry =>
    if entry.2.isSome then (positions entry.1 lines).map (⟨entry.1, entry.2, ·⟩) else []

/-- A pass of `BufferUpdate`: the command in service with the lines it has still to search, the
calls made, and what the observers did in them. -/
structure Pass (ω : Type) where
  table : Table ω
  serving : Option (Line × List Line) := none
  calls : List (Call ω) := []
  done : List (Op ω) := []

/-- The calls that are left, as the table stands. The command in service keeps to its entry,
whatever that holds by now, and the entries behind it follow. -/
def Pass.left (lines : List Line) (p : Pass ω) : List (Call ω) :=
  match p.serving with
  | none => observed lines p.table
  | some (command, search) =>
    (positions command search).map (⟨command, lookup p.table command, ·⟩) ++
      observed lines (p.table.filter (command < ·.1))

def Pass.observe [DecidableEq ω] (lines : List Line) (p : Pass ω) (reaction : List (Op ω)) :
    Pass ω :=
  match p.left lines with
  | [] => p
  | call :: _ =>
    { table := reaction.foldl Op.apply p.table
      serving := some (call.command, call.pos.tail)
      calls := p.calls ++ [call]
      done := p.done ++ reaction }

section

variable {table : Table ω} {lines : List Line}

theorem mem_listen {co c : Line} {ob o : ω} (h : (c, some o) ∈ listen co ob table) :
    (c = co ∧ o = ob) ∨ (c, some o) ∈ table := by
  induction table with
  | nil => simp_all [listen]
  | cons e rest ih =>
    rw [listen] at h
    split_ifs at h <;> grind

theorem mem_of_lookup {c : Line} {o : ω} (h : lookup table c = some o) :
    (c, some o) ∈ table := by
  obtain ⟨e, hf, hh⟩ := Option.bind_eq_some_iff.mp h
  have he := find?_some hf
  have hm := mem_of_find?_eq_some hf
  rwa [← hh, ← of_decide_eq_true he]

theorem mem_observed {c : Call ω} (h : c ∈ observed lines table) :
    (∃ o, c.observer = some o ∧ (c.command, some o) ∈ table) ∧
      c.pos ∈ positions c.command lines := by
  obtain ⟨e, mem, hm⟩ := mem_flatMap.mp h
  split_ifs at hm with hl
  · obtain ⟨pos, hf, rfl⟩ := mem_map.mp hm
    obtain ⟨o, ho⟩ := Option.isSome_iff_exists.mp hl
    exact ⟨⟨o, ho, ho ▸ mem⟩, hf⟩
  · cases hm

end

variable [DecidableEq ω] {table : Table ω} {lines : List Line} {home : ω → Line} {p : Pass ω}

/-- An observer was removed, and has not listened since. -/
def removed (observer : ω) (done : List (Op ω)) : Bool :=
  done.foldl (fun gone op => match op with
    | .listen _ o => gone && o ≠ observer
    | .remove o => gone || o = observer) false

/-- A state of a pass: the next call goes to a registered observer, no observer was called twice
for a line or against their order, and the cleanup leaves no entry null nor any removed
observer. -/
structure Safe (lines : List Line) (p : Pass ω) : Prop where
  registered : ∀ call ∈ (p.left lines).head?, ∃ o, call.observer = some o ∧
    (call.command, some o) ∈ p.table
  inOrder : p.calls.Pairwise fun c d => c.observer = d.observer → d.pos.length < c.pos.length
  clean : ∀ entry ∈ cleanupObservers p.table, entry.2 ≠ none ∧
    ∀ o, removed o p.done → entry.2 ≠ some o

/-- The reaction to the next call: each observer listens for one command only, and the entry in
service is not left empty while a line behind holds its command. -/
def Careful (home : ω → Line) (lines : List Line) (p : Pass ω) (reaction : List (Op ω)) : Prop :=
  (∀ command o, .listen command o ∈ reaction → home o = command) ∧
  ∀ call ∈ (p.left lines).head?, positions call.command call.pos.tail ≠ [] →
    (lookup (reaction.foldl Op.apply p.table) call.command).isSome

theorem removed_concat (o : ω) (d : List (Op ω)) (op : Op ω) :
    removed o (d ++ [op]) = match op with
      | .listen _ o' => removed o d && o' ≠ o
      | .remove o' => removed o d || o' = o := by
  cases op <;> simp [removed]

theorem mem_remove {c : Line} {ob o : ω} (h : (c, some o) ∈ remove ob table) :
    o ≠ ob ∧ (c, some o) ∈ table := by
  obtain ⟨e, hm, he⟩ := mem_map.mp h
  split_ifs at he with hg
  · cases he
  · subst he
    exact ⟨fun he => hg (by rw [he]), hm⟩

structure Served (home : ω → Line) (p : Pass ω) : Prop where
  homes : ∀ command o, (command, some o) ∈ p.table → home o = command
  kept : ∀ command search, p.serving = some (command, search) → positions command search ≠ [] →
    (lookup p.table command).isSome
  made : ∀ call ∈ p.calls, ∃ o, call.observer = some o ∧ home o = call.command
  behind : ∀ call ∈ p.calls, ∃ command search, p.serving = some (command, search) ∧
    (call.command < command ∨ call.command = command ∧ search.length < call.pos.length)
  inOrder : p.calls.Pairwise fun c d => c.observer = d.observer → d.pos.length < c.pos.length
  gone : ∀ command o, (command, some o) ∈ p.table → removed o p.done = false

theorem Served.next (h : Served home p) {ca : Call ω} (hn : ca ∈ (p.left lines).head?) :
    (∃ o, ca.observer = some o ∧ (ca.command, some o) ∈ p.table) ∧ 0 < ca.pos.length ∧
      ∀ co se, p.serving = some (co, se) →
        co < ca.command ∨ co = ca.command ∧ ca.pos.length ≤ se.length := by
  have hm := mem_of_mem_head? hn
  rw [Pass.left] at hm
  cases serving : p.serving with
  | none =>
    rw [serving] at hm
    obtain ⟨hl, hf⟩ := mem_observed hm
    exact ⟨hl, length_pos_iff.mpr (of_mem_positions hf).1, nofun⟩
  | some s =>
    obtain ⟨co, se⟩ := s
    rw [serving] at hm
    obtain he | later := mem_append.mp hm
    · obtain ⟨pos, hf, rfl⟩ := mem_map.mp he
      have hl := h.kept co se serving (ne_nil_of_mem hf)
      obtain ⟨o, hh⟩ := Option.isSome_iff_exists.mp hl
      obtain ⟨some, hp⟩ := of_mem_positions hf
      refine ⟨⟨o, hh, mem_of_lookup hh⟩, length_pos_iff.mpr some, fun c s he => ?_⟩
      cases he
      exact .inr ⟨rfl, hp.length_le⟩
    · obtain ⟨⟨o, ho, hm⟩, hf⟩ := mem_observed later
      obtain ⟨hm, ha⟩ := mem_filter.mp hm
      have some := length_pos_iff.mpr (of_mem_positions hf).1
      refine ⟨⟨o, ho, hm⟩, some, fun c s he => ?_⟩
      cases he
      exact .inl (of_decide_eq_true ha)

theorem homes_apply {r : List (Op ω)} (ho : ∀ command o, .listen command o ∈ r → home o = command)
    (hh : ∀ command o, (command, some o) ∈ table → home o = command) (command : Line) (o : ω)
    (hm : (command, some o) ∈ r.foldl Op.apply table) : home o = command := by
  induction r generalizing table with
  | nil => exact hh command o hm
  | cons op rest ih =>
    refine ih (fun c o hm => ho c o (mem_cons_of_mem op hm)) (fun c o hm => ?_) hm
    cases op with
    | listen command ob =>
      obtain ⟨rfl, rfl⟩ | before := mem_listen hm
      · exact ho c o mem_cons_self
      · exact hh c o before
    | remove ob => exact hh c o (mem_remove hm).2

theorem gone_apply {d r : List (Op ω)}
    (hg : ∀ co o, (co, some o) ∈ table → removed o d = false) (co : Line)
    (o : ω) (hm : (co, some o) ∈ r.foldl Op.apply table) :
    removed o (d ++ r) = false := by
  induction r generalizing table d with
  | nil => simpa using hg co o hm
  | cons op rest ih =>
    rw [← singleton_append, ← append_assoc]
    refine ih (fun c o hm => ?_) hm
    rw [removed_concat]
    cases op with
    | listen co ob =>
      obtain ⟨rfl, rfl⟩ | before := mem_listen hm
      · simp
      · simp [hg c o before]
    | remove ob =>
      obtain ⟨hn, before⟩ := mem_remove hm
      simp [hg c o before, hn.symm]

theorem Served.observe (h : Served home p) {r : List (Op ω)}
    (hc : Careful home lines p r) : Served home (p.observe lines r) := by
  rw [Pass.observe]
  cases left : p.left lines with
  | nil => exact h
  | cons ca rest =>
    have hn : ca ∈ (p.left lines).head? := by rw [left]; rfl
    obtain ⟨⟨o, ho, hm⟩, hsm, haf⟩ := h.next hn
    have hp {c : Call ω} (hm : c ∈ p.calls) : c.command < ca.command ∨
        c.command = ca.command ∧ ca.pos.length < c.pos.length := by
      obtain ⟨co, s, hs, hpl⟩ := h.behind c hm
      obtain ha | ⟨rfl, hsz⟩ := haf co s hs
      · exact .inl (hpl.elim (List.lt_trans · ha) fun he => he.1 ▸ ha)
      · exact hpl.imp_right fun he => ⟨he.1, by omega⟩
    refine ⟨homes_apply hc.1 h.homes, ?_, ?_, ?_, ?_, gone_apply h.gone⟩
    · rintro co s he hl
      cases he
      exact hc.2 ca hn hl
    · refine forall_mem_append.mpr ⟨h.made, forall_mem_singleton.mpr ?_⟩
      exact ⟨o, ho, h.homes ca.command o hm⟩
    · refine forall_mem_append.mpr ⟨fun c hm => ?_, forall_mem_singleton.mpr ?_⟩
      · exact ⟨_, _, rfl, (hp hm).imp_right fun he => ⟨he.1, by simp; omega⟩⟩
      · exact ⟨_, _, rfl, .inr ⟨rfl, by simp; omega⟩⟩
    · refine pairwise_append.mpr ⟨h.inOrder, pairwise_singleton _ _, ?_⟩
      rintro c hm' _ hls he
      cases mem_singleton.mp hls
      -- both calls went to one observer, so both are for its one command
      obtain ⟨o', ho', own⟩ := h.made c hm'
      have one : o' = o := Option.some.inj (by rw [← ho', he, ho])
      have hcm : c.command = ca.command := by
        rw [← own, one, h.homes ca.command o hm]
      exact (hp hm').elim (fun hb => (List.lt_irrefl _ (hcm ▸ hb)).elim) (·.2)

theorem Served.safe (h : Served home p) : Safe lines p := by
  refine ⟨fun c hn => (h.next hn).1, h.inOrder, fun e hm => ?_⟩
  obtain ⟨hm, hl⟩ := mem_filter.mp hm
  refine ⟨Option.isSome_iff_ne_none.mp hl, fun o hy he => ?_⟩
  rw [h.gone e.1 o (he ▸ hm)] at hy
  cases hy

/-- Where each observer listens for one command and no reaction empties the entry in service
while a line behind holds its command, every state of a pass is safe. -/
theorem careful_pass_safe (home : ω → Line) (lines : List Line) (table : Table ω)
    (homes : ∀ command o, (command, some o) ∈ table → home o = command)
    (reactions : List (List (Op ω)))
    (careful : Along (Pass.observe lines) (Careful home lines) { table } reactions) :
    Always (Pass.observe lines) (Safe lines) { table } reactions := by
  refine Always.of_invariant (I := Served home) (fun _ _ h => h.observe) (fun _ h => h.safe) ?_
    careful
  exact ⟨homes, nofun, nofun, nofun, .nil, fun _ _ _ => rfl⟩

theorem removing_at_last_line_safe :
    Always (Pass.observe [[79]]) (Safe [[79]]) { table := [([79], some ())] } [[.remove ()]] := by
  refine careful_pass_safe (fun _ => [79]) [[79]] _ (by simp) _ ⟨⟨nofun, fun c hn => ?_⟩, ⟨⟩⟩
  cases hn
  exact fun hl => (hl rfl).elim

/-- An observer that removes itself at the first of two matching lines is called again through
the null pointer. -/
theorem removed_observer_called :
    ((Pass.observe [[79, 75], [79, 75]] { table := [([79, 75], some ())] } [.remove ()]).left
      [[79, 75], [79, 75]]).map (·.observer) = [none] := by
  decide

end Ae.SerialPorts.AtDispatcher
