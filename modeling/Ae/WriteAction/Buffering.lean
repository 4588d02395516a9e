/- source: write_action/buffer_write.{h,cpp}
   digest: A buffered write is a queue that pops too early when writes finish out of order. -/

import Ae.Lib.EventRun
import Ae.Lib.Lists

set_option autoImplicit false

namespace Ae.WriteAction.Buffering
open List Lib.EventRun Lib.Lists

variable {T : Type}

/-- `BufferEntry` with its `BufferedWriteAction`: `finished` is `is_finished_` of the action, and
`wa_sub_` is set exactly when the entry is sent. The number tells which `Write` it came from. -/
structure BufferEntry (T : Type) where
  number : Nat
  data : T
  sent : Bool
  finished : Bool
deriving DecidableEq

namespace BufferEntry

def item (be : BufferEntry T) : T × Nat := (be.data, be.number)

def waiting (be : BufferEntry T) : Bool := !be.sent && !be.finished

end BufferEntry

open BufferEntry

/-- `BufferWrite`. The data of all `Write`s, the items that were accepted, those that went through
`direct_write_` and the numbers of stopped actions are histories, oldest first. -/
structure BufferWrite (T : Type) where
  bufferOn : Bool
  buffer : List (BufferEntry T)
  written : List T
  accepted : List (T × Nat)
  handed : List (T × Nat)
  stopped : List Nat

/-- What a call may do: `results` are the answers of `direct_write_` to the calls made meanwhile,
where false is a null action. -/
inductive Event (T : Type) where
  | write (data : T) (result : Bool)
  | bufferOn
  | bufferOff (results : List Bool)
  | stop (number : Nat) (results : List Bool)
  | complete (number : Nat) (results : List Bool)

/-- The entries after a drain, how often it popped and what it handed over. -/
structure Drained (T : Type) where
  entries : List (BufferEntry T)
  pops : Nat
  handed : List (T × Nat)

/-- The loop of `DrainBuffer` from one entry on. Its iterators outlive the pops, so it visits
every entry; a pop takes the front, whichever entry is visited. -/
def drainFrom (bufferOn : Bool) : List (BufferEntry T) → List Bool → Drained T
  | [], _ => ⟨[], 0, []⟩
  | be :: later, results =>
    if be.finished then
      let after := drainFrom bufferOn later results
      ⟨be :: after.entries, after.pops + 1, after.handed⟩
    else if be.sent then
      let after := drainFrom bufferOn later results
      ⟨be :: after.entries, after.pops, after.handed⟩
    else if bufferOn then ⟨be :: later, 0, []⟩
    else match results with
      | true :: results =>
        let after := drainFrom bufferOn later results
        ⟨{ be with sent := true } :: after.entries, after.pops, be.item :: after.handed⟩
      | _ => ⟨be :: later, 0, []⟩

def marked (which : BufferEntry T → Bool) (entries : List (BufferEntry T)) : List (BufferEntry T) :=
  entries.map fun be => if which be then { be with finished := true } else be

namespace BufferWrite

def start : BufferWrite T := ⟨true, [], [], [], [], []⟩

variable (maxSize : Nat) (s : BufferWrite T)

def drainBuffer (results : List Bool) : BufferWrite T :=
  let after := drainFrom s.bufferOn s.buffer results
  { s with buffer := after.entries.drop after.pops, handed := s.handed ++ after.handed }

def writeToBuffer (data : T) : BufferWrite T :=
  if s.buffer.length = maxSize then { s with written := s.written ++ [data] }
  else
    { s with
      buffer := s.buffer ++ [⟨s.written.length, data, false, false⟩]
      accepted := s.accepted ++ [(data, s.written.length)]
      written := s.written ++ [data] }

def directWrite (data : T) (result : Bool) : BufferWrite T :=
  if result then
    { s with
      accepted := s.accepted ++ [(data, s.written.length)]
      handed := s.handed ++ [(data, s.written.length)]
      written := s.written ++ [data] }
  else { s with written := s.written ++ [data] }

def write (data : T) (result : Bool) : BufferWrite T :=
  if s.bufferOn || !s.buffer.isEmpty then s.writeToBuffer maxSize data
  else s.directWrite data result

/-- `SetStatus` of an entry's action finishes it, and the finished event drains the buffer. -/
def setStatus (which : BufferEntry T → Bool) (results : List Bool) :
    BufferWrite T :=
  if s.buffer.any which then
    let s := { s with buffer := marked which s.buffer }
    if s.bufferOn then s else s.drainBuffer results
  else s

end BufferWrite

open BufferWrite

/-- `Stop` ends the action of an entry that is not sent; of one that is sent it asks the
underlying action, whose completion is an event of its own. -/
def stops (number : Nat) (be : BufferEntry T) : Bool := be.number == number && !be.sent

def completes (number : Nat) (be : BufferEntry T) : Bool := be.number == number && be.sent

section

variable (maxSize : Nat) (s : BufferWrite T)

def step : Event T → BufferWrite T
  | .write data result => s.write maxSize data result
  | .bufferOn => { s with bufferOn := true }
  | .bufferOff results => drainBuffer { s with bufferOn := false } results
  | .stop number results =>
    setStatus { s with stopped := s.stopped ++ [number] } (stops number) results
  | .complete number results => s.setStatus (completes number) results

def finishes : Event T → BufferEntry T → Bool
  | .stop number _, be => stops number be
  | .complete number _, be => completes number be
  | _, _ => false

/-- The data handed over are a part of the written data in their order, each item once. -/
def Fifo : Prop := s.handed.Sublist s.written.zipIdx

/-- An accepted item is stopped, handed over or still in the buffer. -/
def NothingLost : Prop :=
  ∀ item ∈ s.accepted, item.2 ∈ s.stopped ∨ item ∈ s.handed ∨ ∃ be ∈ s.buffer, be.item = item

/-- An entry leaves the buffer only when its own action is finished. -/
def RemovesFinished (e : Event T) : Prop :=
  ∀ be ∈ s.buffer, be.finished = false → finishes e be = false →
    ∃ kept ∈ (step maxSize s e).buffer, kept.number = be.number

structure Keeps (e : Event T) : Prop where
  fifo : Fifo (step maxSize s e)
  nothingLost : NothingLost (step maxSize s e)
  removes : RemovesFinished maxSize s e

/-- In front of every finished entry all others are finished too, as far as the drain gets: it
stops at the first entry that `direct_write_` refuses. -/
def InOrder (entries : List (BufferEntry T)) (results : List Bool) : Prop :=
  ∀ (i j : Nat) (first second : BufferEntry T), i < j → entries[i]? = some first →
    entries[j]? = some second → first.finished = false → second.finished = true →
    (results.takeWhile id).length < (entries.take j).countP waiting

/-- The buffer is in order wherever the call drains it. -/
def DrainsInOrder : Event T → Prop
  | .bufferOff results => InOrder s.buffer results
  | .stop number results =>
    s.bufferOn = false → s.buffer.any (stops number) = true →
      InOrder (marked (stops number) s.buffer) results
  | .complete number results =>
    s.bufferOn = false → s.buffer.any (completes number) = true →
      InOrder (marked (completes number) s.buffer) results
  | _ => True

end

section

variable {entries : List (BufferEntry T)} {results : List Bool} {after : Drained T}

def Passed (handed : List (T × Nat)) (be passed : BufferEntry T) : Prop :=
  passed = be ∨ passed = { be with sent := true } ∧ be.item ∈ handed

structure Drains (entries : List (BufferEntry T)) (results : List Bool) (after : Drained T)
    (m : Nat) : Prop where
  within : m ≤ entries.length
  reached : ∀ j < entries.length, j < m ↔
    (entries.take (j + 1)).countP waiting ≤ (results.takeWhile id).length
  pops : after.pops = (entries.take m).countP finished
  order : after.handed ++ (after.entries.filter waiting).map item =
    (entries.filter waiting).map item
  passed : List.Forall₂ (Passed after.handed) entries after.entries
  settled : ∀ be ∈ after.entries.take m, be.sent = true ∨ be.finished = true

variable {be : BufferEntry T} {m : Nat}

theorem Drains.skip (hd : Drains entries results after m) (hb : be.waiting = false)
    (settled : be.sent = true ∨ be.finished = true) :
    Drains (be :: entries) results ⟨be :: after.entries,
      if be.finished then after.pops + 1 else after.pops, after.handed⟩ (m + 1) where
  within := Nat.succ_le_succ hd.within
  reached j less := by
    cases j with
    | zero => simp [hb]
    | succ j =>
      rw [take_succ_cons, countP_cons_of_neg (by simp [hb])]
      exact Nat.succ_lt_succ_iff.trans (hd.reached j (Nat.lt_of_succ_lt_succ less))
  pops := by
    rw [take_succ_cons, countP_cons, ← hd.pops]
    split <;> simp
  order := by
    rw [filter_cons_of_neg (by simp [hb]), filter_cons_of_neg (by simp [hb])]
    exact hd.order
  passed := .cons (.inl rfl) hd.passed
  settled := by
    rw [take_succ_cons]
    exact forall_mem_cons.mpr ⟨settled, hd.settled⟩

theorem Drains.hand (hd : Drains entries results after m) (hw : be.waiting = true)
    (hu : be.finished = false) :
    Drains (be :: entries) (true :: results) ⟨{ be with sent := true } :: after.entries,
      after.pops, be.item :: after.handed⟩ (m + 1) where
  within := Nat.succ_le_succ hd.within
  reached j less := by
    cases j with
    | zero => simp [hw]
    | succ j =>
      rw [take_succ_cons, countP_cons_of_pos hw, takeWhile_cons_of_pos rfl,
        length_cons, Nat.succ_le_succ_iff]
      exact Nat.succ_lt_succ_iff.trans (hd.reached j (Nat.lt_of_succ_lt_succ less))
  pops := by
    rw [take_succ_cons, countP_cons_of_neg (by simp [hu])]
    exact hd.pops
  order := by
    rw [filter_cons_of_neg (by simp [waiting]), filter_cons_of_pos hw, map_cons, ← hd.order]
    rfl
  passed := by
    refine .cons (.inr ⟨rfl, mem_cons_self⟩) (hd.passed.imp fun _ _ hk => ?_)
    exact hk.imp id fun ⟨sent, hh⟩ => ⟨sent, mem_cons_of_mem _ hh⟩
  settled := by
    rw [take_succ_cons]
    exact forall_mem_cons.mpr ⟨.inl rfl, hd.settled⟩

theorem Drains.refused (hw : be.waiting = true) (hr : results.takeWhile id = []) :
    Drains (be :: entries) results ⟨be :: entries, 0, []⟩ 0 where
  within := Nat.zero_le _
  reached j _ := by simp [hr, hw]
  pops := rfl
  order := rfl
  passed := forall₂_same.mpr fun _ _ => .inl rfl
  settled := by simp

theorem drainFrom_drains (entries : List (BufferEntry T)) (results : List Bool) :
    ∃ m, Drains entries results (drainFrom false entries results) m := by
  fun_induction drainFrom false entries results with
  | case1 results => exact ⟨0, Nat.le_refl 0, by simp, rfl, rfl, .nil, by simp⟩
  | case2 results be l hf after ih =>
    obtain ⟨m, hd⟩ := ih
    have hs := hd.skip (by simp [waiting, hf]) (.inr hf)
    rw [if_pos hf] at hs
    exact ⟨_, hs⟩
  | case3 results be l hu hsn after ih =>
    obtain ⟨m, hd⟩ := ih
    have hs := hd.skip (by simp [waiting, hsn]) (.inl hsn)
    rw [if_neg hu] at hs
    exact ⟨_, hs⟩
  | case4 results be l hu hun on => cases on
  | case5 be l hu hun on results after ih =>
    obtain ⟨m, hd⟩ := ih
    exact ⟨_, hd.hand (by simp [waiting, hun, hu]) (eq_false_of_ne_true hu)⟩
  | case6 be l results hu hun on hr =>
    refine ⟨0, Drains.refused (by simp [waiting, hun, hu]) ?_⟩
    cases results with
    | nil => rfl
    | cons r results =>
      cases r with
      | false => rfl
      | true => exact (hr results rfl).elim

theorem Passed.item {h : List (T × Nat)} {be k : BufferEntry T}
    (hp : Passed h be k) : be.item = k.item := by
  rcases hp with rfl | ⟨rfl, -⟩ <;> rfl

theorem Drains.numbers (hd : Drains entries results after m) :
    entries.map number = after.entries.map number :=
  map_eq_map hd.passed fun _ _ hp => congrArg Prod.snd hp.item

theorem Drains.pops_le (hd : Drains entries results after m) : after.pops ≤ m := by
  rw [hd.pops]
  exact Nat.le_trans countP_le_length (length_take_le m entries)

theorem take_countP_iff {p : BufferEntry T → Bool} (entries : List (BufferEntry T)) :
    (∀ be ∈ entries.take (entries.countP p), p be = true) ↔
      entries.Pairwise fun f se => p se = true → p f = true := by
  induction entries with
  | nil => simp
  | cons be entries ih =>
    rw [pairwise_cons]
    by_cases hh : p be = true
    · rw [countP_cons_of_pos hh, take_succ_cons, forall_mem_cons, ih]
      simp [hh]
    · rw [countP_cons_of_neg hh]
      cases count : entries.countP p with
      | zero =>
        have hnh := countP_eq_zero.mp count
        refine iff_of_true (by simp) ⟨fun se hm hh => ?_, ?_⟩
        · exact (hnh se hm hh).elim
        · refine Pairwise.imp_of_mem (R := fun _ _ => True) ?_ (pairwise_of_forall ?_)
          · exact fun _ hm _ hh => (hnh _ hm hh).elim
          · exact fun _ _ => trivial
      | succ n =>
        obtain ⟨se, hm, hsh⟩ :=
          countP_pos_iff.mp (by omega : 0 < entries.countP p)
        refine iff_of_false (fun ha => ?_) (fun hp => ?_)
        · exact hh (ha be (by simp))
        · exact hh (hp.1 se hm hsh)

theorem Drains.inOrder_iff (drains : Drains entries results after m) :
    (∀ be ∈ entries.take after.pops, be.finished = true) ↔ InOrder entries results := by
  have popped : entries.take after.pops = (entries.take m).take
      ((entries.take m).countP finished) := by
    rw [← drains.pops, take_take, Nat.min_eq_left drains.pops_le]
  rw [popped, take_countP_iff, pairwise_iff_getElem]
  constructor
  · intro pairs i j f se less at_i at_j unfinished finished
    obtain ⟨inside_i, rfl⟩ := List.getElem?_eq_some_iff.mp at_i
    obtain ⟨inside_j, rfl⟩ := List.getElem?_eq_some_iff.mp at_j
    refine Nat.lt_of_not_le fun enough => ?_
    have visited : j < m := by
      refine (drains.reached j inside_j).mpr ?_
      rw [take_succ_eq_append_getElem inside_j, countP_append]
      simpa [waiting, finished] using enough
    have both := pairs i j (by simp; omega) (by simp; omega) less
    rw [getElem_take, getElem_take] at both
    exact Bool.false_ne_true (unfinished.symm.trans (both finished))
  · intro ordered i j inside_i inside_j less finished
    rw [length_take] at inside_i inside_j
    rw [getElem_take] at finished ⊢
    by_contra unfinished
    have stopped := ordered i j _ _ less (getElem?_eq_getElem (by omega))
      (getElem?_eq_getElem (by omega)) (eq_false_of_ne_true unfinished) finished
    have visited := (drains.reached j (by omega)).mp (by omega)
    rw [take_succ_eq_append_getElem (by omega), countP_append] at visited
    omega

end

section

variable {s : BufferWrite T}

structure Sound (s : BufferWrite T) : Prop where
  order : (s.handed ++ (s.buffer.filter waiting).map item).Sublist s.written.zipIdx
  numbers : (s.buffer.map number).Nodup
  fresh : ∀ be ∈ s.buffer, be.number < s.written.length
  sent : ∀ be ∈ s.buffer, be.sent = true → be.item ∈ s.handed
  finished : ∀ be ∈ s.buffer, be.finished = true → be.sent = true ∨ be.number ∈ s.stopped
  nothingLost : NothingLost s

theorem Sound.fifo (hs : Sound s) : Fifo s :=
  (sublist_append_left _ _).trans hs.order

theorem sound_start : Sound (start : BufferWrite T) :=
  ⟨nil_sublist _, nodup_nil, by simp [start], by simp [start],
    by simp [start], by simp [NothingLost, start]⟩

theorem Sound.buffering (hs : Sound s) (on : Bool) : Sound { s with bufferOn := on } :=
  ⟨hs.order, hs.numbers, hs.fresh, hs.sent, hs.finished, hs.nothingLost⟩

theorem zipIdx_concat (w : List T) (data : T) :
    (w ++ [data]).zipIdx = w.zipIdx ++ [(data, w.length)] := by
  simp [zipIdx_append]

theorem Sound.failedWrite (hs : Sound s) (data : T) :
    Sound { s with written := s.written ++ [data] } where
  order := by
    rw [zipIdx_concat]
    exact hs.order.trans (sublist_append_left _ _)
  numbers := hs.numbers
  fresh be mem := by
    rw [length_append]
    exact Nat.lt_add_right _ (hs.fresh be mem)
  sent := hs.sent
  finished := hs.finished
  nothingLost := hs.nothingLost

theorem Sound.buffered (hs : Sound s) (data : T) :
    Sound { s with
      buffer := s.buffer ++ [⟨s.written.length, data, false, false⟩]
      accepted := s.accepted ++ [(data, s.written.length)]
      written := s.written ++ [data] } where
  order := by
    rw [zipIdx_concat, filter_append, map_append, ← append_assoc]
    exact hs.order.append (Sublist.refl _)
  numbers := by
    rw [map_append, nodup_append]
    refine ⟨hs.numbers, by simp, fun n ho o new => ?_⟩
    obtain ⟨be, mem, rfl⟩ := mem_map.mp ho
    rw [mem_singleton.mp new]
    exact Nat.ne_of_lt (hs.fresh be mem)
  fresh be mem := by
    rw [length_append]
    rcases mem_append.mp mem with ho | new
    · exact Nat.lt_add_right _ (hs.fresh be ho)
    · rw [mem_singleton.mp new]
      exact Nat.lt_succ_self _
  sent be mem sent := by
    rcases mem_append.mp mem with ho | new
    · exact hs.sent be ho sent
    · rw [mem_singleton.mp new] at sent
      cases sent
  finished be mem finished := by
    rcases mem_append.mp mem with ho | new
    · exact hs.finished be ho finished
    · rw [mem_singleton.mp new] at finished
      cases finished
  nothingLost i mem := by
    rcases mem_append.mp mem with ho | new
    · refine (hs.nothingLost i ho).imp id (Or.imp id ?_)
      exact fun ⟨be, hh, eq⟩ => ⟨be, mem_append_left _ hh, eq⟩
    · refine .inr (.inr ⟨_, mem_append_right _ (mem_singleton.mpr rfl), ?_⟩)
      exact (mem_singleton.mp new).symm

theorem Sound.direct (hs : Sound s) (hn : s.buffer = []) (data : T) :
    Sound { s with
      accepted := s.accepted ++ [(data, s.written.length)]
      handed := s.handed ++ [(data, s.written.length)]
      written := s.written ++ [data] } where
  order := by
    have order := hs.order
    rw [hn] at order ⊢
    rw [zipIdx_concat]
    simpa using order
  numbers := hs.numbers
  fresh := by simp [hn]
  sent := by simp [hn]
  finished := by simp [hn]
  nothingLost i mem := by
    rcases mem_append.mp mem with ho | new
    · refine (hs.nothingLost i ho).imp id (Or.imp (mem_append_left _) id)
    · exact .inr (.inl (mem_append_right _ new))

theorem Sound.write (hs : Sound s) (ms : Nat) (data : T) (r : Bool) :
    Sound (s.write ms data r) := by
  rw [BufferWrite.write]
  split
  · rw [writeToBuffer]
    split
    · exact hs.failedWrite data
    · exact hs.buffered data
  · next he =>
    have hn : s.buffer = [] := by simp at he; exact he.2
    rw [directWrite]
    split
    · exact hs.direct hn data
    · exact hs.failedWrite data

theorem marked_waiting (which : BufferEntry T → Bool) (entries : List (BufferEntry T)) :
    (((marked which entries).filter waiting).map item).Sublist
      ((entries.filter waiting).map item) := by
  induction entries with
  | nil => exact Sublist.refl _
  | cons be entries ih =>
    rw [marked, map_cons, ← marked]
    by_cases ends : which be = true
    · rw [if_pos ends, filter_cons_of_neg (by simp [waiting])]
      exact ih.trans (((sublist_cons_self be entries).filter _).map _)
    · rw [if_neg ends, filter_cons, filter_cons]
      split
      · exact ih.cons_cons _
      · exact ih

variable {which : BufferEntry T → Bool}

theorem Sound.marked (hs : Sound s)
    (hex : ∀ be ∈ s.buffer, which be = true → be.sent = true ∨ be.number ∈ s.stopped) :
    Sound { s with buffer := marked which s.buffer } where
  order := (Sublist.refl _).append (marked_waiting which s.buffer) |>.trans hs.order
  numbers := by
    have hsm : (Buffering.marked which s.buffer).map BufferEntry.number =
        s.buffer.map BufferEntry.number := by
      rw [Buffering.marked, map_map]
      refine map_congr_left fun be _ => ?_
      rw [Function.comp_apply, apply_ite BufferEntry.number, ite_self]
    exact hsm ▸ hs.numbers
  fresh kept mem := by
    obtain ⟨be, hh, rfl⟩ := mem_map.mp mem
    rw [apply_ite BufferEntry.number, ite_self]
    exact hs.fresh be hh
  sent kept mem sent := by
    obtain ⟨be, hh, rfl⟩ := mem_map.mp mem
    rw [apply_ite BufferEntry.sent, ite_self] at sent
    rw [apply_ite BufferEntry.item]
    exact (ite_self (c := which be = true) be.item).symm ▸ hs.sent be hh sent
  finished kept mem finished := by
    obtain ⟨be, hh, rfl⟩ := mem_map.mp mem
    split at finished
    · next he => rw [if_pos he]; exact hex be hh he
    · next he => rw [if_neg he]; exact hs.finished be hh finished
  nothingLost i mem := by
    refine (hs.nothingLost i mem).imp id (Or.imp id ?_)
    rintro ⟨be, hh, rfl⟩
    refine ⟨_, mem_map.mpr ⟨be, hh, rfl⟩, ?_⟩
    split <;> rfl

theorem Sound.drainBuffer (hs : Sound s) (off : s.bufferOn = false) (results : List Bool) :
    Sound (s.drainBuffer results) := by
  obtain ⟨m, hd⟩ := drainFrom_drains s.buffer results
  rw [BufferWrite.drainBuffer, off]
  generalize drainFrom false s.buffer results = after at hd
  have ho : ∀ kept ∈ after.entries, ∃ be ∈ s.buffer, Passed after.handed be kept :=
    fun kept hm => exists_left hd.passed hm
  have hsn : ∀ kept ∈ after.entries, kept.sent = true → kept.item ∈ s.handed ++ after.handed := by
    intro kept hm hsn
    obtain ⟨be, hh, hp⟩ := ho kept hm
    rw [← hp.item]
    rcases hp with rfl | ⟨rfl, handed⟩
    · exact mem_append_left _ (hs.sent kept hh hsn)
    · exact mem_append_right _ handed
  have hf : ∀ kept ∈ after.entries, kept.finished = true →
      kept.sent = true ∨ kept.number ∈ s.stopped := by
    intro kept hm hf
    obtain ⟨be, hh, hp⟩ := ho kept hm
    rcases hp with rfl | ⟨rfl, -⟩
    · exact hs.finished kept hh hf
    · exact .inl rfl
  refine ⟨?_, ?_, fun kept hm => ?_, fun kept hm => hsn kept (mem_of_mem_drop hm),
    fun kept hm => hf kept (mem_of_mem_drop hm), fun i hm => ?_⟩
  · refine Sublist.trans ?_ hs.order
    rw [← hd.order, ← append_assoc]
    exact (Sublist.refl _).append (((drop_sublist _ _).filter _).map _)
  · exact ((drop_sublist _ _).map _).nodup (hd.numbers ▸ hs.numbers)
  · obtain ⟨be, hh, hp⟩ := ho kept (mem_of_mem_drop hm)
    have he : be.number = kept.number := congrArg Prod.snd hp.item
    exact he ▸ hs.fresh be hh
  · rcases hs.nothingLost i hm with stopped | handed | ⟨be, hh, rfl⟩
    · exact .inl stopped
    · exact .inr (.inl (mem_append_left _ handed))
    · obtain ⟨kept, ha, hp⟩ := exists_right hd.passed hh
      rw [hp.item]
      rw [← take_append_drop after.pops after.entries] at ha
      rcases mem_append.mp ha with hpp | left
      · -- a popped entry was visited, so it is sent or finished
        have hv := (take_subset_take_left _ hd.pops_le) hpp
        have hi := mem_of_mem_take hv
        rcases hd.settled kept hv with his | is_finished
        · exact .inr (.inl (hsn kept hi his))
        · rcases hf kept hi is_finished with his | stopped
          · exact .inr (.inl (hsn kept hi his))
          · exact .inl stopped
      · exact .inr (.inr ⟨kept, left, rfl⟩)

theorem Sound.removes_iff (hsn : Sound s) (ho : s.bufferOn = false) (results : List Bool) :
    (∀ be ∈ s.buffer, be.finished = false →
      ∃ k ∈ (s.drainBuffer results).buffer, k.number = be.number) ↔
      InOrder s.buffer results := by
  obtain ⟨m, hd⟩ := drainFrom_drains s.buffer results
  rw [BufferWrite.drainBuffer, ho, ← hd.inOrder_iff]
  generalize drainFrom false s.buffer results = after at hd
  have hn : (s.buffer.drop after.pops).map number =
      (after.entries.drop after.pops).map number := by
    rw [map_drop, map_drop, hd.numbers]
  have hki : ∀ be : BufferEntry T,
      (∃ k ∈ after.entries.drop after.pops, k.number = be.number) ↔
        be.number ∈ (s.buffer.drop after.pops).map number := by
    intro be
    rw [hn, mem_map]
  have hs := take_append_drop after.pops s.buffer
  have hds := hsn.numbers
  rw [← hs, map_append, nodup_append] at hds
  simp only [hki]
  constructor
  · intro hk be hp
    by_contra hu
    have left := hk be (mem_of_mem_take hp) (eq_false_of_ne_true hu)
    exact hds.2.2 _ (mem_map_of_mem hp) _ left rfl
  · intro he be hm hu
    rw [← hs] at hm
    rcases mem_append.mp hm with hp | left
    · exact (Bool.false_ne_true (hu.symm.trans (he be hp))).elim
    · exact mem_map_of_mem left

theorem Sound.stop (hs : Sound s) (n : Nat) :
    Sound { s with stopped := s.stopped ++ [n] } where
  order := hs.order
  numbers := hs.numbers
  fresh := hs.fresh
  sent := hs.sent
  finished be mem finished :=
    (hs.finished be mem finished).imp id (mem_append_left _)
  nothingLost i mem :=
    (hs.nothingLost i mem).imp (mem_append_left _) id

theorem setStatus_none (hne : s.buffer.any which = false) (results : List Bool) :
    s.setStatus which results = s := by
  rw [setStatus, hne]
  rfl

theorem setStatus_on (he : s.buffer.any which = true) (on : s.bufferOn = true)
    (results : List Bool) :
    s.setStatus which results = { s with buffer := marked which s.buffer } := by
  rw [setStatus, if_pos he]
  exact if_pos on

theorem setStatus_off (he : s.buffer.any which = true) (ho : s.bufferOn = false)
    (results : List Bool) :
    s.setStatus which results = drainBuffer { s with buffer := marked which s.buffer } results := by
  rw [setStatus, if_pos he]
  exact if_neg (by rw [ho]; exact Bool.false_ne_true)

theorem Sound.setStatus (hs : Sound s)
    (he : ∀ be ∈ s.buffer, which be = true → be.sent = true ∨ be.number ∈ s.stopped)
    (results : List Bool) : Sound (s.setStatus which results) := by
  cases hen : s.buffer.any which with
  | false => exact (setStatus_none hen results).symm ▸ hs
  | true =>
    cases hb : s.bufferOn with
    | true => exact (setStatus_on hen hb results).symm ▸ hs.marked he
    | false =>
      rw [setStatus_off hen hb]
      exact (hs.marked he).drainBuffer hb results

/-- An entry that the status change does not end is the same entry for the drain. -/
theorem marked_unfinished {entries : List (BufferEntry T)} {P : Nat → Prop} :
    (∀ be ∈ marked which entries, be.finished = false → P be.number) ↔
      ∀ be ∈ entries, be.finished = false → which be = false → P be.number := by
  rw [marked, forall_mem_map]
  refine forall₂_congr fun be _ => ?_
  cases which be <;> simp

theorem Sound.setStatus_removes_iff (hs : Sound s)
    (he : ∀ be ∈ s.buffer, which be = true → be.sent = true ∨ be.number ∈ s.stopped)
    (results : List Bool) :
    (∀ be ∈ s.buffer, be.finished = false → which be = false →
      ∃ k ∈ (s.setStatus which results).buffer, k.number = be.number) ↔
      (s.bufferOn = false → s.buffer.any which = true →
        InOrder (Buffering.marked which s.buffer) results) := by
  cases ends : s.buffer.any which with
  | false =>
    rw [setStatus_none ends]
    exact iff_of_true (fun be hm _ _ => ⟨be, hm, rfl⟩) nofun
  | true =>
    cases hb : s.bufferOn with
    | true =>
      rw [setStatus_on ends hb]
      refine iff_of_true (fun be hm hu hsm => ?_) nofun
      exact ⟨be, mem_map.mpr ⟨be, hm, by rw [hsm]; rfl⟩, rfl⟩
    | false =>
      rw [setStatus_off ends hb]
      have hr := (hs.marked he).removes_iff hb results
      refine (marked_unfinished (P := fun n => ∃ k ∈ (BufferWrite.drainBuffer
        { s with buffer := Buffering.marked which s.buffer } results).buffer,
          k.number = n)).symm.trans (hr.trans ?_)
      exact ⟨fun ho _ _ => ho, fun ho => ho rfl rfl⟩

theorem stops_excused (s : BufferWrite T) (n : Nat) :
    ∀ be ∈ s.buffer, stops n be = true → be.sent = true ∨ be.number ∈ s.stopped ++ [n] := by
  intro be _ he
  rw [stops, Bool.and_eq_true, beq_iff_eq] at he
  exact .inr (mem_append_right _ (mem_singleton.mpr he.1))

theorem completes_excused (s : BufferWrite T) (n : Nat) :
    ∀ be ∈ s.buffer, completes n be = true → be.sent = true ∨ be.number ∈ s.stopped := by
  intro be _ he
  rw [completes, Bool.and_eq_true] at he
  exact .inl he.2

theorem Sound.step (hs : Sound s) (ms : Nat) (e : Event T) : Sound (step ms s e) := by
  cases e with
  | write data r => exact hs.write ms data r
  | bufferOn => exact hs.buffering true
  | bufferOff results => exact (hs.buffering false).drainBuffer rfl results
  | stop n results => exact (hs.stop n).setStatus (stops_excused s n) results
  | complete n results => exact hs.setStatus (completes_excused s n) results

theorem removesFinished_write (ms : Nat) (s : BufferWrite T) (data : T) (r : Bool) :
    RemovesFinished ms s (.write data r) := by
  intro be hm _ _
  refine ⟨be, ?_, rfl⟩
  rw [Buffering.step, write]
  split
  · rw [writeToBuffer]
    split
    · exact hm
    · exact mem_append_left _ hm
  · rw [directWrite]
    split <;> exact hm

theorem Sound.keeps_iff (hs : Sound s) (ms : Nat) (e : Event T) :
    Keeps ms s e ↔ DrainsInOrder s e := by
  have after := hs.step ms e
  have hki : Keeps ms s e ↔ RemovesFinished ms s e :=
    ⟨Keeps.removes, fun hr => ⟨after.fifo, after.nothingLost, hr⟩⟩
  refine hki.trans ?_
  cases e with
  | write data r => exact iff_of_true (removesFinished_write ms s data r) trivial
  | bufferOn => exact iff_of_true (fun be hm _ _ => ⟨be, hm, rfl⟩) trivial
  | bufferOff results =>
    rw [DrainsInOrder, ← (hs.buffering false).removes_iff rfl results]
    refine forall₂_congr fun be _ => imp_congr_right fun _ => ?_
    exact ⟨fun kept => kept rfl, fun kept _ => kept⟩
  | stop n results =>
    exact (hs.stop n).setStatus_removes_iff (stops_excused s n) results
  | complete n results =>
    exact hs.setStatus_removes_iff (completes_excused s n) results

/-- A run hands over in order, loses nothing and removes only finished entries exactly when every
drain finds the finished entries it sees in front. -/
theorem keeps_iff_drains_in_order (maxSize : Nat) (events : List (Event T)) :
    Along (step maxSize) (Keeps maxSize) start events ↔
      Along (step maxSize) DrainsInOrder start events :=
  along_congr_of_invariant (G := fun _ _ => True) (fun _ e hs _ => hs.step maxSize e)
    (fun _ e hs _ => hs.keeps_iff maxSize e) sound_start along_true

def completeSecond : List (Event Nat) :=
  [.write 7 true, .write 8 true, .bufferOff [true, true], .complete 1 []]

/-- The first entry is popped while its write is in flight, and its action with it. -/
theorem unfinished_entry_popped :
    (run (step 10) start completeSecond).buffer = [⟨1, 8, true, true⟩] ∧
      ¬ Along (step 10) (Keeps 10) start completeSecond := by
  refine ⟨rfl, ?_⟩
  rintro ⟨-, -, -, ⟨-, -, hr⟩, -⟩
  obtain ⟨k, hl, he⟩ := hr ⟨0, 7, true, false⟩ (by decide) rfl rfl
  obtain rfl : k = ⟨1, 8, true, true⟩ := mem_singleton.mp hl
  cases he

end

end Ae.WriteAction.Buffering
