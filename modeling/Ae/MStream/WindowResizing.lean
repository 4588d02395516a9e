/- source: types/statistic_counter.h, mstream_buffers.h
   digest: A statistics counter stored with one window size and loaded with another. -/

import Ae.MStream.Decoding

set_option autoImplicit false

namespace Ae.MStream.WindowResizing
open List VectorReader Operators Decoding

variable {α : Type} {written cap : Nat}

def mostRecent (cap : Nat) (values : List α) : Window cap α :=
  ⟨values.drop (values.length - cap), by rw [length_drop]; omega⟩

/-- Whatever follows the stored counter, loading it takes just its bytes and gives the most
recent values. -/
def Survives (size : SizeType) (c : Codec α) (posW : 0 < written) (posR : 0 < cap)
    (stored : Window written α) : Prop :=
  ∀ rest, ∃ r, (statistics size c posR).get (statistics size c posR).init
      (Reader.start ((statistics size c posW).put stored ++ rest)) =
        .ok (r, mostRecent cap stored.1) ∧
    r.offset = ((statistics size c posW).put stored).length

section

variable (size : SizeType) {c : Codec α} (posR : 0 < cap)

theorem foldl_push_empty {vs : List α} (hf : vs.length ≤ cap) :
    (vs.foldl (push posR) ⟨[], Nat.zero_le _⟩).1 = vs := by
  rw [foldl_push_val, nil_append, length_nil, Nat.zero_add, Nat.sub_eq_zero_of_le hf, drop_zero]

theorem put_stored (hp : 0 < cap) (v : Window cap α) : (statistics size c hp).put v =
    size.encode v.1.length ++ v.1.flatMap c.put := rfl

theorem get_stored (s : List α) (he : ∀ v ∈ s, Leaves c v c.init v)
    (hf : s.length ≤ size.maxValue) {r : Reader} {rest : List UInt8}
    (hb : r.rest = size.encode s.length ++ s.flatMap c.put ++ rest) :
    ∃ r' v, (statistics size c posR).get (statistics size c posR).init r = .ok (r', v) ∧
      v.1 = s.take cap ∧
      Consumed r r' (size.encode s.length ++ (s.take cap).flatMap c.put).length := by
  have hp : r.rest = size.encode s.length ++ ((s.take cap).flatMap c.put ++
      ((s.drop cap).flatMap c.put ++ rest)) := by
    rw [hb, ← append_assoc (flatMap ..), ← flatMap_append, take_append_drop, append_assoc]
  obtain ⟨r1, hs, -, h1⟩ := Reader.readSize_of_rest hf hp
  obtain ⟨r2, hl, h2⟩ := pushLoop_of_rest posR (s.take cap)
    (fun v hm => he v (mem_of_mem_take hm)) ⟨[], Nat.zero_le _⟩ (h1.rest hp)
  rw [map_id', length_take, Nat.min_comm] at hl
  refine ⟨r2, _, ?_, foldl_push_empty posR (length_take_le _ _), h1.append h2⟩
  simp only [statistics, hs, hl]

end

/-- The stored counter survives exactly where its values fit into the new window. -/
theorem survives_iff_fits (size : SizeType) (c : Codec α) (posW : 0 < written) (posR : 0 < cap)
    (stored : Window written α) (each : ∀ v ∈ stored.1, Leaves c v c.init v)
    (bytes : ∀ v ∈ stored.1, c.put v ≠ []) (fits : stored.1.length ≤ size.maxValue) :
    Survives size c posW posR stored ↔ stored.1.length ≤ cap := by
  have hg (rest : List UInt8) := get_stored size posR stored.1 each fits
    (r := Reader.start ((statistics size c posW).put stored ++ rest)) rfl
  constructor
  · intro hs
    obtain ⟨r, hl, ho⟩ := hs []
    obtain ⟨r', v, hl', -, hc⟩ := hg []
    obtain ⟨rfl, -⟩ := Prod.mk.inj (Except.ok.inj (hl.symm.trans hl'))
    have hw : stored.1.flatMap c.put =
        (stored.1.take cap).flatMap c.put ++ (stored.1.drop cap).flatMap c.put := by
      rw [← flatMap_append, take_append_drop]
    have hu : (stored.1.drop cap).flatMap c.put = [] := by
      have he : 0 + _ = _ := hc.offset.symm.trans ho
      rw [put_stored, hw, length_append, length_append, length_append] at he
      exact length_eq_zero_iff.mp (by omega)
    by_contra hm
    have hh := drop_eq_getElem_cons (not_le.mp hm)
    rw [hh, flatMap_cons, append_eq_nil_iff] at hu
    exact bytes _ (getElem_mem _) hu.1
  · intro hf rest
    obtain ⟨r, v, hl, hk, hc⟩ := hg rest
    rw [take_of_length_le hf] at hk hc
    have he : v = mostRecent cap stored.1 := by
      apply Subtype.ext
      show v.1 = stored.1.drop (stored.1.length - cap)
      rw [hk, Nat.sub_eq_zero_of_le hf, drop_zero]
    refine ⟨r, he ▸ hl, ?_⟩
    rw [hc.offset, put_stored]
    exact zero_add _

def durations (a b : UInt8) : Window 2 (Bytes 1) :=
  mostRecent 2 [⟨[a], length_singleton⟩, ⟨[b], length_singleton⟩]

theorem leaves_int (v t : Bytes 1) : Leaves (int 1) v t v :=
  have hd : Decodes shortSizes (int 1) atom := decodes_int one_pos
  hd.leaves v t (forall_mem_nil _)

theorem survives_iff_fits_durations :
    Survives shortSizes (int 1) Nat.two_pos Nat.two_pos (durations 1 2) :=
  (survives_iff_fits shortSizes (int 1) Nat.two_pos Nat.two_pos (durations 1 2)
    (fun v _ => leaves_int v _) (fun v _ => val_ne_nil Nat.one_pos v) (by decide)).mpr
    (le_refl 2)

/-- A window of one loads the older of two values, and leaves the other to the field that is
stored next. -/
theorem smaller_window_loses_place :
    ¬ Survives shortSizes (int 1) Nat.two_pos Nat.one_pos (durations 1 2) := by
  intro hs
  obtain ⟨r, hl, -⟩ := hs []
  obtain ⟨r', v, hl', hk, -⟩ := get_stored shortSizes (c := int 1) Nat.one_pos
    (durations 1 2).1 (fun v _ => leaves_int v _) (by decide)
    (r := Reader.start ((statistics shortSizes (int 1) Nat.two_pos).put (durations 1 2) ++ []))
    rfl
  obtain ⟨-, rfl⟩ := Prod.mk.inj (Except.ok.inj (hl.symm.trans hl'))
  exact absurd hk (by decide)

end Ae.MStream.WindowResizing
