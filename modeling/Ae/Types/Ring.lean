/- source: types/ring_index.h
   digest: Ring indices, the comparison relative to a begin, and inclusive index ranges. -/

import Mathlib.Data.Nat.ModEq

set_option autoImplicit false

namespace Ae.Types.Ring

/-- `RingIndex<Max>`: the stored value is always below the template parameter. -/
structure RingIndex (max : Nat) where
  value : Nat
  value_lt : value < max
  deriving DecidableEq

variable {max : Nat}

namespace RingIndex

theorem max_pos (i : RingIndex max) : 0 < max := Nat.zero_lt_of_lt i.value_lt

@[ext] theorem ext {i j : RingIndex max} (h : i.value = j.value) : i = j := by
  cases i
  cases j
  simp_all

def ofNat [NeZero max] (val : Nat) : RingIndex max :=
  ⟨val % max, Nat.mod_lt _ (Nat.pos_of_neZero max)⟩

/-- `Distance(one, another)`: how far `another` lies ahead of `one`. -/
def distance (one another : RingIndex max) : Nat :=
  let a := max - one.value
  let b := max - another.value
  if a ≥ b then a - b else a + another.value

def add (index : RingIndex max) (val : Nat) : RingIndex max :=
  ⟨(index.value + val) % max, Nat.mod_lt _ index.max_pos⟩

/-- `operator-`, for the subtrahends up to `max` for which `max - val` does not wrap. -/
def sub (index : RingIndex max) (val : Nat) : RingIndex max :=
  ⟨(if val > index.value then max - val + index.value else index.value - val) % max,
    Nat.mod_lt _ index.max_pos⟩

theorem distance_eq (a b : RingIndex max) :
    a.distance b = if a.value ≤ b.value then b.value - a.value else max - a.value + b.value := by
  have ha := a.value_lt
  have hb := b.value_lt
  simp only [distance]
  split_ifs <;> omega

theorem distance_lt (a b : RingIndex max) : a.distance b < max := by
  have ha := a.value_lt
  have hb := b.value_lt
  rw [distance_eq]
  split_ifs <;> omega

variable (a : RingIndex max)

@[simp] theorem distance_self : a.distance a = 0 := by
  simp [distance_eq]

theorem add_value {a : RingIndex max} {n : Nat} (h : n ≤ max) :
    (a.add n).value = if a.value + n < max then a.value + n else a.value + n - max := by
  have ha := a.value_lt
  simp only [add]
  split_ifs with hw
  · exact Nat.mod_eq_of_lt hw
  · rw [Nat.mod_eq_sub_mod (by omega)]
    exact Nat.mod_eq_of_lt (by omega)

variable (n : Nat)

@[simp] theorem add_zero : a.add 0 = a := by
  ext
  simp [add, Nat.mod_eq_of_lt a.value_lt]

@[simp] theorem add_add (m n : Nat) : (a.add m).add n = a.add (m + n) := by
  ext
  simp only [add]
  rw [Nat.mod_add_mod, Nat.add_assoc]

theorem add_mod : a.add (n % max) = a.add n := by
  ext
  simp only [add]
  rw [Nat.add_mod_mod]

theorem add_add_max : a.add (n + max) = a.add n := by
  rw [← add_mod a (n + max), Nat.add_mod_right, add_mod]

@[simp] theorem add_distance (a b : RingIndex max) : a.add (a.distance b) = b := by
  have ha := a.value_lt
  have hb := b.value_lt
  ext
  rw [add_value (Nat.le_of_lt (distance_lt a b)), distance_eq]
  split_ifs <;> omega

theorem distance_add_of_lt {a : RingIndex max} {n : Nat} (h : n < max) :
    a.distance (a.add n) = n := by
  have ha := a.value_lt
  rw [distance_eq, add_value h.le]
  split_ifs <;> omega

theorem distance_add : a.distance (a.add n) = n % max := by
  rw [← add_mod, distance_add_of_lt (Nat.mod_lt _ a.max_pos)]

theorem distance_inj {a x y : RingIndex max} : a.distance x = a.distance y ↔ x = y := by
  constructor
  · intro h
    rw [← add_distance a x, h, add_distance]
  · rintro rfl
    rfl

theorem distance_eq_zero {a b : RingIndex max} : a.distance b = 0 ↔ a = b := by
  rw [← distance_self a, distance_inj]
  exact eq_comm

theorem distance_of_le {a c x : RingIndex max} (h : a.distance c ≤ a.distance x) :
    c.distance x = a.distance x - a.distance c := by
  have hx := distance_lt a x
  have hsm : a.distance c + (a.distance x - a.distance c) = a.distance x := by omega
  have hs : c.add (a.distance x - a.distance c) = x := by
    calc c.add (a.distance x - a.distance c)
        = (a.add (a.distance c)).add (a.distance x - a.distance c) := by rw [add_distance]
      _ = x := by rw [add_add, hsm, add_distance]
  rw [← distance_add_of_lt (a := c) (n := a.distance x - a.distance c) (by omega), hs]

theorem distance_of_lt {a c x : RingIndex max} (h : a.distance x < a.distance c) :
    c.distance x = a.distance x + max - a.distance c := by
  have hc := distance_lt a c
  have hsm : a.distance c + (a.distance x + max - a.distance c) = a.distance x + max := by omega
  have hs : c.add (a.distance x + max - a.distance c) = x := by
    calc c.add (a.distance x + max - a.distance c)
        = (a.add (a.distance c)).add (a.distance x + max - a.distance c) := by rw [add_distance]
      _ = x := by rw [add_add, hsm, add_add_max, add_distance]
  rw [← distance_add_of_lt (a := c) (n := a.distance x + max - a.distance c) (by omega), hs]

theorem sub_one_eq : a.sub 1 = a.add (max - 1) := by
  have ha := a.value_lt
  ext
  rw [add_value (by omega)]
  simp only [sub]
  split_ifs with h0 hw <;> first | omega | (rw [Nat.mod_eq_of_lt (by omega)]; omega)

@[simp] theorem add_sub_one {n : Nat} (h : 0 < n) : (a.add n).sub 1 = a.add (n - 1) := by
  have hp := a.max_pos
  rw [sub_one_eq, add_add, show n + (max - 1) = n - 1 + max by omega, add_add_max]

@[simp] theorem sub_one_add_one : (a.sub 1).add 1 = a := by
  have hp := a.max_pos
  rw [sub_one_eq, add_add, show max - 1 + 1 = 0 + max by omega, add_add_max, add_zero]

theorem distance_sub_one (a x : RingIndex max) :
    a.distance (x.sub 1) = if a.distance x = 0 then max - 1 else a.distance x - 1 := by
  have hx := distance_lt a x
  split_ifs with h
  · rw [distance_eq_zero] at h
    subst h
    rw [sub_one_eq, distance_add_of_lt (by omega)]
  · conv_lhs => rw [← add_distance a x]
    rw [add_sub_one a (by omega), distance_add_of_lt (by omega)]

@[simp] theorem ofNat_value [NeZero max] :
    (ofNat n : RingIndex max).value = n % max := rfl

@[simp] theorem ofNat_add [NeZero max] (m n : Nat) :
    (ofNat m : RingIndex max).add n = ofNat (m + n) := by
  ext
  simp [add, ofNat]

@[simp] theorem ofNat_mod [NeZero max] : (ofNat (n % max) : RingIndex max) = ofNat n := by
  ext
  simp

theorem distance_add_right {a i : RingIndex max} {n : Nat} (h : a.distance i + n < max) :
    a.distance (i.add n) = a.distance i + n := by
  conv_lhs => rw [← add_distance a i, add_add]
  exact distance_add_of_lt h

/-- Less than one turn apart, two positions share a ring index only if they are equal. -/
theorem ofNat_inj_of_near [NeZero max] {m n : Nat} (h : (ofNat m : RingIndex max) = ofNat n)
    (hm : m < n + max) (hn : n < m + max) : m = n := by
  have hmd : m % max = n % max := congrArg RingIndex.value h
  rcases le_total m n with hle | hle
  · have hd := (Nat.modEq_iff_dvd' hle).mp hmd
    have := Nat.eq_zero_of_dvd_of_lt hd (by omega)
    omega
  · have hd := (Nat.modEq_iff_dvd' hle).mp hmd.symm
    have := Nat.eq_zero_of_dvd_of_lt hd (by omega)
    omega

end RingIndex

/-- `IndexComparable<Index>`: an index seen from a begin, in the order met from there. -/
structure IndexComparable (max : Nat) where
  value : RingIndex max
  begin_ : RingIndex max

namespace IndexComparable

variable (c : IndexComparable max)

def isBefore (other : RingIndex max) : Bool :=
  (c.value != other) && decide (c.begin_.distance c.value < c.begin_.distance other)

def isAfter (other : RingIndex max) : Bool :=
  (c.value != other) && decide (c.begin_.distance c.value > c.begin_.distance other)

def gt (other : RingIndex max) : Bool := c.isAfter other
def ge (other : RingIndex max) : Bool :=
  (c.value == other) || c.isAfter other
def lt (other : RingIndex max) : Bool := c.isBefore other
def le (other : RingIndex max) : Bool :=
  (c.value == other) || c.isBefore other

/-! The guard `value != other` is implied by the strict comparison of the distances,
so each comparison is the comparison of the two distances from the begin. -/

@[simp] theorem lt_iff (v b o : RingIndex max) :
    (IndexComparable.mk v b).lt o = true ↔ b.distance v < b.distance o := by
  simp only [lt, isBefore, Bool.and_eq_true, bne_iff_ne, decide_eq_true_eq]
  refine ⟨And.right, fun h => ⟨?_, h⟩⟩
  rintro rfl
  exact Nat.lt_irrefl _ h

@[simp] theorem gt_iff (v b o : RingIndex max) :
    (IndexComparable.mk v b).gt o = true ↔ b.distance o < b.distance v := by
  simp only [gt, isAfter, Bool.and_eq_true, bne_iff_ne, decide_eq_true_eq]
  refine ⟨And.right, fun h => ⟨?_, h⟩⟩
  rintro rfl
  exact Nat.lt_irrefl _ h

@[simp] theorem le_iff (v b o : RingIndex max) :
    (IndexComparable.mk v b).le o = true ↔ b.distance v ≤ b.distance o := by
  have hb : (IndexComparable.mk v b).isBefore o = true ↔ b.distance v < b.distance o :=
    lt_iff v b o
  simp only [le, Bool.or_eq_true, beq_iff_eq, hb]
  rw [← RingIndex.distance_inj (a := b)]
  omega

@[simp] theorem ge_iff (v b o : RingIndex max) :
    (IndexComparable.mk v b).ge o = true ↔ b.distance o ≤ b.distance v := by
  have ha : (IndexComparable.mk v b).isAfter o = true ↔ b.distance o < b.distance v :=
    gt_iff v b o
  simp only [ge, Bool.or_eq_true, beq_iff_eq, ha]
  rw [← RingIndex.distance_inj (a := b)]
  omega

end IndexComparable

/-- `RingIndexRange<Index>`: the inclusive range `[left:right]`. -/
structure RingIndexRange (max : Nat) where
  left : RingIndex max
  right : RingIndex max
  deriving DecidableEq

namespace RingIndexRange

variable (r : RingIndexRange max)

def inRange (index begin_ : RingIndex max) : Bool :=
  (IndexComparable.mk r.left begin_).le index && (IndexComparable.mk r.right begin_).ge index

def isFlipped (begin_ : RingIndex max) : Bool :=
  (IndexComparable.mk r.left begin_).gt r.right

def isEmpty : Bool := r.left == r.right

def distance : Nat := r.left.distance r.right

theorem inRange_begin_iff (b e i : RingIndex max) :
    (RingIndexRange.mk b e).inRange i b = true ↔ b.distance i ≤ b.distance e := by
  simp [inRange]

end RingIndexRange

end Ae.Types.Ring
