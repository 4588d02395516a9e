/- source: mstream.h, types/{nullable_type,variant_type}.h
   digest: What decoding an encoded value leaves in a target, for each pair of operators. -/

import Ae.MStream.Operators

set_option autoImplicit false

namespace Ae.MStream.Decoding
open VectorReader Operators
open List hiding map
open Reader Consumed

/-- A place within a value where its encoding depends on a size or on a held value. -/
inductive Site where
  /-- A string, vector or deque. -/
  | resized (count need : Nat)
  /-- A list. -/
  | looped (count : Nat)
  /-- A map or a statistics counter. -/
  | counted (count : Nat)
  /-- A `VariantType`, valueless or not. -/
  | held (value : Bool)

namespace Site

/-- The size is one that the size type represents and a container can have. -/
def Fits (size : SizeType) : Site → Prop
  | resized count need => count ≤ size.maxValue ∧ need < 2 ^ 63
  | looped count => count ≤ size.maxValue
  | counted count => count ≤ size.maxValue
  | held _ => True

/-- A list that its loop can count, a `VariantType` that holds a value. -/
def Countable : Site → Prop
  | resized _ _ => True
  | looped count => count < 2 ^ 32
  | counted _ => True
  | held value => value = true

def Good (size : SizeType) (site : Site) : Prop := site.Fits size ∧ site.Countable

end Site

/-- What the encoding of a value means: `merge v t` is the value written over the target
`t`, which shows through wherever `v` has nothing to say; `speaks v t` means that it does not
show, and `sites` lists the places of interest in a value. -/
structure Shape (α : Type) where
  merge : α → α → α
  speaks : α → α → Prop
  merge_eq_iff : ∀ v t, merge v t = v ↔ speaks v t
  sites : α → List Site

/-- Decoding the encoding of `v` into `t` leaves `w`, and takes just that encoding. -/
def Leaves {α : Type} (c : Codec α) (v t w : α) : Prop :=
  ∀ (r : Reader) (ys : List UInt8), r.rest = c.put v ++ ys →
    ∃ r', c.get t r = .ok (r', w) ∧ Consumed r r' (c.put v).length

/-- The operators do what the shape says. Only a type with a single value has an empty
encoding. -/
structure Decodes (size : SizeType) {α : Type} (c : Codec α) (s : Shape α) : Prop where
  leaves : ∀ v t, (∀ site ∈ s.sites v, site.Good size) → Leaves c v t (s.merge v t)
  hollow : ∀ v, (∀ site ∈ s.sites v, site.Good size) → c.put v = [] → ∀ a b : α, a = b

variable {size : SizeType} {w : Nat} {α : Type} {c : Codec α} {s : Shape α} {n : Nat} {β : Type}
  {u : Shape β}

def atom {α : Type} : Shape α where
  merge v _ := v
  speaks _ _ := True
  merge_eq_iff _ _ := iff_of_true rfl trivial
  sites _ := []

theorem ofRaw_val (v : Bytes w) : ofRaw w v.1 = v := by
  rw [ofRaw, dif_pos v.2]

theorem readRaw_of_rest (v t : Bytes w) {r : Reader} {ys : List UInt8} (h : r.rest = v.1 ++ ys) :
    ∃ r', readRaw w t r = (r', v) ∧ r'.result = .yes ∧ Consumed r r' w := by
  obtain ⟨r', hr, hy, hc⟩ := read_of_rest h v.2
  refine ⟨r', ?_, hy, hc⟩
  rw [readRaw, hr]
  show (r', ofRaw w v.1) = (r', v)
  rw [ofRaw_val]

theorem val_ne_nil (hp : 0 < w) (v : Bytes w) : v.1 ≠ [] := by
  intro hn
  have hl := v.2
  rw [hn, length_nil] at hl
  omega

theorem decodes_int (hp : 0 < w) : Decodes size (int w) atom := by
  refine ⟨?_, fun v _ hn => absurd hn (val_ne_nil hp v)⟩
  intro v t _ r ys h
  obtain ⟨r', hr, -, hc⟩ := readRaw_of_rest v t h
  refine ⟨r', ?_, ?_⟩
  · show Except.ok (readRaw w t r) = Except.ok (r', v)
    rw [hr]
  · rw [show ((int w).put v).length = w from v.2]
    exact hc

theorem decodes_enum (hp : 0 < w) : Decodes size (enum w) atom := by
  refine ⟨?_, fun v _ hn => absurd hn (val_ne_nil hp v)⟩
  intro v t _ r ys h
  obtain ⟨r', hr, hy, hc⟩ := readRaw_of_rest v (zeros w) h
  refine ⟨r', ?_, ?_⟩
  · simp only [enum, hr, hy, if_true, atom]
  · rw [show ((enum w).put v).length = w from v.2]
    exact hc

theorem boolean_put_ne_nil (v : Bool) : boolean.put v ≠ [] := by
  cases v <;> simp [boolean]

theorem boolean_of_rest (v t : Bool) {r : Reader} {ys : List UInt8}
    (h : r.rest = boolean.put v ++ ys) :
    ∃ r', boolean.get t r = .ok (r', v) ∧ r'.result = .yes ∧
      Consumed r r' (boolean.put v).length := by
  have ho : (boolean.put v).length = 1 := by cases v <;> rfl
  obtain ⟨r', hr, hy, hc⟩ := read_of_rest h ho
  refine ⟨r', ?_, hy, ho ▸ hc⟩
  simp only [boolean] at hr ⊢
  rw [hr]
  cases v <;> simp

theorem decodes_boolean : Decodes size boolean atom := by
  refine ⟨?_, fun v _ hn => absurd hn (boolean_put_ne_nil v)⟩
  intro v t _ r ys h
  obtain ⟨r', hg, -, hc⟩ := boolean_of_rest v t h
  exact ⟨r', hg, hc⟩

theorem slices_flatMap (vs : List (Bytes w)) :
    slices w vs.length (vs.flatMap Subtype.val) = vs := by
  induction vs with
  | nil => rfl
  | cons v vs ih =>
    rw [length_cons, slices, flatMap_cons, take_left' v.2, drop_left' v.2, ih, ofRaw_val]

theorem flatMap_val_length (vs : List (Bytes w)) :
    (vs.flatMap Subtype.val).length = vs.length * w := by
  induction vs with
  | nil => simp
  | cons v vs ih =>
    rw [flatMap_cons, length_append, ih, v.2, length_cons, Nat.succ_mul, add_comm]

theorem decodes_scalarArray {n w : Nat} (hp : 0 < w) : Decodes size (scalarArray n w) atom := by
  constructor
  · intro v t _ r ys h
    have hl : (v.toList.flatMap Subtype.val).length = n * w := by
      rw [flatMap_val_length, List.Vector.toList_length]
    obtain ⟨r', hr, -, hc⟩ := read_of_rest h hl
    refine ⟨r', ?_, by rw [show ((scalarArray n w).put v).length = n * w from hl]; exact hc⟩
    have hb := slices_flatMap v.toList
    rw [List.Vector.toList_length] at hb
    simp only [scalarArray, hr, atom]
    exact congrArg (fun x => Except.ok (r', x)) (Subtype.ext hb)
  · intro v _ hn a b
    have hl : (v.toList.flatMap Subtype.val).length = n * w := by
      rw [flatMap_val_length, List.Vector.toList_length]
    rw [show v.toList.flatMap Subtype.val = [] from hn, length_nil] at hl
    have zero : n = 0 := by
      rcases Nat.mul_eq_zero.mp hl.symm with zero | zero
      · exact zero
      · omega
    subst zero
    rw [List.Vector.eq_nil a, List.Vector.eq_nil b]

theorem slices_booleans (bs : List Bool) :
    (slices 1 bs.length (bs.flatMap boolean.put)).map (fun b => decide (b.1 ≠ [0])) = bs := by
  induction bs with
  | nil => rfl
  | cons b bs ih =>
    have ho : (boolean.put b).length = 1 := by cases b <;> rfl
    rw [length_cons, slices, flatMap_cons, take_left' ho, drop_left' ho, map_cons, ih]
    cases b <;> rfl

theorem flatMap_boolean_length (bs : List Bool) : (bs.flatMap boolean.put).length = bs.length := by
  induction bs with
  | nil => rfl
  | cons b bs ih =>
    rw [flatMap_cons, length_append, ih, length_cons, add_comm]
    cases b <;> rfl

theorem decodes_boolArray {n : Nat} : Decodes size (boolArray n) atom := by
  have hl (v : List.Vector Bool n) : (v.toList.flatMap boolean.put).length = n := by
    rw [flatMap_boolean_length, List.Vector.toList_length]
  constructor
  · intro v t _ r ys h
    obtain ⟨r', hr, -, hc⟩ := read_of_rest h (hl v)
    refine ⟨r', ?_, by rw [show ((boolArray n).put v).length = n from hl v]; exact hc⟩
    have hb := slices_booleans v.toList
    rw [List.Vector.toList_length] at hb
    simp only [boolArray, hr, atom]
    exact congrArg (fun x => Except.ok (r', x)) (Subtype.ext hb)
  · intro v _ hn a b
    have hz := hl v
    rw [show v.toList.flatMap boolean.put = [] from hn, length_nil] at hz
    subst hz
    rw [List.Vector.eq_nil a, List.Vector.eq_nil b]

section

def block {α : Type} (w : Nat) : Shape (List α) where
  merge v _ := v
  speaks _ _ := True
  merge_eq_iff _ _ := iff_of_true rfl trivial
  sites v := [.resized v.length (v.length * w)]

variable {r : Reader} {ys : List UInt8}

theorem prefix_ne_nil (hs : n ≤ size.maxValue) (xs : List UInt8) : size.encode n ++ xs ≠ [] := by
  intro hn
  exact size.encode_ne_nil n hs (append_eq_nil_iff.mp hn).1

theorem resize_of_rest {nd : Nat} (hg : (Site.resized n nd).Good size)
    (h : r.rest = size.encode n ++ ys) :
    ∃ r1 r2, r.readSize size = (r1, some n) ∧ r1.resize n nd = .ok r2 ∧ r2.rest = ys ∧
      r2.result = .yes ∧ Consumed r r2 (size.encode n).length := by
  obtain ⟨r1, hs, hy, h1⟩ := readSize_of_rest hg.1.1 h
  obtain ⟨r2, hr, he, h2⟩ := @resize_of_lt r1 n nd hg.1.2
  have hb := h1.trans h2
  rw [add_zero] at hb
  exact ⟨r1, r2, hs, hr, hb.rest h, he.trans hy, hb⟩

theorem decodes_string : Decodes size (string size) (block 1) := by
  constructor
  · intro v t hg r ys h
    have hf := hg _ (mem_singleton_self _)
    rw [mul_one] at hf
    rw [string, append_assoc] at h
    obtain ⟨r1, r2, hs, hr, hl, -, h1⟩ := resize_of_rest hf h
    obtain ⟨r3, hrd, -, h2⟩ := read_of_rest hl rfl
    refine ⟨r3, ?_, h1.append h2⟩
    simp only [string, hs, hr, Except.bind, hrd, block]
  · intro v hg hn
    have hf := hg _ (mem_singleton_self _)
    exact absurd hn (prefix_ne_nil hf.1.1 _)

theorem decodes_scalarVector {w : Nat} : Decodes size (scalarVector size w) (block w) := by
  constructor
  · intro v t hg r ys h
    have hf := hg _ (mem_singleton_self _)
    rw [scalarVector, append_assoc] at h
    obtain ⟨r1, r2, hs, hr, hl, -, h1⟩ := resize_of_rest hf h
    obtain ⟨r3, hrd, -, h2⟩ := read_of_rest hl (flatMap_val_length v)
    refine ⟨r3, ?_, ?_⟩
    · simp only [scalarVector, hs, hr, Except.bind, hrd, block, slices_flatMap]
    · rw [show (scalarVector size w).put v = size.encode v.length ++ v.flatMap Subtype.val from rfl,
        length_append, flatMap_val_length]
      exact h1.trans h2
  · intro v hg hn
    have hf := hg _ (mem_singleton_self _)
    exact absurd hn (prefix_ne_nil hf.1.1 _)

theorem getEach_of_rest (hd : Decodes size c s) (vs ts : List α) (he : vs.length = ts.length)
    (hg : ∀ v ∈ vs, ∀ si ∈ s.sites v, si.Good size) (h : r.rest = vs.flatMap c.put ++ ys) :
    ∃ r', getEach c ts r = .ok (r', zipWith s.merge vs ts) ∧
      Consumed r r' (vs.flatMap c.put).length := by
  induction vs generalizing ts r with
  | nil =>
    rw [eq_nil_of_length_eq_zero he.symm]
    exact ⟨r, rfl, refl r⟩
  | cons v vs ih =>
    cases ts with
    | nil => simp at he
    | cons t ts =>
      have hgv := hg v mem_cons_self
      rw [flatMap_cons, append_assoc] at h
      obtain ⟨r1, get, h1⟩ := hd.leaves v t hgv r _ h
      have he : vs.length = ts.length := by simpa using he
      rw [flatMap_cons, length_append]
      by_cases refused : r1.result = .no
      · -- only an element of no bytes leaves the result as it was, and then all are alike
        have hn : c.put v = [] := by
          rcases h1.result with hy | ⟨hn, -⟩
          · rw [refused] at hy; cases hy
          · exact eq_nil_of_length_eq_zero hn
        have ha := hd.hollow v hgv hn
        have all : vs.flatMap c.put = [] := by
          rw [flatMap_eq_nil_iff]
          intro u _
          rw [ha u v, hn]
        refine ⟨r1, ?_, ?_⟩
        · simp only [getEach, get, Except.bind, refused, if_true, zipWith_cons_cons]
          rw [show zipWith s.merge vs ts = ts from
            ext_getElem (by simp [he]) (fun i _ _ => ha _ _)]
        · rw [all, length_nil, add_zero]
          exact h1
      · obtain ⟨r2, hr, h2⟩ :=
          ih ts he (fun u hm => hg u (mem_cons_of_mem v hm))
          (h1.rest h)
        refine ⟨r2, ?_, h1.trans h2⟩
        simp only [getEach, get, Except.bind, refused, if_false, hr, zipWith_cons_cons]

theorem resizeTo_length {init : α} (n : Nat) (t : List α) : (resizeTo init n t).length = n := by
  rw [resizeTo, length_append, length_take, length_replicate]
  omega

theorem zipWith_merge_eq_iff (s : Shape α) (vs ts : List α) (he : vs.length = ts.length) :
    zipWith s.merge vs ts = vs ↔ List.Forall₂ s.speaks vs ts := by
  induction vs generalizing ts with
  | nil =>
    rw [eq_nil_of_length_eq_zero he.symm]
    exact iff_of_true rfl List.Forall₂.nil
  | cons v vs ih =>
    cases ts with
    | nil => simp at he
    | cons t ts =>
      rw [zipWith_cons_cons, cons.injEq, forall₂_cons, s.merge_eq_iff, ih ts (Nat.succ.inj he)]

theorem map_merge_eq_iff (s : Shape α) (t : α) (vs : List α) :
    vs.map (fun v => s.merge v t) = vs ↔ ∀ v ∈ vs, s.speaks v t := by
  induction vs with
  | nil => simp
  | cons v vs ih => rw [map_cons, cons.injEq, forall_mem_cons, s.merge_eq_iff, ih]

/-- A vector or deque: the old elements show through where the new ones let them. -/
def sequenceOf {α : Type} (init : α) (s : Shape α) : Shape (List α) where
  merge v t := zipWith s.merge v (resizeTo init v.length t)
  speaks v t := List.Forall₂ s.speaks v (resizeTo init v.length t)
  merge_eq_iff v t := zipWith_merge_eq_iff s v _ (resizeTo_length _ t).symm
  sites v := .resized v.length v.length :: v.flatMap s.sites

theorem good_elements {vs : List α} {head : Site}
    (hg : ∀ si ∈ head :: vs.flatMap s.sites, si.Good size) :
    ∀ v ∈ vs, ∀ si ∈ s.sites v, si.Good size := by
  intro v hm si hi
  exact hg si (mem_cons_of_mem _ (mem_flatMap.mpr ⟨v, hm, hi⟩))

theorem decodes_vector (hd : Decodes size c s) :
    Decodes size (vector size c) (sequenceOf c.init s) := by
  constructor
  · intro v t hg r ys h
    have hf := hg _ mem_cons_self
    rw [vector, append_assoc] at h
    obtain ⟨r1, r2, hs, hr, hl, -, h1⟩ := resize_of_rest hf h
    obtain ⟨r3, he, h2⟩ := getEach_of_rest hd v (resizeTo c.init v.length t)
      (resizeTo_length _ t).symm (good_elements hg) hl
    refine ⟨r3, ?_, h1.append h2⟩
    simp only [vector, hs, hr, Except.bind, he, sequenceOf]
  · intro v hg hn
    have hf := hg _ mem_cons_self
    exact absurd hn (prefix_ne_nil hf.1.1 _)

def arrayOf {α : Type} (n : Nat) (s : Shape α) : Shape (List.Vector α n) where
  merge v t := ⟨zipWith s.merge v.1 t.1, by simp [v.2, t.2]⟩
  speaks v t := List.Forall₂ s.speaks v.1 t.1
  merge_eq_iff v t := by
    apply Iff.trans (Subtype.ext_iff)
    exact zipWith_merge_eq_iff s v.1 t.1 (v.2.trans t.2.symm)
  sites v := v.1.flatMap s.sites

theorem array_get_of_each {t : List.Vector α n} {r' : Reader} {t' : List α}
    (h : getEach c t.1 r = .ok (r', t')) : ∃ hl, (array n c).get t r = .ok (r', ⟨t', hl⟩) := by
  refine ⟨(getEach_length c t.1 h).trans t.2, ?_⟩
  simp only [array]
  split
  · rename_i stopped
    rw [h] at stopped
    cases stopped
  · rename_i he
    rw [h] at he
    cases he
    rfl

theorem decodes_array (hd : Decodes size c s) : Decodes size (array n c) (arrayOf n s) := by
  have he {v : List.Vector α n}
      (hg : ∀ si ∈ (arrayOf n s).sites v, si.Good size) :
      ∀ u ∈ v.1, ∀ si ∈ s.sites u, si.Good size := by
    intro u hm si hi
    exact hg si (mem_flatMap.mpr ⟨u, hm, hi⟩)
  constructor
  · intro v t hg r ys h
    obtain ⟨r', hec, hc⟩ :=
      getEach_of_rest hd v.1 t.1 (v.2.trans t.2.symm) (he hg) h
    obtain ⟨hl, get⟩ := array_get_of_each hec
    exact ⟨r', get, hc⟩
  · intro v hg hn a b
    have hec := flatMap_eq_nil_iff.mp hn
    apply Subtype.ext
    apply ext_getElem (a.2.trans b.2.symm)
    intro i hi _
    have hp : i < v.1.length := by rw [v.2, ← a.2]; exact hi
    have hm := getElem_mem hp
    exact hd.hollow _ (he hg _ hm) (hec _ hm) _ _

def listOf {α : Type} (init : α) (s : Shape α) : Shape (List α) where
  merge v _ := v.map (fun x => s.merge x init)
  speaks v _ := ∀ x ∈ v, s.speaks x init
  merge_eq_iff v _ := map_merge_eq_iff s init v
  sites v := .looped v.length :: v.flatMap s.sites

theorem listLoop_of_rest (hd : Decodes size c s) {total : Nat} (hs : total < 2 ^ 32) (vs : List α)
    (hg : ∀ v ∈ vs, ∀ si ∈ s.sites v, si.Good size) (fuel : Nat) (i : UInt32) (d : List α)
    (hc : i.toNat + vs.length = total) (he : vs.length < fuel) (hy : r.result = .yes)
    (h : r.rest = vs.flatMap c.put ++ ys) : ∃ r', listLoop c total fuel i d r =
        .ok (r', d ++ vs.map (fun x => s.merge x c.init)) ∧
      Consumed r r' (vs.flatMap c.put).length := by
  induction vs generalizing fuel i d r with
  | nil =>
    obtain ⟨fuel, rfl⟩ := Nat.exists_eq_succ_of_ne_zero he.ne'
    have hen : ¬ i.toNat < total := by simp at hc; omega
    refine ⟨r, ?_, refl r⟩
    rw [listLoop, if_neg hen, map_nil, append_nil]
  | cons v vs ih =>
    obtain ⟨fuel, rfl⟩ := Nat.exists_eq_succ_of_ne_zero (Nat.ne_of_gt (Nat.zero_lt_of_lt he))
    rw [length_cons] at hc he
    rw [flatMap_cons, append_assoc] at h
    obtain ⟨r1, get, h1⟩ := hd.leaves v c.init (hg v mem_cons_self) r _ h
    have hy1 := h1.yes hy
    have hn : (i + 1).toNat = i.toNat + 1 := by
      rw [UInt32.toNat_add]
      exact Nat.mod_eq_of_lt (by simp; omega)
    obtain ⟨r2, hl, h2⟩ := ih (fun u hm => hg u (mem_cons_of_mem v hm)) fuel
      (i + 1) (d ++ [s.merge v c.init]) (by rw [hn]; omega) (by omega) (r := r1.spend 1) hy1
      ((h1.spend 1).rest h)
    refine ⟨r2, ?_, ?_⟩
    · rw [listLoop, if_pos (by omega), get]
      simp only [Except.bind, hy1, reduceCtorEq, if_false, hl, map_cons, append_assoc,
        singleton_append]
    · rw [flatMap_cons]
      exact (h1.spend 1).append h2

theorem decodes_list (hd : Decodes size c s) : Decodes size (list size c) (listOf c.init s) := by
  constructor
  · intro v t hg r ys h
    have hf := hg _ mem_cons_self
    rw [list, append_assoc] at h
    obtain ⟨r1, hs, hy, h1⟩ := readSize_of_rest hf.1 h
    have hsh : v.length < 2 ^ 32 := hf.2
    obtain ⟨r2, hl, h2⟩ := listLoop_of_rest hd hsh v (good_elements hg)
      (min v.length (2 ^ 32) + r1.rest.length + 2) 0 [] (by simp) (by omega) hy (h1.rest h)
    refine ⟨r2, ?_, h1.append h2⟩
    simp only [list, hs, hl, listOf, nil_append]
  · intro v hg hn
    have hf := hg _ mem_cons_self
    exact absurd hn (prefix_ne_nil hf.1 _)

end

section

variable {a : Codec α} {b : Codec β}

def pairOf {α β : Type} (s : Shape α) (u : Shape β) : Shape (α × β) where
  merge v t := (s.merge v.1 t.1, u.merge v.2 t.2)
  speaks v t := s.speaks v.1 t.1 ∧ u.speaks v.2 t.2
  merge_eq_iff v t := by rw [Prod.ext_iff, s.merge_eq_iff, u.merge_eq_iff]
  sites v := s.sites v.1 ++ u.sites v.2

theorem decodes_pair (h1 : Decodes size a s) (h2 : Decodes size b u) :
    Decodes size (pair a b) (pairOf s u) := by
  constructor
  · intro v t hg r ys h
    rw [pair, append_assoc] at h
    obtain ⟨r1, get1, hc1⟩ := h1.leaves v.1 t.1
      (forall_mem_append.mp hg).1 r _ h
    obtain ⟨r2, get2, hc2⟩ := h2.leaves v.2 t.2
      (forall_mem_append.mp hg).2 r1 _ (hc1.rest h)
    refine ⟨r2, ?_, hc1.append hc2⟩
    simp only [pair, get1, get2, Except.bind, pairOf]
  · intro v hg hn x y
    obtain ⟨hn1, hn2⟩ := append_eq_nil_iff.mp hn
    obtain ⟨hg1, hg2⟩ := forall_mem_append.mp hg
    have ha1 := h1.hollow v.1 hg1 hn1
    have ha2 := h2.hollow v.2 hg2 hn2
    exact Prod.ext (ha1 _ _) (ha2 _ _)

def mapOf {α β : Type} (order : KeyOrder α) (init : α × β) (s : Shape (α × β)) :
    Shape (OrderedMap order β) where
  merge v _ := (v.1.map (fun kv => s.merge kv init)).foldl emplace emptyMap
  -- a key that does not speak for itself can run into another one
  speaks v _ := (v.1.map (fun kv => s.merge kv init)).foldl emplace emptyMap = v
  merge_eq_iff _ _ := Iff.rfl
  sites v := .counted v.1.length :: v.1.flatMap s.sites

theorem mapLoop_of_rest {o : KeyOrder α} {c : Codec (α × β)} {s : Shape (α × β)}
    (hd : Decodes size c s) (kvs : List (α × β))
    (hg : ∀ kv ∈ kvs, ∀ si ∈ s.sites kv, si.Good size) (m : OrderedMap o β) {r : Reader}
    (hy : r.result = .yes) {ys : List UInt8} (h : r.rest = kvs.flatMap c.put ++ ys) :
    ∃ r', mapLoop c kvs.length m r =
        .ok (r', (kvs.map (fun kv => s.merge kv c.init)).foldl emplace m) ∧
      Consumed r r' (kvs.flatMap c.put).length := by
  induction kvs generalizing m r with
  | nil => exact ⟨r, rfl, refl r⟩
  | cons kv kvs ih =>
    rw [flatMap_cons, append_assoc] at h
    obtain ⟨r1, get, h1⟩ := hd.leaves kv c.init (hg kv mem_cons_self) r _ h
    have hy1 := h1.yes hy
    obtain ⟨r2, hl, h2⟩ := ih (fun e hm => hg e (mem_cons_of_mem kv hm))
      (emplace m (s.merge kv c.init)) (r := r1.spend 1) hy1 ((h1.spend 1).rest h)
    refine ⟨r2, ?_, ?_⟩
    · rw [length_cons, mapLoop, get]
      simp only [Except.bind, hy1, reduceCtorEq, if_false, hl, map_cons, foldl_cons]
    · rw [flatMap_cons]
      exact (h1.spend 1).append h2

theorem decodes_map {o : KeyOrder α} (h1 : Decodes size a s) (h2 : Decodes size b u) :
    Decodes size (map size o a b) (mapOf o (pair a b).init (pairOf s u)) := by
  constructor
  · intro v t hg r ys h
    have hf := hg _ mem_cons_self
    rw [map, append_assoc] at h
    obtain ⟨r1, hs, hy, hc1⟩ := readSize_of_rest hf.1 h
    obtain ⟨r2, hl, hc2⟩ := mapLoop_of_rest (decodes_pair h1 h2) v.1
      (good_elements hg) (emptyMap : OrderedMap o β) hy (hc1.rest h)
    refine ⟨r2, ?_, hc1.append hc2⟩
    simp only [map, hs, hl, mapOf]
  · intro v hg hn
    have hf := hg _ mem_cons_self
    exact absurd hn (prefix_ne_nil hf.1 _)

end

section

def optionOf {α : Type} (init : α) (s : Shape α) : Shape (Option α) where
  merge
    | none, t => t
    | some v, _ => some (s.merge v init)
  speaks
    | none, t => t = none
    | some v, _ => s.speaks v init
  merge_eq_iff v t := by
    cases v with
    | none => exact Iff.rfl
    | some v => rw [Option.some.injEq, s.merge_eq_iff]
  sites
    | none => []
    | some v => s.sites v

theorem decodes_optional (hd : Decodes size c s) :
    Decodes size (optionalValue c) (optionOf c.init s) := by
  constructor
  · intro v t hgd r ys h
    cases v with
    | none =>
      obtain ⟨r1, hg, hy, hc⟩ := boolean_of_rest false false h
      refine ⟨r1, ?_, hc⟩
      simp only [optionalValue, hg, Except.bind, hy, reduceCtorEq, if_false, Bool.false_eq_true,
        optionOf]
    | some v =>
      rw [optionalValue, append_assoc] at h
      obtain ⟨r1, hm, hy, h1⟩ := boolean_of_rest true false h
      obtain ⟨r2, hg, h2⟩ := hd.leaves v c.init hgd r1 _ (h1.rest h)
      refine ⟨r2, ?_, h1.append h2⟩
      simp only [optionalValue, hm, Except.bind, hy, reduceCtorEq, if_false, if_true, hg,
        h2.yes hy, optionOf]
  · intro v hgd none
    cases v with
    | none => exact absurd none (boolean_put_ne_nil false)
    | some v =>
      exact absurd (append_eq_nil_iff.mp none).1 (boolean_put_ne_nil true)

variable {A : Fin (n + 1) → Type} {cs : (i : Fin (n + 1)) → Codec (A i)}
  {ss : (i : Fin (n + 1)) → Shape (A i)}

theorem some_alternative_eq_iff {i : Fin (n + 1)} {v v' : A i} :
    (some ⟨i, v'⟩ : Option ((i : Fin (n + 1)) × A i)) = some ⟨i, v⟩ ↔ v' = v := by
  rw [Option.some.injEq, Sigma.mk.injEq]
  exact ⟨fun he => eq_of_heq he.2, fun he => ⟨rfl, heq_of_eq he⟩⟩

def variantOf (init : (i : Fin (n + 1)) → A i) (ss : (i : Fin (n + 1)) → Shape (A i)) :
    Shape (Option ((i : Fin (n + 1)) × A i)) where
  merge
    | none, t => t
    | some ⟨i, v⟩, _ => some ⟨i, (ss i).merge v (init i)⟩
  speaks
    | none, t => t = none
    | some ⟨i, v⟩, _ => (ss i).speaks v (init i)
  merge_eq_iff v t := by
    cases v with
    | none => exact Iff.rfl
    | some v => exact some_alternative_eq_iff.trans ((ss v.1).merge_eq_iff v.2 (init v.1))
  sites
    | none => []
    | some ⟨i, v⟩ => (ss i).sites v

theorem readTag_of_rest (b : UInt8) {r : Reader} {ys : List UInt8} (h : r.rest = b :: ys) :
    ∃ r', readRaw 1 (zeros 1) r = (r', ⟨[b], rfl⟩) ∧ r'.result = .yes ∧ Consumed r r' 1 ∧
      r'.rest = ys := by
  obtain ⟨r', hr, hy, hc⟩ := readRaw_of_rest ⟨[b], rfl⟩ (zeros 1) h
  exact ⟨r', hr, hy, hc, @rest r r' [b] ys hc h⟩

theorem decodes_variant (hf : n + 1 ≤ 255) (hd : ∀ i, Decodes size (cs i) (ss i)) :
    Decodes size (variant cs) (variantOf (fun i => (cs i).init) ss) := by
  constructor
  · intro v t hg r ys h
    cases v with
    | none =>
      obtain ⟨r1, hr, hy, hc, -⟩ := readTag_of_rest 255 h
      refine ⟨r1, ?_, hc⟩
      simp only [variant, hr, hy, reduceCtorEq, if_false, variantOf]
      rfl
    | some v =>
      obtain ⟨i, v⟩ := v
      have tag : (UInt8.ofNat i).toNat = i := by
        rw [UInt8.toNat_ofNat']
        have := i.2
        omega
      obtain ⟨r1, hr, hy, h1, hl⟩ := readTag_of_rest _ h
      obtain ⟨r2, get, h2⟩ := (hd i).leaves v (cs i).init hg r1 ys hl
      refine ⟨r2, ?_, h1.cons h2⟩
      have hk : alternativeAt n i.1 = some i := dif_pos i.2
      have hs : i.1 ≠ 255 := by have := i.2; omega
      simp only [variant, hr, hy, reduceCtorEq, if_false, variantOf, headD_cons, tag,
        hs, hk, get, Except.bind, h2.yes hy]
  · intro v hg none
    cases v with
    | none | some v => cases none

def variantTypeOf (init : (i : Fin (n + 1)) → A i) (ss : (i : Fin (n + 1)) → Shape (A i)) :
    Shape (Option ((i : Fin (n + 1)) × A i)) where
  merge
    | none, _ => none
    | some ⟨i, v⟩, _ => some ⟨i, (ss i).merge v (init i)⟩
  speaks
    | none, _ => True
    | some ⟨i, v⟩, _ => (ss i).speaks v (init i)
  merge_eq_iff v t := by
    cases v with
    | none => exact iff_of_true rfl trivial
    | some v => exact some_alternative_eq_iff.trans ((ss v.1).merge_eq_iff v.2 (init v.1))
  sites
    | none => [.held false]
    | some ⟨i, v⟩ => .held true :: (ss i).sites v

variable {tags : Fin (n + 1) → Bytes w}

theorem foldl_order (hd : ∀ i j, tags i = tags j → i = j) (i : Fin (n + 1))
    (order : Fin (n + 1)) (is : List (Fin (n + 1))) :
    is.foldl (fun order j => if tags i = tags j then j else order) order =
      if i ∈ is then i else order := by
  induction is generalizing order with
  | nil => simp
  | cons j is ih =>
    rw [foldl_cons, ih]
    by_cases same : tags i = tags j
    · have := hd i j same
      subst this
      simp
    · have hn : i ≠ j := fun he => same (congrArg tags he)
      simp [same, hn]

theorem orderByIndex_tag (hd : ∀ i j, tags i = tags j → i = j) (i : Fin (n + 1)) :
    orderByIndex tags (tags i) = i := by
  rw [orderByIndex, foldl_order hd, if_pos (mem_finRange i)]

theorem decodes_variantType (hp : 0 < w) (hd : ∀ i j, tags i = tags j → i = j)
    (hdc : ∀ i, Decodes size (cs i) (ss i)) :
    Decodes size (variantType tags cs) (variantTypeOf (fun i => (cs i).init) ss) := by
  constructor
  · intro v t hg r ys h
    cases v with
    | none => exact absurd (hg _ (mem_singleton_self _)).2 (by simp [Site.Countable])
    | some v =>
      obtain ⟨i, v⟩ := v
      rw [variantType, append_assoc] at h
      obtain ⟨r1, hr, hy, h1⟩ := readRaw_of_rest (tags i) (zeros w) h
      have h1' : Consumed r r1 (tags i).1.length := by rw [(tags i).2]; exact h1
      obtain ⟨r2, get, h2⟩ := (hdc i).leaves v (cs i).init
        (fun si hi => hg si (mem_cons_of_mem _ hi)) r1 ys (h1'.rest h)
      refine ⟨r2, ?_, h1'.append h2⟩
      simp only [variantType, hr, orderByIndex_tag hd]
      simp only [loadElement, get, Except.bind, variantTypeOf]
  · intro v hg none
    cases v with
    | none => exact absurd none (val_ne_nil hp _)
    | some v => exact absurd (append_eq_nil_iff.mp none).1 (val_ne_nil hp _)

end

section

theorem decodes_noFields : Decodes size noFields atom :=
  ⟨fun _ _ _ r _ _ => ⟨r, rfl, refl r⟩, fun _ _ _ _ _ => rfl⟩

theorem decodes_field {c : Codec α} {others : Codec β} {s : Shape α} {u : Shape β} (init : α)
    (h1 : Decodes size c s) (h2 : Decodes size others u) :
    Decodes size (field c init others) (pairOf s u) :=
  ⟨(decodes_pair h1 h2).leaves, (decodes_pair h1 h2).hollow⟩

def MaskedLeaves (fields : Masked β) (v t w : β) : Prop :=
  ∀ (r : Reader) (ys : List UInt8), r.rest = fields.put v ++ ys →
    ∃ r', fields.get (fields.mask v) t r = .ok (r', w) ∧ Consumed r r' (fields.put v).length

structure MaskedDecodes (size : SizeType) (n : Nat) (fields : Masked β) (s : Shape β) : Prop where
  leaves : ∀ v t, (∀ site ∈ s.sites v, site.Good size) → MaskedLeaves fields v t (s.merge v t)
  mask_lt : ∀ v, fields.mask v < 2 ^ n

theorem masked_noFields : MaskedDecodes size 0 noMaskedFields atom :=
  ⟨fun _ _ _ r _ _ => ⟨r, rfl, refl r⟩, fun _ => one_pos⟩

variable {others : Masked β}

theorem masked_field (init : α) (h1 : Decodes size c s) (h2 : MaskedDecodes size n others u) :
    MaskedDecodes size (n + 1) (maskedField c init others) (pairOf s u) := by
  constructor
  · intro v t hg r ys h
    rw [maskedField, append_assoc] at h
    obtain ⟨r1, hg1, hc1⟩ := h1.leaves v.1 t.1
      (forall_mem_append.mp hg).1 r _ h
    obtain ⟨r2, hg2, hc2⟩ := h2.leaves v.2 t.2
      (forall_mem_append.mp hg).2 r1 _ (hc1.rest h)
    have hh : 2 * others.mask v.2 / 2 = others.mask v.2 := by omega
    refine ⟨r2, ?_, hc1.append hc2⟩
    simp only [maskedField, hg1, hh, hg2, Except.bind, pairOf]
  · intro v
    have := h2.mask_lt v.2
    show 2 * others.mask v.2 < 2 ^ (n + 1)
    omega

theorem masked_optional (init : Option α) (h1 : Decodes size c s)
    (h2 : MaskedDecodes size n others u) :
    MaskedDecodes size (n + 1) (maskedOptional c init others) (pairOf (optionOf c.init s) u) := by
  constructor
  · intro v t hg r ys h
    obtain ⟨v, vs⟩ := v
    cases v with
    | none =>
      obtain ⟨r1, get, hc⟩ := h2.leaves vs t.2
        (forall_mem_append.mp hg).2 r ys h
      refine ⟨r1, ?_, hc⟩
      have hb : (1 + 2 * others.mask vs) % 2 = 1 := by omega
      have hh : (1 + 2 * others.mask vs) / 2 = others.mask vs := by omega
      simp only [maskedOptional, Option.isNone_none, if_true, hb, hh, get, Except.bind, pairOf,
        optionOf]
    | some v =>
      rw [maskedOptional, append_assoc] at h
      obtain ⟨r1, hg1, hc1⟩ := h1.leaves v c.init
        (forall_mem_append.mp hg).1 r _ h
      obtain ⟨r2, hg2, hc2⟩ := h2.leaves vs t.2
        (forall_mem_append.mp hg).2 r1 _ (hc1.rest h)
      have hb : ¬ (0 + 2 * others.mask vs) % 2 = 1 := by omega
      have hh : (0 + 2 * others.mask vs) / 2 = others.mask vs := by omega
      refine ⟨r2, ?_, hc1.append hc2⟩
      simp only [maskedOptional, Option.isNone_some, Bool.false_eq_true, if_false, hb, hh,
        hg1, hg2, Except.bind, pairOf, optionOf]
  · intro v
    have := h2.mask_lt v.2
    show (if v.1.isNone then 1 else 0) + 2 * others.mask v.2 < 2 ^ (n + 1)
    split <;> omega

theorem decodes_nullable {fs : Masked β} (hf : n ≤ 8)
    (hd : MaskedDecodes size n fs u) : Decodes size (nullable fs) u := by
  constructor
  · intro v t hg r ys h
    have hb : (UInt8.ofNat (fs.mask v)).toNat = fs.mask v := by
      rw [UInt8.toNat_ofNat']
      have := hd.mask_lt v
      have : 2 ^ n ≤ 2 ^ 8 := Nat.pow_le_pow_right (by omega) hf
      omega
    obtain ⟨r1, hr, -, h1, hl⟩ := readTag_of_rest _ h
    obtain ⟨r2, get, h2⟩ := hd.leaves v t hg r1 ys hl
    refine ⟨r2, ?_, h1.cons h2⟩
    simp only [nullable, hr, headD_cons, hb, get]
  · intro v hg hn
    cases hn

end

section

variable {cap : Nat}

theorem push_val (hp : 0 < cap) (t : Window cap α) (v : α) :
    (push hp t v).1 = (t.1 ++ [v]).drop (t.1.length + 1 - cap) := by
  have hb := t.2
  rw [push]
  split
  · rename_i room
    rw [show t.1.length + 1 - cap = 0 by omega, drop_zero]
  · rename_i full
    rw [show t.1.length + 1 - cap = 1 by omega, drop_append_of_le_length (by omega)]

theorem foldl_push_val (pos : 0 < cap) (t : Window cap α) (vs : List α) :
    (vs.foldl (push pos) t).1 = (t.1 ++ vs).drop (t.1.length + vs.length - cap) := by
  induction vs generalizing t with
  | nil =>
    have bound := t.2
    rw [foldl_nil, append_nil, length_nil, show t.1.length + 0 - cap = 0 by omega, drop_zero]
  | cons v vs ih =>
    have length := congrArg length (push_val pos t v)
    rw [length_drop, length_append, length_singleton] at length
    have front : t.1.length + 1 - cap ≤ (t.1 ++ [v]).length := by
      rw [length_append, length_singleton]
      omega
    rw [foldl_cons, ih, length, push_val, ← drop_append_of_le_length front,
      drop_drop, append_assoc, singleton_append, length_cons]
    congr 1
    omega

/-- A statistics counter: the values are added to those that are there. -/
def windowOf {α : Type} {cap : Nat} (pos : 0 < cap) (init : α) (s : Shape α) :
    Shape (Window cap α) where
  merge v t := (v.1.map (fun x => s.merge x init)).foldl (push pos) t
  speaks v t := (v.1.length = cap ∨ t.1 = []) ∧ ∀ x ∈ v.1, s.speaks x init
  merge_eq_iff v t := by
    have bound := v.2
    rw [Subtype.ext_iff, foldl_push_val, length_map, ← map_merge_eq_iff s init v.1]
    by_cases whole : v.1.length = cap ∨ t.1 = []
    · have old : t.1.length + v.1.length - cap = t.1.length := by
        rcases whole with full | fresh
        · omega
        · rw [fresh, length_nil]
          omega
      rw [old, drop_left]
      exact ⟨fun same => ⟨whole, same⟩, And.right⟩
    · -- what was there already makes the result longer than the value
      refine iff_of_false (fun same => ?_) (fun h => whole h.1)
      have length := congrArg length same
      rw [length_drop, length_append, length_map] at length
      have there : t.1.length ≠ 0 := fun none =>
        whole (Or.inr (eq_nil_of_length_eq_zero none))
      have room : v.1.length ≠ cap := fun full => whole (Or.inl full)
      omega
  sites v := .counted v.1.length :: v.1.flatMap s.sites

theorem pushLoop_of_rest (hp : 0 < cap) {f : α → α} (vs : List α)
    (he : ∀ v ∈ vs, Leaves c v c.init (f v)) (t : Window cap α) {r : Reader}
    {ys : List UInt8} (h : r.rest = vs.flatMap c.put ++ ys) :
    ∃ r', pushLoop c hp vs.length t r = .ok (r', (vs.map f).foldl (push hp) t) ∧
      Consumed r r' (vs.flatMap c.put).length := by
  induction vs generalizing t r with
  | nil => exact ⟨r, rfl, refl r⟩
  | cons v vs ih =>
    rw [flatMap_cons, append_assoc] at h
    obtain ⟨r1, hg, h1⟩ := he v mem_cons_self r _ h
    obtain ⟨r2, hl, h2⟩ := ih (fun u hm => he u (mem_cons_of_mem v hm))
      (push hp t (f v)) (r := r1.spend 1) ((h1.spend 1).rest h)
    refine ⟨r2, ?_, ?_⟩
    · rw [length_cons, pushLoop, hg]
      simp only [Except.bind, hl, map_cons, foldl_cons]
    · rw [flatMap_cons]
      exact (h1.spend 1).append h2

theorem decodes_statistics (hp : 0 < cap) (hd : Decodes size c s) :
    Decodes size (statistics size c hp) (windowOf hp c.init s) := by
  constructor
  · intro v t hg r ys h
    have hf := hg _ mem_cons_self
    rw [statistics, append_assoc] at h
    obtain ⟨r1, hs, -, h1⟩ := readSize_of_rest hf.1 h
    obtain ⟨r2, hl, h2⟩ := pushLoop_of_rest hp v.1
      (fun x hm => hd.leaves x c.init (good_elements hg x hm)) t (h1.rest h)
    refine ⟨r2, ?_, h1.append h2⟩
    simp only [statistics, hs, min_eq_left v.2, hl, windowOf]
  · intro v hg hn
    have hf := hg _ mem_cons_self
    exact absurd hn (prefix_ne_nil hf.1 _)

end

end Ae.MStream.Decoding
