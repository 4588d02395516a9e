/- source: mstream.h, types/{nullable_type,variant_type,statistic_counter}.h
   digest: What must have happened when an input operator returns, operator by operator. -/

import Ae.MStream.Operators

set_option autoImplicit false

namespace Ae.MStream.Inversion
open VectorReader Operators

variable {α β : Type} {size : SizeType} {r r' : Reader} {w n : Nat} {c : Codec α}

section

variable {ε : Type}

theorem bind_eq_ok {x : Except ε α} {f : α → Except ε β} {b : β} (h : x.bind f = .ok b) :
    ∃ a, x = .ok a ∧ f a = .ok b := by
  cases x with
  | error e => cases h
  | ok a => exact ⟨a, rfl, h⟩

end

theorem prefixed_ok {t v : α} {b : Reader → Nat → Outcome α}
    (h : (match r.readSize size with
      | (s, none) => .ok (s, t)
      | (s, some n) => b s n : Outcome α) = .ok (r', v)) :
    r.readSize size = (r', none) ∧ v = t ∨
      ∃ r1 n, r.readSize size = (r1, some n) ∧ b r1 n = .ok (r', v) := by
  split at h
  · rename_i r1 hs
    cases h
    exact .inl ⟨hs, rfl⟩
  · rename_i r1 n hs
    exact .inr ⟨r1, n, hs, h⟩

theorem block_ok {w : Nat} {old v : α} {f : List UInt8 → α} (h : (match r.read w with
      | (s, none) => .ok (s, old)
      | (s, some bs) => .ok (s, f bs) : Outcome α) = .ok (r', v)) :
    ∃ o, r.read w = (r', o) ∧ v = (o.map f).getD old := by
  split at h
  · rename_i r1 hr
    cases h
    exact ⟨none, hr, rfl⟩
  · rename_i r1 bs hr
    cases h
    exact ⟨some bs, hr, rfl⟩

theorem string_ok {t v : List UInt8} (h : (string size).get t r = .ok (r', v)) :
    r.readSize size = (r', none) ∧ v = t ∨
      ∃ r1 n r2 o, r.readSize size = (r1, some n) ∧ r1.resize n n = .ok r2 ∧
        r2.read n = (r', o) ∧ v = o.getD (resizeTo 0 n t) := by
  refine (prefixed_ok h).imp_right ?_
  rintro ⟨r1, n, hs, h⟩
  obtain ⟨r2, hr, h⟩ := bind_eq_ok h
  obtain ⟨o, hrd, hv⟩ := block_ok (f := id) h
  rw [Option.map_id_apply] at hv
  exact ⟨r1, n, r2, o, hs, hr, hrd, hv⟩

theorem scalarVector_ok {t v : List (Bytes w)} (h : (scalarVector size w).get t r = .ok (r', v)) :
    r.readSize size = (r', none) ∧ v = t ∨
      ∃ r1 n r2 o, r.readSize size = (r1, some n) ∧ r1.resize n (n * w) = .ok r2 ∧
        r2.read (n * w) = (r', o) ∧ v = (o.map (slices w n)).getD (resizeTo (zeros w) n t) := by
  refine (prefixed_ok h).imp_right ?_
  rintro ⟨r1, n, hs, h⟩
  obtain ⟨r2, hr, h⟩ := bind_eq_ok h
  obtain ⟨o, hrd, hv⟩ := block_ok h
  exact ⟨r1, n, r2, o, hs, hr, hrd, hv⟩

theorem scalarArray_ok {w : Nat} {t v : List.Vector (Bytes w) n}
    (h : (scalarArray n w).get t r = .ok (r', v)) : ∃ o, r.read (n * w) = (r', o) ∧
      v = (o.map (fun bs => ⟨slices w n bs, slices_length w n bs⟩)).getD t :=
  block_ok h

theorem boolArray_ok {t v : List.Vector Bool n} (h : (boolArray n).get t r = .ok (r', v)) :
    ∃ o, r.read n = (r', o) ∧ v = (o.map (fun bs =>
        ⟨(slices 1 n bs).map (fun b => decide (b.1 ≠ [0])), by simp⟩)).getD t :=
  block_ok h

structure ReadsOnce {α : Type} (w : Nat) (c : Codec α) : Prop where
  get : ∀ t r, ∃ v, c.get t r = .ok ((r.read w).1, v)

theorem ReadsOnce.read {α : Type} {c : Codec α} (ho : ReadsOnce w c) {t v : α}
    (h : c.get t r = .ok (r', v)) : r.read w = (r', (r.read w).2) := by
  obtain ⟨u, hg⟩ := ho.get t r
  rw [hg] at h
  exact Prod.ext (Prod.mk.inj (Except.ok.inj h)).1 rfl

theorem readRaw_fst (t : Bytes w) (r : Reader) : (readRaw w t r).1 = (r.read w).1 := by
  rw [readRaw]
  rcases r.read w with ⟨r1, _ | bytes⟩
  · rfl
  · rfl

theorem block_get {α : Type} (w : Nat) (old : α) (f : List UInt8 → α) (r : Reader) :
    ∃ v, (match r.read w with
      | (s, none) => .ok (s, old)
      | (s, some bytes) => .ok (s, f bytes) : Outcome α) = .ok ((r.read w).1, v) := by
  rcases r.read w with ⟨r1, _ | bytes⟩
  · exact ⟨old, rfl⟩
  · exact ⟨f bytes, rfl⟩

theorem once_int : ReadsOnce w (int w) :=
  ⟨fun t r => ⟨_, congrArg Except.ok (Prod.ext (readRaw_fst t r) rfl)⟩⟩

theorem once_enum : ReadsOnce w (enum w) :=
  ⟨fun _ r => ⟨_, congrArg Except.ok (Prod.ext (readRaw_fst (zeros w) r) rfl)⟩⟩

theorem once_boolean : ReadsOnce 1 boolean :=
  ⟨fun _ r => block_get 1 false (fun t => decide (t = [1])) r⟩

theorem once_scalarArray {w : Nat} : ReadsOnce (n * w) (scalarArray n w) :=
  ⟨fun t r => block_get (n * w) t _ r⟩

theorem once_boolArray : ReadsOnce n (boolArray n) := ⟨fun t r => block_get n t _ r⟩

section

theorem getEach_cons_ok {t : α} {ts vs : List α} (h : getEach c (t :: ts) r = .ok (r', vs)) :
    ∃ r1 v, c.get t r = .ok (r1, v) ∧
      (r1.result = .no ∧ r' = r1 ∧ vs = v :: ts ∨
        r1.result ≠ .no ∧ ∃ l, getEach c ts r1 = .ok (r', l) ∧ vs = v :: l) := by
  obtain ⟨⟨r1, v⟩, hg, h⟩ := bind_eq_ok h
  refine ⟨r1, v, hg, ?_⟩
  simp only at h
  split at h
  · rename_i hr
    cases h
    exact .inl ⟨hr, rfl, rfl⟩
  · rename_i granted
    obtain ⟨⟨r2, l⟩, hrs, h⟩ := bind_eq_ok h
    cases h
    exact .inr ⟨granted, l, hrs, rfl⟩

variable {t v : List α}

theorem vector_ok (h : (vector size c).get t r = .ok (r', v)) :
    r.readSize size = (r', none) ∧ v = t ∨
      ∃ r1 n r2, r.readSize size = (r1, some n) ∧ r1.resize n n = .ok r2 ∧
        getEach c (resizeTo c.init n t) r2 = .ok (r', v) := by
  refine (prefixed_ok h).imp_right ?_
  rintro ⟨r1, n, hs, h⟩
  obtain ⟨r2, hr, he⟩ := bind_eq_ok h
  exact ⟨r1, n, r2, hs, hr, he⟩

theorem array_ok {t v : List.Vector α n} (h : (array n c).get t r = .ok (r', v)) :
    getEach c t.1 r = .ok (r', v.1) := by
  simp only [array] at h
  split at h
  · cases h
  · rename_i r1 t' he
    cases h
    exact he

theorem listLoop_ok {fuel : Nat} {i : UInt32} (h : listLoop c n (fuel + 1) i t r = .ok (r', v)) :
    ¬ i.toNat < n ∧ r' = r ∧ v = t ∨
      i.toNat < n ∧ ∃ r1 x, c.get c.init r = .ok (r1, x) ∧
        (r1.result = .no ∧ r' = r1 ∧ v = t ∨
          r1.result ≠ .no ∧ listLoop c n fuel (i + 1) (t ++ [x]) (r1.spend 1) = .ok (r', v)) := by
  rw [listLoop] at h
  split at h
  · rename_i more
    obtain ⟨⟨r1, x⟩, hg, h⟩ := bind_eq_ok h
    refine .inr ⟨more, r1, x, hg, ?_⟩
    simp only at h
    split at h
    · rename_i hr
      cases h
      exact .inl ⟨hr, rfl, rfl⟩
    · rename_i granted
      exact .inr ⟨granted, h⟩
  · rename_i done
    cases h
    exact .inl ⟨done, rfl, rfl⟩

theorem list_ok (h : (list size c).get t r = .ok (r', v)) :
    r.readSize size = (r', none) ∧ v = t ∨ ∃ r1 n, r.readSize size = (r1, some n) ∧
        listLoop c n (min n (2 ^ 32) + r1.rest.length + 2) 0 [] r1 = .ok (r', v) :=
  prefixed_ok h

theorem pair_ok {a : Codec α} {b : Codec β} {t v : α × β} (h : (pair a b).get t r = .ok (r', v)) :
    ∃ r1, a.get t.1 r = .ok (r1, v.1) ∧ b.get t.2 r1 = .ok (r', v.2) := by
  obtain ⟨⟨r1, x⟩, first, h⟩ := bind_eq_ok h
  obtain ⟨⟨r2, y⟩, second, h⟩ := bind_eq_ok h
  cases h
  exact ⟨r1, first, second⟩

theorem mapLoop_ok {o : KeyOrder α} {c : Codec (α × β)} {m v : OrderedMap o β}
    (h : mapLoop c (n + 1) m r = .ok (r', v)) : ∃ r1 kv, c.get c.init r = .ok (r1, kv) ∧
      (r1.result = .no ∧ r' = r1 ∧ v = m ∨
        r1.result ≠ .no ∧ mapLoop c n (emplace m kv) (r1.spend 1) = .ok (r', v)) := by
  obtain ⟨⟨r1, kv⟩, hg, h⟩ := bind_eq_ok h
  refine ⟨r1, kv, hg, ?_⟩
  simp only at h
  split at h
  · rename_i hr
    cases h
    exact .inl ⟨hr, rfl, rfl⟩
  · rename_i granted
    exact .inr ⟨granted, h⟩

theorem map_ok {o : KeyOrder α} {a : Codec α} {b : Codec β} {t v : OrderedMap o β}
    (h : (map size o a b).get t r = .ok (r', v)) :
    r.readSize size = (r', none) ∧ v = t ∨
      ∃ r1 n, r.readSize size = (r1, some n) ∧ mapLoop (pair a b) n emptyMap r1 = .ok (r', v) :=
  prefixed_ok h

end

section

theorem optionalValue_ok {t v : Option α} (h : (optionalValue c).get t r = .ok (r', v)) :
    ∃ r1 b, boolean.get false r = .ok (r1, b) ∧
      ((r1.result = .no ∨ b = false) ∧ r' = r1 ∧ v = t ∨
        b = true ∧ ∃ x, c.get c.init r1 = .ok (r', x) ∧
          v = if r'.result = .yes then some x else t) := by
  obtain ⟨⟨r1, b⟩, hm, h⟩ := bind_eq_ok h
  refine ⟨r1, b, hm, ?_⟩
  simp only at h
  split at h
  · rename_i hr
    cases h
    exact .inl ⟨.inl hr, rfl, rfl⟩
  · split at h
    · rename_i hp
      obtain ⟨⟨r2, x⟩, hg, h⟩ := bind_eq_ok h
      cases h
      exact .inr ⟨hp, x, hg, rfl⟩
    · rename_i ha
      cases h
      exact .inl ⟨.inr (Bool.eq_false_iff.mpr ha), rfl, rfl⟩

variable {A : Fin (n + 1) → Type} {alts : (i : Fin (n + 1)) → Codec (A i)}

theorem variant_ok {t v : Option ((i : Fin (n + 1)) × A i)}
    (h : (variant alts).get t r = .ok (r', v)) :
    ∃ r1 tag, readRaw 1 (zeros 1) r = (r1, tag) ∧
      ((r' = r1 ∨ r' = r1.refuse) ∧ v = t ∨
        ∃ i x r2, (alts i).get (alts i).init r1 = .ok (r2, x) ∧
          r' = (if r2.result = .no then r2.refuse else r2) ∧ v = some ⟨i, x⟩) := by
  refine ⟨_, _, rfl, ?_⟩
  simp only [variant] at h
  split at h
  · cases h
    exact .inl ⟨.inl rfl, rfl⟩
  · split at h
    · cases h
      exact .inl ⟨.inl rfl, rfl⟩
    · split at h
      · cases h
        exact .inl ⟨.inr rfl, rfl⟩
      · rename_i i hk
        obtain ⟨⟨r2, x⟩, hg, h⟩ := bind_eq_ok h
        cases h
        exact .inr ⟨i, x, r2, hg, rfl, rfl⟩

theorem variantType_ok {ta : Fin (n + 1) → Bytes w} {t v : Option ((i : Fin (n + 1)) × A i)}
    (h : (variantType ta alts).get t r = .ok (r', v)) :
    ∃ r1 ix x, readRaw w (zeros w) r = (r1, ix) ∧
      (alts (orderByIndex ta ix)).get (alts (orderByIndex ta ix)).init r1 = .ok (r', x) ∧
        v = some ⟨orderByIndex ta ix, x⟩ := by
  obtain ⟨⟨r2, x⟩, hg, h⟩ := bind_eq_ok h
  cases h
  exact ⟨_, _, x, rfl, hg, rfl⟩

end

theorem maskedField_ok {init : α} {os : Masked β} {m : Nat} {t v : α × β}
    (h : (maskedField c init os).get m t r = .ok (r', v)) :
    ∃ r1, c.get t.1 r = .ok (r1, v.1) ∧ os.get (m / 2) t.2 r1 = .ok (r', v.2) := by
  obtain ⟨⟨r1, x⟩, h1, h⟩ := bind_eq_ok h
  obtain ⟨⟨r2, y⟩, h2, h⟩ := bind_eq_ok h
  cases h
  exact ⟨r1, h1, h2⟩

theorem maskedOptional_ok {init : Option α} {os : Masked β} {m : Nat} {t v : Option α × β}
    (h : (maskedOptional c init os).get m t r = .ok (r', v)) :
    m % 2 = 1 ∧ v.1 = t.1 ∧ os.get (m / 2) t.2 r = .ok (r', v.2) ∨
      ∃ r1 x, c.get c.init r = .ok (r1, x) ∧ v.1 = some x ∧
        os.get (m / 2) t.2 r1 = .ok (r', v.2) := by
  simp only [maskedOptional] at h
  split at h
  · rename_i hu
    obtain ⟨⟨r2, y⟩, h2, h⟩ := bind_eq_ok h
    cases h
    exact .inl ⟨hu, rfl, h2⟩
  · obtain ⟨⟨r1, x⟩, h1, h⟩ := bind_eq_ok h
    obtain ⟨⟨r2, y⟩, h2, h⟩ := bind_eq_ok h
    cases h
    exact .inr ⟨r1, x, h1, rfl, h2⟩

theorem nullable_ok {fs : Masked β} {t v : β} (h : (nullable fs).get t r = .ok (r', v)) :
    ∃ r1 m, readRaw 1 (zeros 1) r = (r1, m) ∧ fs.get (m.1.headD 0).toNat t r1 = .ok (r', v) :=
  ⟨_, _, rfl, h⟩

section

variable {cap : Nat}

theorem pushLoop_ok {hp : 0 < cap} {n : Nat} {t v : Window cap α}
    (h : pushLoop c hp (n + 1) t r = .ok (r', v)) :
    ∃ r1 x, c.get c.init r = .ok (r1, x) ∧
      pushLoop c hp n (push hp t x) (r1.spend 1) = .ok (r', v) := by
  obtain ⟨⟨r1, x⟩, hg, h⟩ := bind_eq_ok h
  exact ⟨r1, x, hg, h⟩

theorem statistics_ok {hp : 0 < cap} {t v : Window cap α}
    (h : (statistics size c hp).get t r = .ok (r', v)) :
    r.readSize size = (r', none) ∧ v = t ∨
      ∃ r1 n, r.readSize size = (r1, some n) ∧ pushLoop c hp (min n cap) t r1 = .ok (r', v) :=
  prefixed_ok h

end

end Ae.MStream.Inversion
