/- source: {mstream,mstream_buffers}.h
   digest: On which inputs decoding takes a linear number of reads and elements. -/

import Ae.MStream.Announced
import Ae.MStream.Reads
import Ae.MStream.Decoding

set_option autoImplicit false

namespace Ae.MStream.Cost
open List VectorReader Operators TypeDesc Inversion Reads Announced Reader

/-- No `resize` that came back was for more than what was left of the input. -/
def Honest (r : Reader) : Prop := ∀ call ∈ r.resizes, call.need ≤ call.left

def left (r : Reader) : Left := ⟨r.rest, r.result⟩

theorem Honest.of_later {r s : Reader} (honest : Honest s) (later : Later r s) : Honest r :=
  fun call member => honest call (later.resizes.mem member)

/-- The walk and the operator agree: where the walk comes to an end the operator returns, and
where it is given up the operator throws or has allocated too much. -/
def Matches {α : Type} (reached : Reader → Left → Prop) : Option Left → Outcome α → Prop
  | some s, .ok (r, _) => reached r s
  | some _, .error _ => False
  | none, .ok (r, _) => ¬ Honest r
  | none, .error _ => True

variable {α β : Type} {reached : Reader → Left → Prop} {size : SizeType} {r : Reader} {e : Shape}
  {walk : Scan} {c : Codec α}

section

variable {reached' : Reader → Left → Prop} {o : Option Left} {x : Outcome α}
  {f : Reader × α → Outcome β}

theorem matches_none (later : ∀ r w, x = .ok (r, w) → ¬ Honest r) : Matches reached none x := by
  rcases result : x with stop | ⟨r, w⟩
  · trivial
  · exact later r w result

theorem Matches.bind {g : Scan} (h : Matches reached o x)
    (later : ∀ r v r' w, f (r, v) = .ok (r', w) → Later r r')
    (next : ∀ r v s, x = .ok (r, v) → o = some s → reached r s →
      Matches reached' (g s) (f (r, v))) :
    Matches reached' (o.bind g) (x.bind f) := by
  rcases o with _ | s
  · rcases x with stop | ⟨r, v⟩
    · trivial
    · apply matches_none
      intro r' w ended honest
      exact h (honest.of_later (later r v r' w ended))
  · rcases x with stop | ⟨r, v⟩
    · exact h.elim
    · exact next r v s rfl rfl h

theorem Matches.map {g : α → β} (h : Matches reached o x) :
    Matches reached o (x.bind fun (r, v) => .ok (r, g v)) := by
  rcases o with _ | s
  · rcases x with stop | ⟨r, v⟩
    · trivial
    · exact h
  · rcases x with stop | ⟨r, v⟩
    · exact h.elim
    · exact h

theorem Matches.mono (h : Matches reached o x)
    (weaker : ∀ r s, o = some s → reached r s → reached' r s) : Matches reached' o x := by
  rcases o with _ | s
  · rcases x with stop | ⟨r, v⟩
    · trivial
    · exact h
  · rcases x with stop | ⟨r, v⟩
    · exact h.elim
    · exact weaker r s rfl h

end

/-- The reader `r'` is where the walk has come to, with nothing dishonest on the way and at a
cost of `rate` for each byte taken and one more. -/
structure Reached (rate : Nat) (r r' : Reader) (s : Left) : Prop where
  here : left r' = s
  honest : Honest r → Honest r'
  cost : ∃ x, r.rest.length = r'.rest.length + x ∧ r'.cost ≤ r.cost + rate * (x + 1)

structure Follows {α : Type} (e : Shape) (walk : Scan) (c : Codec α) : Prop
    extends Shaped e walk where
  agrees : ∀ (t : α) (r : Reader), r.rest.length < 2 ^ 63 →
    Matches (Reached e.rate r) (walk (left r)) (c.get t r)

theorem rest_took {n : Nat} (there : n ≤ r.rest.length) : (r.took n there).rest = r.rest.drop n :=
  drop_drop.symm

theorem read_reached (n : Nat) : taking n (left r) = some (left (r.read n).1) ∧
    Reached 1 r (r.read n).1 (left (r.read n).1) := by
  rcases read : r.read n with ⟨r', o⟩
  rcases read_cases read with ⟨there, rfl, -⟩ | ⟨missing, rfl, -⟩
  · refine ⟨?_, rfl, id, n, ?_, ?_⟩
    · rw [taking, left, if_pos there, left, rest_took there]
      rfl
    · rw [rest_took there, length_drop, Nat.sub_add_cancel there]
    · show r.cost + 1 ≤ r.cost + 1 * (n + 1)
      omega
  · refine ⟨?_, rfl, id, 0, rfl, le_rfl⟩
    rw [taking, left, if_neg (not_le.mpr missing)]
    rfl

theorem follows_once {c : Codec α} {w : Nat} (once : ReadsOnce w c) :
    Follows (.once w) (taking w) c where
  toShaped := shaped_taking w
  agrees t r _ := by
    obtain ⟨v, get⟩ := once.get t r
    rw [get, (read_reached w).1]
    exact (read_reached w).2

theorem matches_sized {t : α} {walk : Nat → Scan} {body : Reader → Nat → Outcome α}
    (refused : ∀ r', r'.cost = r.cost + 1 → r'.rest.length ≤ r.rest.length →
      (Honest r → Honest r') → reached r' (left r'))
    (next : ∀ r' n, r'.cost = r.cost + 1 → r'.rest.length < r.rest.length →
      (Honest r → Honest r') → r'.result = .yes →
        Matches reached (walk n (left r')) (body r' n)) :
    Matches reached (sized size walk (left r)) (match r.readSize size with
      | (s, none) => .ok (s, t)
      | (s, some n) => body s n) := by
  rcases read : r.readSize size with ⟨r', o⟩
  rcases readSize_cases read with ⟨n, m, found, rfl, rfl⟩ |
    ⟨missing, rfl, data, offset, -, no, cost, resizes⟩
  · have walked : sized size walk (left r) =
        walk n (left (r.took m (size.decode_length_le found))) := by
      rw [sized, left, found, left, rest_took]
      rfl
    rw [walked]
    obtain ⟨pos, there⟩ := decode_pos found
    apply next _ n rfl
    · rw [rest_took, length_drop]
      omega
    · exact id
    · rfl
  · have rest : r'.rest = r.rest.drop (size.skipped r.rest) := by
      rw [rest, data, offset, rest, drop_drop]
    have walked : sized size walk (left r) = some (left r') := by
      rw [sized, left, missing, left, rest, no]
    rw [walked]
    refine refused r' cost ?_ ?_
    · rw [rest, length_drop]
      omega
    · intro honest call member
      rw [resizes] at member
      exact honest call member

theorem matches_fitting {walk : Scan} {count need : Nat} {f : Reader → Outcome α}
    (small : r.rest.length < 2 ^ 63) (later : ∀ r' r'' w, f r' = .ok (r'', w) → Later r' r'')
    (next : ∀ r', need ≤ r.rest.length → r'.rest = r.rest → r'.cost = r.cost + count →
      (Honest r → Honest r') → r'.result = r.result → Matches reached (walk (left r')) (f r')) :
    Matches reached (fitting need walk (left r)) ((r.resize count need).bind f) := by
  by_cases there : need ≤ r.rest.length
  · have walked : fitting need walk (left r) = walk (left r) := if_pos there
    rw [walked, resize, if_neg (not_le.mpr (there.trans_lt small))]
    refine next { r.spend count with resizes := ⟨count, need, r.rest.length⟩ :: r.resizes }
      there rfl rfl ?_ rfl
    intro honest call member
    rcases mem_cons.mp member with rfl | old
    · exact there
    · exact honest call old
  · have walked : fitting need walk (left r) = none := if_neg there
    rw [walked]
    apply matches_none
    intro r' w ended honest
    obtain ⟨r1, resized, ended⟩ := bind_eq_ok ended
    have honest1 := honest.of_later (later r1 r' w ended)
    obtain ⟨-, rfl⟩ := resize_ok resized
    exact there (honest1 _ mem_cons_self)

/-- What a loop of at most `n` rounds has done: it took `k` of them, each for the rate of an
element and one more. -/
structure Looped (e : Shape) (n : Nat) (r r' : Reader) (s : Left) : Prop where
  here : left r' = s
  honest : Honest r → Honest r'
  cost : ∃ x k, r.rest.length = r'.rest.length + x ∧ k ≤ n ∧ (e.advances = true → k ≤ x + 1) ∧
    r'.cost ≤ r.cost + (e.rate + 1) * (x + k)

namespace Looped

variable {n : Nat} {r1 r' : Reader} {s s' : Left}

theorem refl (n : Nat) (r : Reader) : Looped e n r r (left r) :=
  ⟨rfl, id, 0, 0, rfl, Nat.zero_le n, fun _ => Nat.zero_le _, Nat.le_add_right _ _⟩

theorem last (h : Reached e.rate r r' s) : Looped e (n + 1) r r' s := by
  obtain ⟨x, taken, cost⟩ := h.cost
  refine ⟨h.here, h.honest, x, 1, taken, by omega, fun _ => by omega, cost.trans ?_⟩
  exact Nat.add_le_add_left (Nat.mul_le_mul_right _ (Nat.le_succ _)) _

theorem next {extra : Nat} (one : extra ≤ 1) (h : Reached e.rate r r1 s)
    (moved : e.advances = true → r1.rest.length < r.rest.length)
    (rounds : Looped e n (r1.spend extra) r' s') : Looped e (n + 1) r r' s' := by
  obtain ⟨x, taken, cost⟩ := h.cost
  obtain ⟨y, k, taken', most, few, cost'⟩ := rounds.cost
  have taken' : r1.rest.length = r'.rest.length + y := taken'
  have cost' : r'.cost ≤ r1.cost + extra + (e.rate + 1) * (y + k) := cost'
  refine ⟨rounds.here, rounds.honest ∘ h.honest, x + y, k + 1, by omega, by omega, ?_, ?_⟩
  · intro advances
    have := moved advances
    have := few advances
    omega
  · have here : e.rate * (x + 1) + extra ≤ (e.rate + 1) * (x + 1) := by
      rw [Nat.add_mul]
      omega
    calc r'.cost ≤ r.cost + ((e.rate + 1) * (x + 1) + (e.rate + 1) * (y + k)) := by omega
      _ = r.cost + (e.rate + 1) * (x + y + (k + 1)) := by
        rw [← Nat.mul_add]
        congr 2
        omega

end Looped

theorem Reached.smaller {rate : Nat} {r r' : Reader} {s : Left} (h : Reached rate r r' s) :
    r'.rest.length ≤ r.rest.length := by
  obtain ⟨x, taken, -⟩ := h.cost
  omega

/-- One round of a loop, which ends there or goes on with `others`. -/
theorem matches_round (h : Follows e walk c) {n : Nat} (extra : Nat) (one : extra ≤ 1) {t : α}
    (small : r.rest.length < 2 ^ 63) {f : Reader × α → Outcome β}
    (later : ∀ r1 v r' w, f (r1, v) = .ok (r', w) → Later r1 r')
    (ended : ∀ r1 v, r1.result = .no → ∃ w, f (r1, v) = .ok (r1, w))
    (others : ∀ r1 v, r1.result = .yes → r1.rest.length ≤ r.rest.length →
      (e.advances = true → r1.rest.length < r.rest.length) →
      Matches (Looped e n (r1.spend extra)) (each walk n (left r1)) (f (r1, v))) :
    Matches (Looped e (n + 1) r) (each walk (n + 1) (left r)) ((c.get t r).bind f) := by
  apply (h.agrees t r small).bind later
  intro r1 v s get walked reached
  obtain rfl := reached.here
  cases result : r1.result with
  | no =>
    obtain ⟨w, stopped⟩ := ended r1 v result
    have here : (left r1).result = .no := result
    rw [stopped, if_pos here]
    exact .last reached
  | yes =>
    rw [if_neg (by rw [left, result]; nofun)]
    have moved (advances : e.advances = true) := h.moves advances walked result
    exact (others r1 v result reached.smaller moved).mono
      fun r' s' _ rounds => .next one reached moved rounds

theorem getEach_matches (steady : Steady c) (h : Follows e walk c) (ts : List α)
    (small : r.rest.length < 2 ^ 63) :
    Matches (Looped e ts.length r) (each walk ts.length (left r)) (getEach c ts r) := by
  induction ts generalizing r with
  | nil => exact .refl 0 r
  | cons t ts ih =>
    apply matches_round h 0 (Nat.zero_le 1) small
    · intro r1 v r' w others
      simp only at others
      split at others
      · cases others
        exact .refl r1
      · obtain ⟨⟨r2, l⟩, rounds, ended⟩ := bind_eq_ok others
        cases ended
        exact getEach_later steady rounds
    · intro r1 v no
      exact ⟨v :: ts, if_pos no⟩
    · intro r1 v yes less _
      have more : ¬ r1.result = .no := by
        rw [yes]
        nofun
      simp only [if_neg more]
      exact (ih (less.trans_lt small)).map

/-- What is still to be done by the 32-bit counter of a list. -/
def Rounds (n : Nat) (i : UInt32) (r : Reader) (k : Nat) : Prop :=
  n < 2 ^ 32 ∧ i.toNat + k = n ∨ 2 ^ 32 ≤ n ∧ r.rest.length < k

theorem listLoop_matches (steady : Steady c) (h : Follows e walk c) (advances : e.advances = true)
    {n fuel k : Nat} {i : UInt32} (t : List α) (small : r.rest.length < 2 ^ 63)
    (enough : r.rest.length < fuel) (rounds : Rounds n i r k) :
    Matches (Looped e k r) (each walk k (left r)) (listLoop c n fuel i t r) := by
  induction fuel generalizing i t r k with
  | zero => omega
  | succ fuel ih =>
    rw [listLoop]
    rcases k with _ | k
    · have done : ¬ i.toNat < n := by
        rcases rounds with ⟨-, done⟩ | ⟨-, few⟩
        · omega
        · omega
      rw [if_neg done]
      exact .refl 0 r
    · have more : i.toNat < n := by
        have := i.toNat_lt
        rcases rounds with ⟨-, left⟩ | ⟨large, -⟩
        · omega
        · omega
      rw [if_pos more]
      apply matches_round h 1 le_rfl small
      · intro r1 v r' w others
        simp only at others
        split at others
        · cases others
          exact .refl r1
        · exact ((Later.refl r1).spend 1).trans (listLoop_later steady others)
      · intro r1 v no
        exact ⟨t, if_pos no⟩
      · intro r1 v yes less moved
        have moved := moved advances
        simp only [yes]
        apply ih (r := r1.spend 1) (t ++ [v]) (less.trans_lt small)
        · show r1.rest.length < fuel
          omega
        · rcases rounds with ⟨few, left⟩ | ⟨large, fewer⟩
          · have next : (i + 1).toNat = i.toNat + 1 := by
              rw [UInt32.toNat_add]
              exact Nat.mod_eq_of_lt (by simp only [UInt32.toNat_one]; omega)
            exact .inl ⟨few, by omega⟩
          · refine .inr ⟨large, ?_⟩
            show r1.rest.length < k
            omega

theorem mapLoop_matches {o : KeyOrder α} {c : Codec (α × β)} (steady : Steady c)
    (h : Follows e walk c) (n : Nat) (m : OrderedMap o β) (small : r.rest.length < 2 ^ 63) :
    Matches (Looped e n r) (each walk n (left r)) (mapLoop c n m r) := by
  induction n generalizing m r with
  | zero => exact .refl 0 r
  | succ n ih =>
    apply matches_round h 1 le_rfl small
    · intro r1 v r' w others
      simp only at others
      split at others
      · cases others
        exact .refl r1
      · exact ((Later.refl r1).spend 1).trans (mapLoop_later steady others)
    · intro r1 kv no
      exact ⟨m, if_pos no⟩
    · intro r1 kv yes less _
      simp only [yes]
      exact ih (r := r1.spend 1) (emplace m kv) (less.trans_lt small)

section

variable {γ : Type} {e' : Shape} {walk' : Scan} {d : Codec β}

theorem Reached.add {rate rate' : Nat} {r r1 r' : Reader} {s s' : Left}
    (first : Reached rate r r1 s) (second : Reached rate' r1 r' s') :
    Reached (rate + rate') r r' s' := by
  obtain ⟨x, taken, cost⟩ := first.cost
  obtain ⟨y, taken', cost'⟩ := second.cost
  refine ⟨second.here, second.honest ∘ first.honest, x + y, by omega, ?_⟩
  have one : rate * (x + 1) ≤ rate * (x + y + 1) := Nat.mul_le_mul_left rate (by omega)
  have two : rate' * (y + 1) ≤ rate' * (x + y + 1) := Nat.mul_le_mul_left rate' (by omega)
  rw [Nat.add_mul]
  omega

theorem Reached.of_refused {rate : Nat} {r r' : Reader} (pos : 1 ≤ rate)
    (cost : r'.cost = r.cost + 1) (less : r'.rest.length ≤ r.rest.length)
    (honest : Honest r → Honest r') : Reached rate r r' (left r') := by
  obtain ⟨x, taken⟩ := Nat.exists_eq_add_of_le less
  refine ⟨rfl, honest, x, taken, ?_⟩
  have := Nat.mul_le_mul pos (Nat.le_add_left 1 x)
  omega

theorem follows_block {need : Nat → Nat} (most : ∀ n, n ≤ need n)
    {body : α → Nat → Reader → Outcome α}
    (reads : ∀ t n r, ∃ v, body t n r = .ok ((r.read (need n)).1, v))
    (get : ∀ t r, c.get t r = match r.readSize size with
      | (s, none) => .ok (s, t)
      | (s, some n) => (s.resize n (need n)).bind (body t n)) :
    Follows .block (sized size fun n => fitting (need n) (taking (need n))) c where
  toShaped := shaped_block need
  agrees t r small := by
    rw [get]
    apply matches_sized
    · exact fun r' => .of_refused (by decide)
    · intro r1 n cost1 less honest1 _
      apply matches_fitting (less.trans small)
      · intro r2 r3 w ended
        obtain ⟨v, one⟩ := reads t n r2
        rw [one] at ended
        obtain ⟨rfl, -⟩ := Prod.mk.inj (Except.ok.inj ended)
        exact read_later rfl
      · intro r2 there rest2 cost2 honest2 _
        obtain ⟨v, one⟩ := reads t n r2
        obtain ⟨walked, reached⟩ := read_reached (r := r2) (need n)
        rw [one, walked]
        obtain ⟨y, taken, cost⟩ := reached.cost
        refine ⟨rfl, reached.honest ∘ honest2 ∘ honest1, r.rest.length - r1.rest.length + y, ?_, ?_⟩
        · rw [rest2] at taken
          omega
        · -- as many bytes were taken as elements were made
          have all : n ≤ y := by
            have := most n
            rcases taking_cases walked with ⟨-, here⟩ | ⟨missing, -⟩
            · have : (r2.read (need n)).1.rest = r2.rest.drop (need n) := congrArg Left.rest here
              rw [this, length_drop, rest2] at taken
              omega
            · have missing : r2.rest.length < need n := missing
              rw [rest2] at missing
              omega
          show (r2.read (need n)).1.cost ≤ r.cost + 2 * (r.rest.length - r1.rest.length + y + 1)
          omega

theorem follows_string : Follows .block (scan size .string) (string size) :=
  follows_block le_refl (fun t n r => block_get n (resizeTo 0 n t) id r) (fun _ _ => rfl)

theorem follows_scalarVector {w : Nat} (pos : 0 < w) :
    Follows .block (scan size (.scalarVector w pos)) (scalarVector size w) :=
  follows_block (fun n => Nat.le_mul_of_pos_right n pos)
    (fun t n r => block_get (n * w) (resizeTo (zeros w) n t) (slices w n) r) (fun _ _ => rfl)

theorem follows_vector (steady : Steady c) (h : Follows e walk c) (advances : e.advances = true) :
    Follows (.vector e) (sized size fun n => fitting n (each walk n)) (vector size c) where
  toShaped := shaped_vector h.toShaped
  agrees t r small := by
    apply matches_sized
    · exact fun r' => .of_refused (Nat.le_add_right 1 _)
    · intro r1 n cost1 less honest1 yes
      have small1 := less.trans small
      apply matches_fitting small1
      · intro r2 r3 w ended
        exact getEach_later steady ended
      · intro r2 there rest2 cost2 honest2 result2
        have rounds := getEach_matches (r := r2) steady h (resizeTo c.init n t) (by rwa [rest2])
        rw [Decoding.resizeTo_length] at rounds
        apply rounds.mono
        intro r3 s walked looped
        obtain ⟨x, k, taken, -, few, cost⟩ := looped.cost
        have few := few advances
        obtain rfl := looped.here
        -- the announced elements were either read or fit into what is left
        have fit : n ≤ x + e.tail := by
          rw [rest2] at taken
          cases result : r3.result with
          | yes =>
            have : r3.rest.length + n ≤ r2.rest.length :=
              (each_smaller h.toShaped walked).2 advances result
            rw [rest2] at this
            omega
          | no =>
            have : r3.rest.length < e.tail :=
              each_short_of_yes h.toShaped walked (result2.trans yes) result
            omega
        refine ⟨rfl, looped.honest ∘ honest2 ∘ honest1, r.rest.length - r1.rest.length + x, ?_, ?_⟩
        · rw [rest2] at taken
          omega
        · generalize bytes : r.rest.length - r1.rest.length + x = y
          have loop : (e.rate + 1) * (x + k) ≤ (e.rate + 1) * (2 * y + 2 + e.tail) :=
            Nat.mul_le_mul_left _ (by omega)
          have all : (e.rate + 2) * (2 * y + 2 + e.tail) ≤
              (e.rate + 2) * ((2 + e.tail) * (y + 1)) := by
            apply Nat.mul_le_mul_left
            have := Nat.le_mul_of_pos_right e.tail (show 0 < y + 1 by omega)
            rw [Nat.add_mul]
            omega
          show r3.cost ≤ r.cost + (1 + (e.rate + 2) * (2 + e.tail)) * (y + 1)
          rw [Nat.add_mul 1, Nat.mul_assoc]
          rw [Nat.succ_mul (e.rate + 1)] at all
          omega

theorem Looped.reached_sized {n : Nat} {r r1 r' : Reader} {s : Left} (advances : e.advances = true)
    (cost1 : r1.cost = r.cost + 1) (less : r1.rest.length < r.rest.length)
    (honest1 : Honest r → Honest r1) (h : Looped e n r1 r' s) :
    Reached (Shape.list e).rate r r' s := by
  obtain ⟨x, k, taken, -, few, cost⟩ := h.cost
  have few := few advances
  refine ⟨h.here, h.honest ∘ honest1, r.rest.length - r1.rest.length + x, by omega, ?_⟩
  generalize bytes : r.rest.length - r1.rest.length + x = y
  have loop : (e.rate + 1) * (x + k) ≤ (e.rate + 1) * (2 * (y + 1)) :=
    Nat.mul_le_mul_left _ (by omega)
  show r'.cost ≤ r.cost + (1 + (e.rate + 1) * 2) * (y + 1)
  rw [Nat.add_mul 1, Nat.mul_assoc]
  omega

theorem follows_list (steady : Steady c) (h : Follows e walk c) (advances : e.advances = true) :
    Follows (.list e) (sized size fun n s => each walk (listRounds n s) s) (list size c) where
  toShaped := shaped_list h.toShaped listRounds
  agrees t r small := by
    apply matches_sized
    · exact fun r' => .of_refused (Nat.le_add_right 1 _)
    · intro r1 n cost1 less honest1 _
      have rounds : Rounds n 0 r1 (listRounds n (left r1)) := by
        rw [listRounds]
        split
        · rename_i few
          exact .inl ⟨few, by simp⟩
        · rename_i many
          exact .inr ⟨not_lt.mp many, Nat.lt_succ_self _⟩
      refine (listLoop_matches steady h advances [] (less.trans small) ?_ rounds).mono ?_
      · omega
      · exact fun r' s _ looped => looped.reached_sized advances cost1 less honest1

theorem follows_map {o : KeyOrder α} (steady : Steady (pair c d)) (h : Follows e walk (pair c d))
    (advances : e.advances = true) :
    Follows (.list e) (sized size fun n => each walk n) (map size o c d) where
  toShaped := shaped_list h.toShaped (fun n _ => n)
  agrees t r small := by
    apply matches_sized
    · exact fun r' => .of_refused (Nat.le_add_right 1 _)
    · intro r1 n cost1 less honest1 _
      have loop := mapLoop_matches (o := o) steady h n emptyMap (less.trans small)
      exact loop.mono fun r' s _ looped => looped.reached_sized advances cost1 less honest1

theorem follows_array (steady : Steady c) (h : Follows e walk c) (n : Nat) :
    Follows (.array n e) (each walk n) (array n c) where
  toShaped := shaped_array n h.toShaped
  agrees t r small := by
    have rounds := getEach_matches steady h t.1 small
    rw [t.2] at rounds
    have reached : Matches (Reached (Shape.array n e).rate r) (each walk n (left r))
        (getEach c t.1 r) := by
      apply rounds.mono
      intro r' s _ looped
      obtain ⟨x, k, taken, most, -, cost⟩ := looped.cost
      refine ⟨looped.here, looped.honest, x, taken, cost.trans (Nat.add_le_add_left ?_ _)⟩
      show (e.rate + 1) * (x + k) ≤ (e.rate + 1) * (n + 1) * (x + 1)
      rw [Nat.mul_assoc]
      apply Nat.mul_le_mul_left
      rw [Nat.add_mul, Nat.mul_add]
      omega
    simp only [array]
    split
    · rename_i stop ended
      rw [ended] at reached
      cases walked : each walk n (left r) with
      | none => trivial
      | some s =>
        rw [walked] at reached
        exact reached.elim
    · rename_i r' t' ended
      rw [ended] at reached
      cases walked : each walk n (left r) with
      | none =>
        rw [walked] at reached
        exact reached
      | some s =>
        rw [walked] at reached
        exact reached

theorem follows_pair (steady : Steady d) (h1 : Follows e walk c) (h2 : Follows e' walk' d) :
    Follows (.pair e e') (andThen walk walk') (pair c d) where
  toShaped := shaped_pair h1.toShaped h2.toShaped
  agrees t r small := by
    apply (h1.agrees t.1 r small).bind
    · intro r1 v r' w second
      obtain ⟨⟨r2, u⟩, get, ended⟩ := bind_eq_ok second
      cases ended
      exact steady.later get
    · intro r1 v s _ _ first
      obtain rfl := first.here
      have second := h2.agrees t.2 r1 (first.smaller.trans_lt small)
      exact (second.map (g := (v, ·))).mono fun r' s' _ last => first.add last

theorem follows_nothing : Follows .nothing some noFields :=
  ⟨shaped_nothing, fun _ _ _ => ⟨rfl, id, 0, rfl, Nat.le_add_right _ _⟩⟩

end

mutual

theorem desc_follows (size : SizeType) {k : Kind} {α : Type} :
    (d : Desc k α) → (shape d).linear = true → Follows (shape d) (scan size d) (d.codec size)
  | .int _ _, _ => follows_once once_int
  | .enum _ _, _ => follows_once once_enum
  | .bool, _ => follows_once once_boolean
  | .string, _ => follows_string
  | .scalarVector _ pos, _ => follows_scalarVector pos
  | .scalarArray _ _ _, _ => follows_once once_scalarArray
  | .boolArray _, _ => follows_once once_boolArray
  | .vector e, h | .deque e, h =>
    have both := Bool.and_eq_true_iff.mp h
    follows_vector (desc_steady size e) (desc_follows size e both.2) both.1
  | .array n e, h => follows_array (desc_steady size e) (desc_follows size e h) n
  | .list e, h =>
    have both := Bool.and_eq_true_iff.mp h
    follows_list (desc_steady size e) (desc_follows size e both.2) both.1
  | .pair a b, h =>
    have both := Bool.and_eq_true_iff.mp h
    follows_pair (desc_steady size b) (desc_follows size a both.1) (desc_follows size b both.2)
  | .map _ a b, h =>
    have both := Bool.and_eq_true_iff.mp h
    have parts := Bool.and_eq_true_iff.mp both.2
    follows_map (steady_pair (desc_steady size a) (desc_steady size b))
      (follows_pair (desc_steady size b) (desc_follows size a parts.1)
        (desc_follows size b parts.2)) both.1
  | .record fields, h => fields_follow size fields h

theorem fields_follow (size : SizeType) {n : Nat} {β : Type} :
    (fs : Fields n β) → (shapeOfAll fs).linear = true →
      Follows (shapeOfAll fs) (scanAll size fs) (fs.codec size)
  | .nil, _ => follows_nothing
  | .plain e _ others, h =>
    have both := Bool.and_eq_true_iff.mp h
    have pair := follows_pair (fields_steady size others) (desc_follows size e both.1)
      (fields_follow size others both.2)
    ⟨pair.toShaped, pair.agrees⟩

end

/-- Decoding comes back, took a number of reads and elements linear in the input, and did not
allocate for a length prefix that was larger than the remaining input. -/
def Bounded {k : Kind} {α : Type} (d : Desc k α) (bytes : List UInt8) : Outcome α → Prop
  | .ok (r, _) => r.cost ≤ (shape d).rate * (bytes.length + 1) ∧
      ∀ call ∈ r.resizes, ¬ call.left < call.need
  | .error _ => False

end Ae.MStream.Cost
