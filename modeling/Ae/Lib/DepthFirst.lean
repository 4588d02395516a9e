/- digest: Depth-first search with a visited set marks exactly what its start leads to. -/

import Mathlib.Data.Finset.Card

set_option autoImplicit false

namespace Ae.Lib.DepthFirst
open List
universe u

variable {α : Type u}

/-- `b` stands at the end of a path of successors from `a`. -/
def Leads (next : α → List α) : α → α → Prop :=
  Relation.ReflTransGen fun a b => b ∈ next a

variable {next : α → List α} {b : α} {fuel : Nat} {starts seen : List α}

theorem Leads.refl (a : α) : Leads next a a := Relation.ReflTransGen.refl

variable {a c : α}

theorem Leads.tail (hp : Leads next a b) (he : c ∈ next b) : Leads next a c :=
  Relation.ReflTransGen.tail hp he

theorem Leads.head (edge : b ∈ next a) (path : Leads next b c) : Leads next a c :=
  Relation.ReflTransGen.head edge path

theorem Leads.trans (first : Leads next a b) (second : Leads next b c) : Leads next a c :=
  Relation.ReflTransGen.trans first second

theorem Leads.stays {P : α → Prop} (hp : Leads next a b) (hc : ∀ n, P n → ∀ m ∈ next n, P m)
    (hs : P a) : P b := by
  induction hp with
  | refl => exact hs
  | tail _ he ih => exact hc _ ih _ he

/-- What a finished search has done: `seen` was marked before it, `found` after it. -/
structure Searched (next : α → List α) (starts seen found : List α) : Prop where
  grows : seen <+: found
  nodup : seen.Nodup → found.Nodup
  marks : ∀ b ∈ starts, b ∈ found
  closed : ∀ n ∈ found, n ∉ seen → ∀ b ∈ next n, b ∈ found
  reached : ∀ n ∈ found, n ∉ seen → ∃ b ∈ starts, Leads next b n

namespace Searched

variable {middle found : List α}

theorem nil : Searched next [] seen seen where
  grows := prefix_refl seen
  nodup := id
  marks := by simp
  closed := fun _ hm hf => absurd hm hf
  reached := fun _ hm hf => absurd hm hf

theorem skip (hk : b ∈ seen) (hr : Searched next starts seen found) :
    Searched next (b :: starts) seen found where
  grows := hr.grows
  nodup := hr.nodup
  marks := by
    intro c hm
    rcases mem_cons.mp hm with rfl | later
    · exact hr.grows.subset hk
    · exact hr.marks c later
  closed := hr.closed
  reached := by
    intro n hmr hf
    obtain ⟨c, hm, hp⟩ := hr.reached n hmr hf
    exact ⟨c, mem_cons_of_mem b hm, hp⟩

theorem descend (hu : b ∉ seen) (hb : Searched next (next b) (seen ++ [b]) middle)
    (hr : Searched next starts middle found) : Searched next (b :: starts) seen found := by
  have hmb : b ∈ middle := hb.grows.subset (by simp)
  refine ⟨((prefix_append seen [b]).trans hb.grows).trans hr.grows, ?_, ?_, ?_, ?_⟩
  · intro hd
    refine hr.nodup (hb.nodup ?_)
    rw [nodup_append]
    refine ⟨hd, nodup_singleton b, ?_⟩
    rintro c mem d hl rfl
    exact hu (mem_singleton.mp hl ▸ mem)
  · intro c mem
    rcases mem_cons.mp mem with rfl | later
    · exact hr.grows.subset hmb
    · exact hr.marks c later
  · intro n hm hf c hed
    by_cases he : n ∈ middle
    · by_cases same : n = b
      · subst same
        exact hr.grows.subset (hb.marks c hed)
      · have hfh : n ∉ seen ++ [b] := by simp [hf, same]
        exact hr.grows.subset (hb.closed n he hfh c hed)
    · exact hr.closed n hm he c hed
  · intro n hm hf
    by_cases he : n ∈ middle
    · refine ⟨b, mem_cons_self, ?_⟩
      by_cases same : n = b
      · exact same ▸ Leads.refl n
      · have hfh : n ∉ seen ++ [b] := by simp [hf, same]
        obtain ⟨c, hed, hp⟩ := hb.reached n he hfh
        exact Leads.head hed hp
    · obtain ⟨c, mem, hp⟩ := hr.reached n hm he
      exact ⟨c, mem_cons_of_mem b mem, hp⟩

theorem append {m : List α} (h1 : Searched next starts seen middle)
    (h2 : Searched next m middle found) : Searched next (starts ++ m) seen found where
  grows := h1.grows.trans h2.grows
  nodup := fun hd => h2.nodup (h1.nodup hd)
  marks := by
    intro c mem
    rcases mem_append.mp mem with he | late
    · exact h2.grows.subset (h1.marks c he)
    · exact h2.marks c late
  closed := by
    intro n hm hf c hed
    by_cases he : n ∈ middle
    · exact h2.grows.subset (h1.closed n he hf c hed)
    · exact h2.closed n hm he c hed
  reached := by
    intro n hm hf
    by_cases he : n ∈ middle
    · obtain ⟨c, mem, hp⟩ := h1.reached n he hf
      exact ⟨c, mem_append_left _ mem, hp⟩
    · obtain ⟨c, mem, hp⟩ := h2.reached n hm he
      exact ⟨c, mem_append_right _ mem, hp⟩

theorem mem_iff {a n : α} (hd : Searched next (next a) [a] found) : n ∈ found ↔ Leads next a n := by
  constructor
  · intro hm
    by_cases he : n = a
    · exact he ▸ Leads.refl n
    · obtain ⟨b, hed, hp⟩ := hd.reached n hm (by simp [he])
      exact Leads.head hed hp
  · intro hp
    refine hp.stays (fun m hm b hed => ?_) (hd.grows.subset (by simp))
    by_cases he : m = a
    · exact hd.marks b (he ▸ hed)
    · exact hd.closed m hm (by simp [he]) b hed

theorem mem_iff_of_start {a n : α} (hd : Searched next [a] [] found) :
    n ∈ found ↔ Leads next a n := by
  constructor
  · intro hm
    obtain ⟨b, hs, hp⟩ := hd.reached n hm (by simp)
    exact mem_singleton.mp hs ▸ hp
  · intro hp
    exact hp.stays (fun m hm b he => hd.closed m hm (by simp) b he)
      (hd.marks a (by simp))

end Searched

variable [DecidableEq α]

/-- The nodes marked once a depth-first search below `starts` is over, in the order in which
they were found; `fuel` bounds the depth of the recursion. -/
def search (next : α → List α) : Nat → List α → List α → List α
  | 0, _, seen => seen
  | fuel + 1, starts, seen =>
    starts.foldl
      (fun seen b => if b ∈ seen then seen else search next fuel (next b) (seen ++ [b])) seen

theorem search_cons_seen (hk : b ∈ seen) :
    search next (fuel + 1) (b :: starts) seen = search next (fuel + 1) starts seen := by
  simp only [search, foldl_cons, hk, if_true]

theorem search_cons_new (hu : b ∉ seen) :
    search next (fuel + 1) (b :: starts) seen =
      search next (fuel + 1) starts (search next fuel (next b) (seen ++ [b])) := by
  simp only [search, foldl_cons, hu, if_false]

theorem search_grows : seen <+: search next fuel starts seen := by
  induction fuel generalizing starts seen with
  | zero => exact prefix_refl seen
  | succ fuel ih =>
    induction starts generalizing seen with
    | nil => exact prefix_refl seen
    | cons b starts his =>
      by_cases known : b ∈ seen
      · rw [search_cons_seen known]
        exact his
      · rw [search_cons_new known]
        exact ((prefix_append seen [b]).trans ih).trans his

/-- Induction along a search. The nodes of `domain` not marked yet bound the depth the
recursion still needs, so a search with that much fuel never runs out of it. -/
theorem search_induct {domain : Finset α} (hi : ∀ n ∈ domain, ∀ b ∈ next n, b ∈ domain)
    {P : Nat → List α → List α → List α → Prop} (nil : ∀ fuel seen, P fuel [] seen seen)
    (hs : ∀ fuel b starts seen found, b ∈ domain → b ∈ seen → seen <+: found →
      P fuel starts seen found → P fuel (b :: starts) seen found)
    (hd : ∀ fuel b starts seen middle found, b ∈ domain → b ∉ seen → seen ++ [b] <+: middle →
      middle <+: found → P fuel (next b) (seen ++ [b]) middle → P (fuel + 1) starts middle found →
      P (fuel + 1) (b :: starts) seen found)
    (hb : ∀ b ∈ starts, b ∈ domain) (he : (domain.filter fun n => n ∉ seen).card ≤ fuel) :
    P fuel starts seen (search next (fuel + 1) starts seen) := by
  induction fuel generalizing starts seen with
  | zero =>
    induction starts with
    | nil => exact nil 0 seen
    | cons b starts his =>
      have hh : b ∈ domain := hb b mem_cons_self
      have hk : b ∈ seen := by
        have hnl := Finset.card_eq_zero.mp (Nat.le_zero.mp he)
        by_contra unknown
        have hlf : b ∈ domain.filter fun n => n ∉ seen :=
          Finset.mem_filter.mpr ⟨hh, unknown⟩
        rw [hnl] at hlf
        exact Finset.notMem_empty b hlf
      rw [search_cons_seen hk]
      exact hs 0 b starts seen _ hh hk search_grows
        (his fun c hm => hb c (mem_cons_of_mem b hm))
  | succ fuel ih =>
    induction starts generalizing seen with
    | nil => exact nil (fuel + 1) seen
    | cons b starts his =>
      have hh : b ∈ domain := hb b mem_cons_self
      have hl : ∀ c ∈ starts, c ∈ domain :=
        fun c hm => hb c (mem_cons_of_mem b hm)
      by_cases hk : b ∈ seen
      · rw [search_cons_seen hk]
        exact hs (fuel + 1) b starts seen _ hh hk search_grows (his hl he)
      · rw [search_cons_new hk]
        -- marking `b` takes one node off those left
        have hf : (domain.filter fun n => n ∉ seen ++ [b]).card <
            (domain.filter fun n => n ∉ seen).card := by
          refine Finset.card_lt_card (Finset.ssubset_iff_of_subset ?_ |>.mpr ⟨b, ?_, ?_⟩)
          · intro n hm
            simp only [Finset.mem_filter, mem_append, not_or] at hm ⊢
            exact ⟨hm.1, hm.2.1⟩
          · exact Finset.mem_filter.mpr ⟨hh, hk⟩
          · simp
        have hdp := ih (hi b hh) (Nat.le_of_lt_succ (hf.trans_le he))
        refine hd fuel b starts seen _ _ hh hk search_grows search_grows hdp
          (his hl ?_)
        refine le_trans (Finset.card_le_card fun n hm => ?_) he
        simp only [Finset.mem_filter] at hm ⊢
        refine ⟨hm.1, fun hmr => hm.2 ?_⟩
        exact search_grows.subset (mem_append_left _ hmr)

theorem search_searched {d : Finset α} (hi : ∀ n ∈ d, ∀ b ∈ next n, b ∈ d)
    (hb : ∀ b ∈ starts, b ∈ d) (he : (d.filter fun n => n ∉ seen).card ≤ fuel) :
    Searched next starts seen (search next (fuel + 1) starts seen) :=
  search_induct (P := fun _ => Searched next) hi (fun _ _ => Searched.nil)
    (fun _ _ _ _ _ _ hk _ hr => Searched.skip hk hr)
    (fun _ _ _ _ _ _ _ hu _ _ hd hr => Searched.descend hu hd hr)
    hb he

end Ae.Lib.DepthFirst
