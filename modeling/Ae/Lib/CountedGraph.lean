/- digest: Reference counts of a graph with roots, removal of a node, and trial deletion. -/

import Mathlib.Algebra.Order.BigOperators.Group.Finset
import Ae.Lib.DepthFirst

set_option autoImplicit false

namespace Ae.Lib.CountedGraph
open List Lib.DepthFirst

universe u

/-- The nodes in use and, for each node, the nodes it refers to, once for each reference. -/
structure RefGraph (α : Type u) where
  live : Finset α
  succ : α → List α

variable {α : Type u} [DecidableEq α]

namespace RefGraph

variable (G : RefGraph α)

def next (a : α) : List α := (G.succ a).filter (· ∈ G.live)

/-- `a` is in use and some root leads to it through nodes in use. -/
def Reached (roots : List α) (a : α) : Prop :=
  ∃ r ∈ roots, r ∈ G.live ∧ Leads G.next r a

/-- `a` is one of some nodes in use that the roots or others of them refer to. -/
def Supported (roots : List α) (a : α) : Prop :=
  ∃ S : Set α, a ∈ S ∧ ∀ s ∈ S, s ∈ G.live ∧ (s ∈ roots ∨ ∃ b ∈ S, s ∈ G.succ b)

/-- The number of references to `a` from the roots and from the nodes in use. -/
def references (roots : List α) (a : α) : Nat :=
  roots.count a + ∑ b ∈ G.live, (G.succ b).count a

def inside (R : Finset α) (a : α) : Nat := ∑ b ∈ R, (G.succ b).count a

def beyond (R : Finset α) (roots : List α) (a : α) : Nat :=
  roots.count a + ∑ b ∈ G.live \ R, (G.succ b).count a

def remove (x : α) : RefGraph α := ⟨G.live.erase x, Function.update G.succ x []⟩

variable {G H : RefGraph α} {roots more : List α} {a b x : α} {R : Finset α}

theorem mem_next : b ∈ G.next a ↔ b ∈ G.succ a ∧ b ∈ G.live := by
  simp [next]

theorem leads_live (hp : Leads G.next a b) (hs : a ∈ G.live) : b ∈ G.live :=
  hp.stays (P := (· ∈ G.live)) (fun _ _ _ he => (mem_next.mp he).2) hs

theorem Reached.live (reached : G.Reached roots a) : a ∈ G.live := by
  obtain ⟨r, -, hs, hp⟩ := reached
  exact leads_live hp hs

theorem Reached.of_mem (hm : a ∈ roots) (hh : a ∈ G.live) : G.Reached roots a :=
  ⟨a, hm, hh, Leads.refl a⟩

theorem Reached.tail (hr : G.Reached roots b) (he : a ∈ G.next b) : G.Reached roots a := by
  obtain ⟨r, hm, hs, hp⟩ := hr
  exact ⟨r, hm, hs, hp.tail he⟩

theorem Reached.leads (hr : G.Reached roots b) (hp : Leads G.next b a) : G.Reached roots a := by
  obtain ⟨r, hm, hs, h1⟩ := hr
  exact ⟨r, hm, hs, h1.trans hp⟩

theorem Reached.mono (hr : G.Reached roots a) (hw : ∀ r ∈ roots, r ∈ G.live → r ∈ more) :
    G.Reached more a := by
  obtain ⟨r, hm, hs, hp⟩ := hr
  exact ⟨r, hw r hm hs, hs, hp⟩

theorem reached_cons :
    G.Reached (x :: roots) a ↔ (x ∈ G.live ∧ Leads G.next x a) ∨ G.Reached roots a := by
  simp only [Reached, mem_cons, exists_eq_or_imp]

theorem Reached.rec_on {P : α → Prop} (hr : G.Reached roots a) (hrt : ∀ r ∈ roots, r ∈ G.live → P r)
    (he : ∀ b c, G.Reached roots b → P b → c ∈ G.next b → P c) : P a := by
  obtain ⟨r, hm, hs, hp⟩ := hr
  induction hp with
  | refl => exact hrt r hm hs
  | @tail b c hp step ih => exact he b c ⟨r, hm, hs, hp⟩ ih step

theorem Reached.transport (hr : G.Reached roots a) (hs : ∀ b, G.Reached roots b → b ∈ H.live)
    (hsm : ∀ b, G.Reached roots b → H.succ b = G.succ b) : H.Reached roots a := by
  refine Reached.rec_on hr (fun r hm hst => ?_) (fun b c hrb ih he => ?_)
  · exact Reached.of_mem hm (hs r (Reached.of_mem hm hst))
  · refine ih.tail (mem_next.mpr ⟨?_, hs c (hrb.tail he)⟩)
    rw [hsm b hrb]
    exact (mem_next.mp he).1

theorem Reached.shrink (hr : H.Reached roots a) (hf : H.live ⊆ G.live)
    (hsm : ∀ b ∈ H.live, H.succ b = G.succ b) : G.Reached roots a := by
  refine Reached.rec_on hr (fun r hm hs => ?_) (fun b c hrb ih he => ?_)
  · exact Reached.of_mem hm (hf hs)
  · rw [mem_next, hsm b hrb.live] at he
    exact ih.tail (mem_next.mpr ⟨he.1, hf he.2⟩)

theorem Reached.grow (hr : G.Reached roots a) (hw : G.live ⊆ H.live)
    (more : ∀ b ∈ G.live, ∀ c ∈ G.succ b, c ∈ H.succ b) : H.Reached roots a := by
  refine Reached.rec_on hr (fun r hm hs => ?_) (fun b c hrb ih he => ?_)
  · exact Reached.of_mem hm (hw hs)
  · obtain ⟨he, ht⟩ := mem_next.mp he
    exact ih.tail (mem_next.mpr ⟨more b hrb.live c he, hw ht⟩)

theorem sum_attach {S : Finset α} {y : α} (hh : b ∈ S) (more : (H.succ b).Perm (y :: G.succ b))
    (ho : ∀ c ∈ S, c ≠ b → H.succ c = G.succ c) :
    ∑ c ∈ S, (H.succ c).count a = ∑ c ∈ S, (G.succ c).count a + if a = y then 1 else 0 := by
  have hb := Finset.add_sum_erase S (fun c => (G.succ c).count a) hh
  have ha := Finset.add_sum_erase S (fun c => (H.succ c).count a) hh
  have hr : ∑ c ∈ S.erase b, (H.succ c).count a = ∑ c ∈ S.erase b, (G.succ c).count a :=
    Finset.sum_congr rfl fun c hm => by
      rw [ho c (Finset.mem_of_mem_erase hm) (Finset.ne_of_mem_erase hm)]
  have own : (H.succ b).count a = (G.succ b).count a + if a = y then 1 else 0 := by
    rw [more.count_eq, count_cons]
    by_cases equal : a = y
    · simp [equal]
    · simp [equal, Ne.symm equal]
  omega

theorem references_attach {y : α} (he : H.live = G.live) (hh : b ∈ G.live)
    (more : (H.succ b).Perm (y :: G.succ b)) (ho : ∀ c ∈ G.live, c ≠ b → H.succ c = G.succ c) :
    H.references roots a = G.references roots a + if a = y then 1 else 0 := by
  rw [references, references, he, sum_attach hh more ho, add_assoc]

theorem beyond_attach {y : α} (hs : H.live = G.live) (hh : b ∈ G.live)
    (more : (H.succ b).Perm (y :: G.succ b)) (hot : ∀ c ∈ G.live, c ≠ b → H.succ c = G.succ c) :
    H.beyond R roots a = G.beyond R roots a + if b ∉ R ∧ a = y then 1 else 0 := by
  have hoh : ∀ c ∈ G.live \ R, c ≠ b → H.succ c = G.succ c := fun c hm =>
    hot c (Finset.mem_sdiff.mp hm).1
  rw [beyond, beyond, hs]
  by_cases ho : b ∉ R
  · rw [sum_attach (Finset.mem_sdiff.mpr ⟨hh, ho⟩) more hoh, add_assoc]
    simp only [ho, not_false_eq_true, true_and]
  · have ha : ∀ c ∈ G.live \ R, c ≠ b := fun c hm he =>
      (Finset.mem_sdiff.mp hm).2 (he ▸ not_not.mp ho)
    rw [Finset.sum_congr rfl fun c hm => by rw [hoh c hm (ha c hm)]]
    simp [ho]

theorem mem_remove : a ∈ (G.remove x).live ↔ a ≠ x ∧ a ∈ G.live := by
  simp [remove]

theorem succ_remove (hn : a ≠ x) : (G.remove x).succ a = G.succ a :=
  Function.update_of_ne hn _ _

theorem references_remove (hh : x ∈ G.live) :
    (G.remove x).references (G.succ x ++ roots) a = G.references roots a := by
  have hs := Finset.add_sum_erase G.live (fun b => (G.succ b).count a) hh
  have ho : ∑ b ∈ G.live.erase x, ((G.remove x).succ b).count a =
      ∑ b ∈ G.live.erase x, (G.succ b).count a :=
    Finset.sum_congr rfl fun b hm => by rw [succ_remove (Finset.ne_of_mem_erase hm)]
  have he : (G.remove x).references (G.succ x ++ roots) a = (G.succ x ++ roots).count a +
      ∑ b ∈ G.live.erase x, ((G.remove x).succ b).count a := rfl
  rw [he, ho, count_append, references]
  omega

theorem Reached.remove (hr : G.Reached roots a) (hn : a ≠ x) :
    (G.remove x).Reached (G.succ x ++ roots) a := by
  have hp : a = x ∨ (G.remove x).Reached (G.succ x ++ roots) a := by
    refine Reached.rec_on (P := fun a => a = x ∨ (G.remove x).Reached (G.succ x ++ roots) a)
      hr (fun r hm hs => ?_) (fun b c hrb ih he => ?_)
    · by_cases same : r = x
      · exact .inl same
      · refine .inr (Reached.of_mem (mem_append_right _ hm) ?_)
        exact mem_remove.mpr ⟨same, hs⟩
    · by_cases same : c = x
      · exact .inl same
      have hk : c ∈ (G.remove x).live := mem_remove.mpr ⟨same, (mem_next.mp he).2⟩
      rcases ih with rfl | ih
      · exact .inr (Reached.of_mem (mem_append_left _ (mem_next.mp he).1) hk)
      · have ha : b ≠ x := (mem_remove.mp ih.live).1
        refine .inr (ih.tail (mem_next.mpr ⟨?_, hk⟩))
        rw [succ_remove ha]
        exact (mem_next.mp he).1
  exact hp.resolve_left hn

theorem references_split (hp : R ⊆ G.live) :
    G.references roots a = G.inside R a + G.beyond R roots a := by
  have hs := Finset.sum_sdiff (f := fun b => (G.succ b).count a) hp
  simp only [references, inside, beyond]
  omega

theorem Reached.enters (hr : G.Reached roots a) (hh : a ∈ R) :
    ∃ v ∈ R, Leads G.next v a ∧ G.beyond R roots v ≠ 0 := by
  refine Reached.rec_on (P := fun a => a ∈ R → ∃ v ∈ R, Leads G.next v a ∧
    G.beyond R roots v ≠ 0) hr (fun r hm _ hh => ?_)
    (fun b c hrb ih hed hh => ?_) hh
  · have hc := count_pos_iff.mpr hm
    exact ⟨r, hh, Leads.refl r, by simp only [beyond]; omega⟩
  · by_cases early : b ∈ R
    · obtain ⟨v, hi, hp, he⟩ := ih early
      exact ⟨v, hi, hp.tail hed, he⟩
    · refine ⟨c, hh, Leads.refl c, ?_⟩
      have hc := count_pos_iff.mpr (mem_next.mp hed).1
      have ho : b ∈ G.live \ R := Finset.mem_sdiff.mpr ⟨hrb.live, early⟩
      have hb := Finset.single_le_sum (f := fun b => (G.succ b).count c)
        (fun _ _ => Nat.zero_le _) ho
      simp only [beyond]
      omega

theorem exists_of_beyond (he : G.beyond R roots a ≠ 0) :
    a ∈ roots ∨ ∃ b ∈ G.live, b ∉ R ∧ a ∈ G.succ b := by
  by_cases mem : a ∈ roots
  · exact .inl mem
  · have hnh : roots.count a = 0 := count_eq_zero.mpr mem
    have hp : ∑ b ∈ G.live \ R, (G.succ b).count a ≠ 0 := by
      simpa only [beyond, hnh, zero_add] using he
    obtain ⟨b, ho, hc⟩ := Finset.exists_ne_zero_of_sum_ne_zero hp
    obtain ⟨hh, out⟩ := Finset.mem_sdiff.mp ho
    exact .inr ⟨b, hh, out, count_pos_iff.mp (pos_of_ne_zero hc)⟩

theorem exists_of_references (he : G.references roots a ≠ 0) :
    a ∈ roots ∨ ∃ b ∈ G.live, a ∈ G.succ b := by
  have hb : G.beyond ∅ roots a ≠ 0 := by rwa [beyond, Finset.sdiff_empty, ← references]
  exact (exists_of_beyond hb).imp_right fun ⟨b, hh, _, hm⟩ => ⟨b, hh, hm⟩

theorem references_of_mem (hm : a ∈ roots ∨ ∃ b ∈ G.live, a ∈ G.succ b) :
    G.references roots a ≠ 0 := by
  rw [references]
  rcases hm with hm | ⟨b, hh, hm⟩
  · have hc := count_pos_iff.mpr hm
    omega
  · have hc := count_pos_iff.mpr hm
    have hs := Finset.single_le_sum (f := fun b => (G.succ b).count a)
      (fun _ _ => Nat.zero_le _) hh
    omega

theorem supported_of_references (hr : ∀ b ∈ G.live, G.references roots b ≠ 0)
    (hh : a ∈ G.live) : G.Supported roots a :=
  ⟨G.live, hh, fun s hs => ⟨hs, exists_of_references (hr s hs)⟩⟩

theorem Supported.references (hs : G.Supported roots a) : G.references roots a ≠ 0 := by
  obtain ⟨S, hm, hs⟩ := hs
  exact references_of_mem ((hs a hm).2.imp_right fun ⟨b, hb, he⟩ => ⟨b, (hs b hb).1, he⟩)

/-- Trial deletion. Where `x` and the roots reach all that is in use, the roots alone reach
`x` exactly when some node below `x` that leads back to `x` is referred to from beyond what
`x` leads to. -/
theorem reached_iff_beyond (hh : x ∈ G.live) (hr : ∀ a, a ∈ R ↔ Leads G.next x a)
    (ha : ∀ a ∈ G.live, G.Reached (x :: roots) a) :
    G.Reached roots x ↔ ∃ v ∈ R, Leads G.next v x ∧ G.beyond R roots v ≠ 0 := by
  constructor
  · exact fun reached => reached.enters ((hr x).mpr (Leads.refl x))
  · rintro ⟨v, hi, hp, he⟩
    have hlv : v ∈ G.live := leads_live ((hr v).mp hi) hh
    rcases exists_of_beyond he with hm | ⟨b, hlb, ho, hed⟩
    · exact (Reached.of_mem hm hlv).leads hp
    · rcases reached_cons.mp (ha b hlb) with ⟨-, hb⟩ | reached
      · exact absurd ((hr b).mpr hb) ho
      · exact (reached.tail (mem_next.mpr ⟨hed, hlv⟩)).leads hp

/-- A notion of what the roots keep in use while others give up their references. -/
structure Keeping (K : RefGraph α → List α → α → Prop) : Prop where
  live : ∀ {G roots a}, K G roots a → a ∈ G.live
  of_mem : ∀ {G roots a}, a ∈ roots → a ∈ G.live → K G roots a
  tail : ∀ {G roots a b}, K G roots b → a ∈ G.next b → K G roots a
  mono : ∀ {G roots more a}, K G roots a → (∀ r ∈ roots, r ∈ G.live → r ∈ more) → K G more a
  absorb : ∀ {G x roots a}, K G (x :: roots) a → K G roots x → K G roots a
  transport : ∀ {G H : RefGraph α} {roots a}, K G roots a →
    (∀ b, K G roots b → b ∈ H.live) → (∀ b, K G roots b → H.succ b = G.succ b) → K H roots a
  shrink : ∀ {G H : RefGraph α} {roots a}, K H roots a → H.live ⊆ G.live →
    (∀ b ∈ H.live, H.succ b = G.succ b) → K G roots a
  remove : ∀ {G : RefGraph α} {x roots a}, K G roots a → a ≠ x →
    K (G.remove x) (G.succ x ++ roots) a

theorem Keeping.remove_of_not {K : RefGraph α → List α → α → Prop} (hk : Keeping K)
    (hr : K G roots a) (hu : ¬ K G roots x) : K (G.remove x) roots a := by
  have ha : ∀ b, K G roots b → b ≠ x := fun b hrb he => hu (he ▸ hrb)
  exact hk.transport hr (fun b hrb => mem_remove.mpr ⟨ha b hrb, hk.live hrb⟩)
    fun b hrb => succ_remove (ha b hrb)

theorem only_reference (one : G.references roots x = 1) (hb : b ∈ G.live) (he : x ∈ G.succ b) :
    x ∉ roots ∧ ∀ c ∈ G.live, x ∈ G.succ c → c = b := by
  have hs := Finset.add_sum_erase G.live (fun c => (G.succ c).count x) hb
  have hx := count_pos_iff.mpr he
  rw [references] at one
  refine ⟨fun hr => ?_, fun c hc hm => ?_⟩
  · have := count_pos_iff.mpr hr
    omega
  · by_contra hn
    have hl := Finset.single_le_sum (f := fun c => (G.succ c).count x) (fun _ _ => Nat.zero_le _)
      (Finset.mem_erase.mpr ⟨hn, hc⟩)
    have := count_pos_iff.mpr hm
    omega

/-- A node that has the only reference to `x` is reached without it. -/
theorem Keeping.without {K : RefGraph α → List α → α → Prop} (hk : Keeping K)
    (hr : G.Reached roots b) (one : G.references roots x = 1) (he : x ∈ G.succ b) :
    K (G.remove x) roots b := by
  obtain ⟨hn, only⟩ := only_reference one hr.live he
  have hs : K (G.remove x) roots b ∨ K (G.remove x) roots b := by
    refine hr.rec_on (P := fun a => K (G.remove x) roots a ∨ K (G.remove x) roots b)
      (fun r hm hl => ?_) fun a c hra ih hc => ?_
    · exact .inl (hk.of_mem hm (mem_remove.mpr ⟨fun eq => hn (eq ▸ hm), hl⟩))
    · refine ih.elim (fun hka => ?_) .inr
      obtain ⟨hc, hl⟩ := mem_next.mp hc
      by_cases same : c = x
      · exact .inr (only a hra.live (same ▸ hc) ▸ hka)
      · refine .inl (hk.tail hka (mem_next.mpr ⟨?_, mem_remove.mpr ⟨same, hl⟩⟩))
        rwa [succ_remove (mem_remove.mp (hk.live hka)).1]
  exact hs.elim id id

theorem keeping_reached : Keeping (@Reached α _) where
  live := Reached.live
  of_mem := Reached.of_mem
  tail := Reached.tail
  mono := Reached.mono
  absorb hr hx := (reached_cons.mp hr).elim (fun hp => hx.leads hp.2) id
  transport := Reached.transport
  shrink := Reached.shrink
  remove := Reached.remove

theorem keeping_supported : Keeping (@Supported α) where
  live := fun ⟨S, hm, hs⟩ => (hs _ hm).1
  of_mem hm hh := ⟨{_}, rfl, by rintro _ rfl; exact ⟨hh, .inl hm⟩⟩
  tail := by
    rintro G A a b ⟨S, hb, hs⟩ he
    refine ⟨insert a S, .inl rfl, ?_⟩
    rintro s (rfl | hm)
    · exact ⟨(mem_next.mp he).2, .inr ⟨b, .inr hb, (mem_next.mp he).1⟩⟩
    · obtain ⟨hh, held⟩ := hs s hm
      exact ⟨hh, held.imp_right fun ⟨c, hc, hc'⟩ => ⟨c, .inr hc, hc'⟩⟩
  mono := fun ⟨S, hm, hs⟩ hw =>
    ⟨S, hm, fun s hi => ⟨(hs s hi).1, (hs s hi).2.imp_left fun hr => hw s hr (hs s hi).1⟩⟩
  absorb := by
    rintro G x A a ⟨S, ha, hs⟩ ⟨T, hx, ht⟩
    refine ⟨S ∪ T, .inl ha, ?_⟩
    rintro s (hm | hm)
    · obtain ⟨hh, hr | ⟨b, hb, hb'⟩⟩ := hs s hm
      · rcases mem_cons.mp hr with rfl | hr
        · exact ⟨hh, (ht s hx).2.imp_right fun ⟨c, hc, hc'⟩ => ⟨c, .inr hc, hc'⟩⟩
        · exact ⟨hh, .inl hr⟩
      · exact ⟨hh, .inr ⟨b, .inl hb, hb'⟩⟩
    · obtain ⟨hh, held⟩ := ht s hm
      exact ⟨hh, held.imp_right fun ⟨c, hc, hc'⟩ => ⟨c, .inr hc, hc'⟩⟩
  transport := fun ⟨S, hm, hs⟩ hl hsm => by
    have hk : ∀ b ∈ S, Supported _ _ b := fun b hb => ⟨S, hb, hs⟩
    refine ⟨S, hm, fun s hi => ⟨hl s (hk s hi), (hs s hi).2.imp_right ?_⟩⟩
    rintro ⟨b, hb, hb'⟩
    exact ⟨b, hb, hsm b (hk b hb) ▸ hb'⟩
  shrink := fun ⟨S, hm, hs⟩ hf hsm => by
    refine ⟨S, hm, fun s hi => ⟨hf (hs s hi).1, (hs s hi).2.imp_right ?_⟩⟩
    rintro ⟨b, hb, hb'⟩
    exact ⟨b, hb, hsm b (hs b hb).1 ▸ hb'⟩
  remove := by
    rintro G x A a ⟨S, hm, hs⟩ hn
    refine ⟨S \ {x}, ⟨hm, hn⟩, ?_⟩
    rintro s ⟨hi, ha⟩
    obtain ⟨hh, held⟩ := hs s hi
    refine ⟨mem_remove.mpr ⟨ha, hh⟩, ?_⟩
    rcases held with hr | ⟨b, hb, hb'⟩
    · exact .inl (mem_append_right _ hr)
    · by_cases same : b = x
      · exact .inl (mem_append_left _ (same ▸ hb'))
      · exact .inr ⟨b, ⟨hb, same⟩, by rwa [succ_remove same]⟩

end RefGraph

end Ae.Lib.CountedGraph
