/- digest: Runs of an event-driven state machine and the invariant rules over whole runs. -/

import Mathlib.Logic.Basic

set_option autoImplicit false

namespace Ae.Lib.EventRun

universe u v

variable {σ : Type u} {ε : Type v} {step : σ → ε → σ}

/-- The state reached from `s` by a list of events, oldest event first. -/
def run (step : σ → ε → σ) (s : σ) (es : List ε) : σ := es.foldl step s

/-- `P` holds at every event of the run, read in the state in which it arrives. -/
def Along (step : σ → ε → σ) (P : σ → ε → Prop) : σ → List ε → Prop
  | _, [] => True
  | s, e :: es => P s e ∧ Along step P (step s e) es

/-- `P` holds in every state of the run, the first and the last included. -/
def Always (step : σ → ε → σ) (P : σ → Prop) : σ → List ε → Prop
  | s, [] => P s
  | s, e :: es => P s ∧ Always step P (step s e) es

instance decidableAlong {P : σ → ε → Prop} [∀ s e, Decidable (P s e)] :
    (s : σ) → (es : List ε) → Decidable (Along step P s es)
  | _, [] => isTrue trivial
  | s, e :: es =>
    match (inferInstance : Decidable (P s e)), decidableAlong (step s e) es with
    | isTrue h, isTrue hs => isTrue ⟨h, hs⟩
    | isFalse h, _ => isFalse (fun hs => h hs.1)
    | _, isFalse hs => isFalse (fun h => hs h.2)

variable {es : List ε} {s : σ}

theorem along_true : Along step (fun _ _ => True) s es := by
  induction es generalizing s with
  | nil => trivial
  | cons e es ih => exact ⟨trivial, ih⟩

variable {I : σ → Prop} {G P : σ → ε → Prop}

theorem Along.of_invariant (hk : ∀ s e, I s → G s e → I (step s e))
    (hsf : ∀ s e, I s → G s e → P s e) (hs : I s) (ha : Along step G s es) : Along step P s es := by
  induction es generalizing s with
  | nil => trivial
  | cons e es ih =>
    exact ⟨hsf s e hs ha.1, ih (hk s e hs ha.1) ha.2⟩

theorem run_of_invariant (hk : ∀ s e, I s → G s e → I (step s e)) (hs : I s)
    (ha : Along step G s es) : I (run step s es) := by
  induction es generalizing s with
  | nil => exact hs
  | cons e es ih => exact ih (hk s e hs ha.1) ha.2

theorem Always.of_invariant {I P : σ → Prop} (hk : ∀ s e, I s → G s e → I (step s e))
    (hsf : ∀ s, I s → P s) (hs : I s) (ha : Along step G s es) : Always step P s es := by
  induction es generalizing s with
  | nil => exact hsf s hs
  | cons e es ih => exact ⟨hsf s hs, ih (hk s e hs ha.1) ha.2⟩

theorem Always.head {P : σ → Prop} (h : Always step P s es) : P s := by
  cases es with
  | nil => exact h
  | cons e es => exact h.1

theorem along_invariant (hkp : ∀ s e, I s → I (step s e)) (hs : I s) :
    Along step (fun s _ => I s) s es :=
  Along.of_invariant (fun s e hk _ => hkp s e hk) (fun _ _ hk _ => hk) hs along_true

theorem always_iff_after {P : σ → Prop} :
    Always step P s es ↔ P s ∧ Along step (fun s e => P (step s e)) s es := by
  induction es generalizing s with
  | nil => exact (and_iff_left trivial).symm
  | cons e es ih => exact and_congr_right fun _ => ih

theorem always_iff_prefixes {P : σ → Prop} :
    Always step P s es ↔ ∀ p, p <+: es → P (run step s p) := by
  induction es generalizing s with
  | nil => simp [Always, run]
  | cons e es ih =>
    rw [Always, ih]
    constructor
    · rintro ⟨here, later⟩ p hp
      rcases List.prefix_cons_iff.mp hp with rfl | ⟨q, rfl, hq⟩
      · exact here
      · exact later q hq
    · intro all
      exact ⟨all [] List.nil_prefix, fun q hq => all (e :: q) (List.cons_prefix_cons.mpr ⟨rfl, hq⟩)⟩

/-- Where each single event keeps a property exactly under a guard, a whole run has the
property in every state exactly when it meets the guard at every event. -/
theorem always_iff_along {A : σ → ε → Prop} (hea : ∀ s e, I s → A s e → (I (step s e) ↔ G s e))
    (hs : I s) (ha : Along step A s es) : Always step I s es ↔ Along step G s es := by
  induction es generalizing s with
  | nil => exact ⟨fun _ => trivial, fun _ => hs⟩
  | cons e es ih =>
    have hk := hea s e hs ha.1
    constructor
    · rintro ⟨-, hl⟩
      have hn := hl.head
      exact ⟨hk.mp hn, (ih hn ha.2).mp hl⟩
    · rintro ⟨hg, hl⟩
      exact ⟨hs, (ih (hk.mpr hg) ha.2).mpr hl⟩

/-- Under an invariant that needs the guard to survive, a property which each single
event has exactly under the guard is had by a whole run exactly under the guard. -/
theorem along_iff_of_invariant (hk : ∀ s e, I s → G s e → I (step s e))
    (hea : ∀ s e, I s → (P s e ↔ G s e)) (hs : I s) : Along step P s es ↔ Along step G s es := by
  induction es generalizing s with
  | nil => exact .rfl
  | cons e es ih =>
    constructor
    · intro h
      have hg := (hea s e hs).mp h.1
      exact ⟨hg, (ih (hk s e hs hg)).mp h.2⟩
    · intro h
      exact ⟨(hea s e hs).mpr h.1, (ih (hk s e hs h.1)).mpr h.2⟩

theorem along_congr_of_invariant {Q : σ → ε → Prop} (hk : ∀ s e, I s → G s e → I (step s e))
    (hag : ∀ s e, I s → G s e → (P s e ↔ Q s e)) (hs : I s) (ha : Along step G s es) :
    Along step P s es ↔ Along step Q s es := by
  induction es generalizing s with
  | nil => exact .rfl
  | cons e es ih =>
    exact and_congr (hag s e hs ha.1) (ih (hk s e hs ha.1) ha.2)

theorem along_and {Q : σ → ε → Prop} :
    Along step (fun s e => P s e ∧ Q s e) s es ↔ Along step P s es ∧ Along step Q s es := by
  induction es generalizing s with
  | nil => simp [Along]
  | cons e es ih =>
    simp only [Along, ih]
    exact and_and_and_comm

end Ae.Lib.EventRun
