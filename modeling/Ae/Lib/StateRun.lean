/- digest: Programs over a state that may stop with a fault, and what their runs keep. -/

import Mathlib.Order.Defs.Unbundled

set_option autoImplicit false

namespace Ae.Lib.StateRun

variable {ε σ ρ α β : Type}

/-- The state in which a run ends, whether it returns or stops with a fault. -/
def final : EStateM.Result ε σ α → σ
  | .ok _ s => s
  | .error _ s => s

def zoom (part : σ → ρ) (put : ρ → σ → σ) (x : EStateM ε ρ α) : EStateM ε σ α := fun s =>
  match x.run (part s) with
  | .ok a p => .ok a (put p s)
  | .error e p => .error e (put p s)

theorem zoom_ok {pa : σ → ρ} {put : ρ → σ → σ} {x : EStateM ε ρ α} {s : σ} {a : α} {p : ρ}
    (h : x.run (pa s) = .ok a p) : (zoom pa put x).run s = .ok a (put p s) := by
  rw [EStateM.run, zoom, h]

theorem zoom_error {pa : σ → ρ} {put : ρ → σ → σ} {x : EStateM ε ρ α} {s : σ} {e : ε} {p : ρ}
    (h : x.run (pa s) = .error e p) : (zoom pa put x).run s = .error e (put p s) := by
  rw [EStateM.run, zoom, h]

section

variable {x : EStateM ε σ α} {f : α → EStateM ε σ β} {s s' s'' : σ}

theorem bind_ok {a : α} (h : x.run s = .ok a s') : (x >>= f).run s = (f a).run s' := by
  rw [EStateM.run_bind, h]

theorem bind_error {e : ε} (h : x.run s = .error e s') : (x >>= f).run s = .error e s' := by
  rw [EStateM.run_bind, h]

theorem bind_congr {y : EStateM ε σ α} (he : x.run s = y.run s') :
    (x >>= f).run s = (y >>= f).run s' := by
  rw [EStateM.run_bind, EStateM.run_bind, he]

theorem get_bind (f : σ → EStateM ε σ β) (s : σ) : (get >>= f).run s = (f s).run s := rfl

theorem modify_bind (g : σ → σ) (f : PUnit → EStateM ε σ β) (s : σ) :
    (modify g >>= f).run s = (f PUnit.unit).run (g s) := rfl

theorem of_bind_ok {b : β} (h : (x >>= f).run s = .ok b s'') :
    ∃ a s', x.run s = .ok a s' ∧ (f a).run s' = .ok b s'' := by
  cases first : x.run s with
  | ok a s' =>
    rw [bind_ok first] at h
    exact ⟨a, s', rfl, h⟩
  | error e s' =>
    rw [bind_error first] at h
    cases h

end

/-- Each run leads from its first state to a related one, also where it stops with a fault. -/
def Keeps (R : σ → σ → Prop) (x : EStateM ε σ α) : Prop :=
  ∀ s, R s (final (x.run s))

namespace Keeps

variable {R : σ → σ → Prop}

section

variable [IsPreorder σ R]

theorem pure (a : α) : Keeps R (Pure.pure a : EStateM ε σ α) := fun s => refl_of R s

theorem throw (e : ε) : Keeps R (MonadExcept.throw e : EStateM ε σ α) := fun s => refl_of R s

theorem get : Keeps R (MonadState.get : EStateM ε σ σ) := fun s => refl_of R s

theorem bind {x : EStateM ε σ α} {f : α → EStateM ε σ β} (h1 : Keeps R x)
    (hn : ∀ a, Keeps R (f a)) : Keeps R (x >>= f) := by
  intro s
  have hs := h1 s
  cases run : x.run s with
  | ok a s' =>
    rw [run] at hs
    rw [bind_ok run]
    exact trans_of R hs (hn a s')
  | error e s' =>
    rw [run] at hs
    rw [bind_error run]
    exact hs

theorem forM {f : α → EStateM ε σ PUnit} {as : List α} (he : ∀ a ∈ as, Keeps R (f a)) :
    Keeps R (as.forM f) := by
  induction as with
  | nil => exact pure PUnit.unit
  | cons a as ih =>
    obtain ⟨hh, ht⟩ := List.forall_mem_cons.mp he
    exact bind hh (fun _ => ih ht)

end

theorem modify {f : σ → σ} (h : ∀ s, R s (f s)) :
    Keeps R (modifyGet fun s => (PUnit.unit, f s) : EStateM ε σ PUnit) := h

end Keeps

end Ae.Lib.StateRun
