import Greplog.Foundation.Machine

/-!
# Subsystems

A machine is often put together from others: each of its steps takes some steps of a
subsystem, maybe none.  What is known about the runs of the subsystem then holds along the
runs of the whole.

Main results:

- Theorem `Subsystem.run`: a run of the whole runs the subsystem.
- Theorem `Subsystem.guarded`: a guarded run of the whole guards the run of the subsystem.
- Theorem `Subsystem.outputs`: what the subsystem puts out on the way.

Current gaps:

- None: a subsystem may take any number of steps at once.
-/

namespace Greplog
namespace Foundation

namespace Machine

variable {σ ε ω : Type*} (M : Machine σ ε)

/-- A guard of a run over two lists of events. -/
theorem guarded_append {ok : σ → ε → Prop} {s t : σ} {es fs : List ε}
    (hrun : M.run s es = some t) (hes : M.Guarded ok s es) (hfs : M.Guarded ok t fs) :
    M.Guarded ok s (es ++ fs) := by
  induction es generalizing s with
  | nil =>
      rw [run_nil, Option.some.injEq] at hrun
      rw [List.nil_append]
      exact hrun ▸ hfs
  | cons e es ih =>
      obtain ⟨u, hu, hrest⟩ := M.run_cons_eq_some.mp hrun
      exact (M.guarded_cons hu).mpr ⟨hes.1, ih hrest (hes.2 u hu)⟩

/-- The outputs of a run over two lists of events. -/
theorem outputs_append {out : σ → ε → List ω} {s t : σ} {es fs : List ε}
    (hrun : M.run s es = some t) :
    M.outputs out s (es ++ fs) = M.outputs out s es ++ M.outputs out t fs := by
  induction es generalizing s with
  | nil =>
      rw [run_nil, Option.some.injEq] at hrun
      rw [hrun, outputs]
      rfl
  | cons e es ih =>
      obtain ⟨u, hu, hrest⟩ := M.run_cons_eq_some.mp hrun
      simp only [List.cons_append, outputs, hu, ih hrest, List.append_assoc]

@[simp]
theorem outputs_singleton (out : σ → ε → List ω) (s : σ) (e : ε) :
    M.outputs out s [e] = out s e := by
  simp only [outputs]
  cases M.step s e with
  | none => exact List.append_nil _
  | some t => exact List.append_nil _

/-- Outputs that are read in a way that does not depend on the states. -/
theorem flatMap_outputs {α : Type*} {out : σ → ε → List ω} {f : ω → List α} {g : ε → List α}
    (h : ∀ s e, (out s e).flatMap f = g e) {s t : σ} {es : List ε} (hrun : M.run s es = some t) :
    (M.outputs out s es).flatMap f = es.flatMap g := by
  induction es generalizing s with
  | nil => rfl
  | cons e es ih =>
      obtain ⟨u, hu, hrest⟩ := M.run_cons_eq_some.mp hrun
      simp only [outputs, hu, List.flatMap_append, List.flatMap_cons, h, ih hrest]

end Machine

/-- `N` is a subsystem of `M`: a step of `M` takes the steps `trace` of `N`. -/
structure Subsystem {σ ε τ φ : Type*} (M : Machine σ ε) (N : Machine τ φ) (proj : σ → τ)
    (trace : σ → ε → List φ) : Prop where
  step : ∀ {s t : σ} {e : ε}, M.step s e = some t → N.run (proj s) (trace s e) = some (proj t)

namespace Subsystem

variable {σ ε τ φ ω : Type*} {M : Machine σ ε} {N : Machine τ φ} {proj : σ → τ}
    {trace : σ → ε → List φ} {s t : σ} {es : List ε}

/-- A run of the whole runs the subsystem. -/
theorem run (h : Subsystem M N proj trace) (hrun : M.run s es = some t) :
    N.run (proj s) (M.outputs trace s es) = some (proj t) := by
  induction es generalizing s with
  | nil =>
      rw [Machine.run_nil, Option.some.injEq] at hrun
      rw [hrun]
      rfl
  | cons e es ih =>
      obtain ⟨u, hu, hrest⟩ := M.run_cons_eq_some.mp hrun
      simp only [Machine.outputs, hu]
      exact N.run_append.mpr ⟨proj u, h.step hu, ih hrest⟩

/-- A guarded run of the whole guards the run of the subsystem. -/
theorem guarded (h : Subsystem M N proj trace) {ok : τ → φ → Prop}
    (hok : M.Guarded (fun s e => N.Guarded ok (proj s) (trace s e)) s es)
    (hrun : M.run s es = some t) : N.Guarded ok (proj s) (M.outputs trace s es) := by
  induction es generalizing s with
  | nil => trivial
  | cons e es ih =>
      obtain ⟨u, hu, hrest⟩ := M.run_cons_eq_some.mp hrun
      simp only [Machine.outputs, hu]
      exact N.guarded_append (h.step hu) hok.1 (ih (hok.2 u hu) hrest)

/-- What the subsystem puts out in a run of the whole. -/
theorem outputs (h : Subsystem M N proj trace) (out : τ → φ → List ω)
    (hrun : M.run s es = some t) :
    N.outputs out (proj s) (M.outputs trace s es) =
      M.outputs (fun s e => N.outputs out (proj s) (trace s e)) s es := by
  induction es generalizing s with
  | nil => rfl
  | cons e es ih =>
      obtain ⟨u, hu, hrest⟩ := M.run_cons_eq_some.mp hrun
      simp only [Machine.outputs, hu]
      rw [N.outputs_append (h.step hu), ih hrest]

end Subsystem
end Foundation
end Greplog
