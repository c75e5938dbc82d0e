import Mathlib.Data.List.Basic

/-!
# Event-driven machines

A machine is a partial step function over labelled events: `none` means that
the event cannot happen in this state.  Nondeterminism (scheduling, input and
output failures, readings of a clock) lives in the events, so a run is a list
of events and the machine itself stays executable.

Main results:

- Theorem `Machine.run_append`: a run splits at any of its states.
- Instance `Machine.decidableGuarded`: guards can be evaluated along a run.
- Theorem `Machine.run_invariant`: an invariant that every allowed step
  preserves holds after every guarded run.
- Theorem `Machine.throughout_iff_guarded`: a property that exactly the allowed
  steps preserve holds throughout exactly the guarded runs.

Current gaps:

- Runs are finite: nothing is said about what happens eventually.
-/

namespace Greplog
namespace Foundation

/-- A partial step function on states `σ` driven by events `ε`. -/
structure Machine (σ ε : Type*) where
  step : σ → ε → Option σ

namespace Machine

variable {σ ε : Type*} (M : Machine σ ε)

/-- Execute a list of events, failing as soon as one of them is not enabled. -/
def run (s : σ) : List ε → Option σ
  | [] => some s
  | e :: es =>
      match M.step s e with
      | none => none
      | some t => run t es

/-- Every step of the run is taken in a state and with an event that `ok` allows. -/
def Guarded (ok : σ → ε → Prop) (s : σ) : List ε → Prop
  | [] => True
  | e :: es => ok s e ∧ ∀ t, M.step s e = some t → Guarded ok t es

@[simp]
theorem run_nil (s : σ) : M.run s [] = some s :=
  rfl

/-- A nonempty run takes its first step and continues from there. -/
theorem run_cons_eq_some {s t : σ} {e : ε} {es : List ε} :
    M.run s (e :: es) = some t ↔ ∃ u, M.step s e = some u ∧ M.run u es = some t := by
  simp only [run]
  cases M.step s e with
  | none => simp
  | some u => simp

/-- A run over two lists of events passes through an intermediate state. -/
theorem run_append {s t : σ} {es fs : List ε} :
    M.run s (es ++ fs) = some t ↔ ∃ u, M.run s es = some u ∧ M.run u fs = some t := by
  induction es generalizing s with
  | nil => simp
  | cons e es ih =>
      simp only [List.cons_append, run_cons_eq_some, ih]
      constructor
      · rintro ⟨v, hstep, u, hes, hfs⟩
        exact ⟨u, ⟨v, hstep, hes⟩, hfs⟩
      · rintro ⟨u, ⟨v, hstep, hes⟩, hfs⟩
        exact ⟨v, hstep, u, hes, hfs⟩

/-- Guardedness looks at the state behind each step. -/
theorem guarded_cons {ok : σ → ε → Prop} {s t : σ} {e : ε} {es : List ε}
    (h : M.step s e = some t) : M.Guarded ok s (e :: es) ↔ ok s e ∧ M.Guarded ok t es := by
  simp [Guarded, h]

/-- A guard that can be tested on each step can be tested on a run. -/
instance decidableGuarded {ok : σ → ε → Prop} [∀ s e, Decidable (ok s e)] :
    ∀ (s : σ) (es : List ε), Decidable (M.Guarded ok s es)
  | _, [] => isTrue trivial
  | s, e :: es =>
      match h : M.step s e with
      | none => decidable_of_iff (ok s e) (by simp [Guarded, h])
      | some t =>
          have : Decidable (M.Guarded ok t es) := decidableGuarded t es
          decidable_of_iff (ok s e ∧ M.Guarded ok t es) (M.guarded_cons h).symm

/-- A guard that always holds allows every run. -/
theorem guarded_of_forall {ok : σ → ε → Prop} (h : ∀ s e, ok s e) (s : σ) (es : List ε) :
    M.Guarded ok s es := by
  induction es generalizing s with
  | nil => trivial
  | cons e es ih => exact ⟨h s e, fun t _ => ih t⟩

/-- A guard that allows each event of a run in every state allows the run. -/
theorem guarded_of_mem {ok : σ → ε → Prop} {es : List ε} (h : ∀ e ∈ es, ∀ s, ok s e) (s : σ) :
    M.Guarded ok s es := by
  induction es generalizing s with
  | nil => trivial
  | cons e es ih =>
      refine ⟨h e List.mem_cons_self s, ?_⟩
      intro t _
      exact ih (fun f hf => h f (List.mem_cons_of_mem e hf)) t

/-- A guard that allows more steps allows more runs. -/
theorem guarded_mono {ok ok' : σ → ε → Prop} (h : ∀ s e, ok s e → ok' s e) {s : σ} {es : List ε}
    (hok : M.Guarded ok s es) : M.Guarded ok' s es := by
  induction es generalizing s with
  | nil => trivial
  | cons e es ih => exact ⟨h s e hok.1, fun t ht => ih (hok.2 t ht)⟩

/-- Guards that agree on each step agree on a run. -/
theorem guarded_congr {ok ok' : σ → ε → Prop} (h : ∀ s e, ok s e ↔ ok' s e) (s : σ)
    (es : List ε) : M.Guarded ok s es ↔ M.Guarded ok' s es := by
  constructor
  · exact M.guarded_mono fun s e => (h s e).mp
  · exact M.guarded_mono fun s e => (h s e).mpr

/-- The run rule: an invariant of the allowed steps holds after every guarded run. -/
theorem run_invariant (ok : σ → ε → Prop) (Inv : σ → Prop)
    (hstep : ∀ s e t, Inv s → ok s e → M.step s e = some t → Inv t)
    {s t : σ} {es : List ε} (hinit : Inv s) (hok : M.Guarded ok s es)
    (hrun : M.run s es = some t) : Inv t := by
  induction es generalizing s with
  | nil =>
      rw [run_nil, Option.some.injEq] at hrun
      exact hrun ▸ hinit
  | cons e es ih =>
      obtain ⟨u, hu, hes⟩ := M.run_cons_eq_some.mp hrun
      exact ih (hstep s e u hinit hok.1 hu) (hok.2 u hu) hes

/-! ## Properties of all states of a run -/

/-- The property holds in every state that the run passes through. -/
def Throughout (P : σ → Prop) (s : σ) (es : List ε) : Prop :=
  ∀ fs, fs <+: es → ∀ t, M.run s fs = some t → P t

theorem throughout_nil {P : σ → Prop} {s : σ} : M.Throughout P s [] ↔ P s := by
  constructor
  · intro h
    exact h [] List.prefix_rfl s rfl
  · intro h fs hfs t hrun
    rw [List.prefix_nil.mp hfs, run_nil, Option.some.injEq] at hrun
    exact hrun ▸ h

theorem throughout_cons {P : σ → Prop} {s t : σ} {e : ε} {es : List ε}
    (h : M.step s e = some t) : M.Throughout P s (e :: es) ↔ P s ∧ M.Throughout P t es := by
  constructor
  · intro hall
    refine ⟨hall [] List.nil_prefix s rfl, ?_⟩
    intro fs hfs u hrun
    refine hall (e :: fs) (List.cons_prefix_cons.mpr ⟨rfl, hfs⟩) u ?_
    exact M.run_cons_eq_some.mpr ⟨t, h, hrun⟩
  · rintro ⟨hs, hall⟩ fs hfs u hrun
    cases fs with
    | nil =>
        rw [run_nil, Option.some.injEq] at hrun
        exact hrun ▸ hs
    | cons f fs =>
        obtain ⟨rfl, htail⟩ := List.cons_prefix_cons.mp hfs
        obtain ⟨v, hv, hrest⟩ := M.run_cons_eq_some.mp hrun
        rw [h, Option.some.injEq] at hv
        subst hv
        exact hall fs htail u hrest

/-- A property that exactly the allowed steps preserve holds throughout exactly the
guarded runs. -/
theorem throughout_iff_guarded (ok : σ → ε → Prop) (Inv P : σ → Prop)
    (hinv : ∀ s e t, Inv s → M.step s e = some t → Inv t)
    (hstep : ∀ s e t, Inv s → P s → M.step s e = some t → (P t ↔ ok s e))
    {s t : σ} {es : List ε} (hinit : Inv s) (hP : P s) (hrun : M.run s es = some t) :
    M.Throughout P s es ↔ M.Guarded ok s es := by
  induction es generalizing s with
  | nil =>
      rw [throughout_nil]
      exact iff_of_true hP trivial
  | cons e es ih =>
      obtain ⟨u, hu, hes⟩ := M.run_cons_eq_some.mp hrun
      rw [M.throughout_cons hu, M.guarded_cons hu, and_iff_right hP]
      by_cases hok : ok s e
      · have hPu := (hstep s e u hinit hP hu).mpr hok
        rw [and_iff_right hok]
        exact ih (hinv s e u hinit hu) hPu hes
      · refine iff_of_false ?_ (fun h => hok h.1)
        intro hall
        have hPu : P u := hall [] List.nil_prefix u rfl
        exact hok ((hstep s e u hinit hP hu).mp hPu)

/-- A property that no step can restore holds throughout a run when it holds at its end. -/
theorem throughout_of_run {P : σ → Prop} (hback : ∀ s e t, M.step s e = some t → P t → P s)
    {s t : σ} {es : List ε} (hrun : M.run s es = some t) (hP : P t) : M.Throughout P s es := by
  induction es generalizing s with
  | nil =>
      rw [run_nil, Option.some.injEq] at hrun
      exact M.throughout_nil.mpr (hrun ▸ hP)
  | cons e es ih =>
      obtain ⟨u, hu, hes⟩ := M.run_cons_eq_some.mp hrun
      have hall := ih hes
      refine (M.throughout_cons hu).mpr ⟨?_, hall⟩
      exact hback s e u hu (hall [] List.nil_prefix u rfl)

/-! ## Outputs -/

variable {ω : Type*}

/-- What the steps of a run put out, in order. -/
def outputs (out : σ → ε → List ω) (s : σ) : List ε → List ω
  | [] => []
  | e :: es =>
      out s e ++
        match M.step s e with
        | none => []
        | some t => outputs out t es

/-- The run rule for invariants that also speak about what has been put out. -/
theorem run_outputs (out : σ → ε → List ω) (ok : σ → ε → Prop) (Inv : List ω → σ → Prop)
    (hstep : ∀ os s e t, Inv os s → ok s e → M.step s e = some t → Inv (os ++ out s e) t)
    {os : List ω} {s t : σ} {es : List ε} (hinit : Inv os s) (hok : M.Guarded ok s es)
    (hrun : M.run s es = some t) : Inv (os ++ M.outputs out s es) t := by
  induction es generalizing os s with
  | nil =>
      rw [run_nil, Option.some.injEq] at hrun
      rw [outputs, List.append_nil]
      exact hrun ▸ hinit
  | cons e es ih =>
      obtain ⟨u, hu, hes⟩ := M.run_cons_eq_some.mp hrun
      have hrest := ih (hstep os s e u hinit hok.1 hu) (hok.2 u hu) hes
      rw [List.append_assoc] at hrest
      simpa only [outputs, hu] using hrest

/-- The run rule for invariants that speak about what went in and what has been put out. -/
theorem run_transcript {ι : Type*} (inp : ε → List ι) (out : σ → ε → List ω)
    (ok : σ → ε → Prop) (Inv : List ι → List ω → σ → Prop)
    (hstep : ∀ is os s e t, Inv is os s → ok s e → M.step s e = some t →
      Inv (is ++ inp e) (os ++ out s e) t)
    {is : List ι} {os : List ω} {s t : σ} {es : List ε} (hinit : Inv is os s)
    (hok : M.Guarded ok s es) (hrun : M.run s es = some t) :
    Inv (is ++ es.flatMap inp) (os ++ M.outputs out s es) t := by
  induction es generalizing is os s with
  | nil =>
      rw [run_nil, Option.some.injEq] at hrun
      rw [outputs, List.flatMap_nil, List.append_nil, List.append_nil]
      exact hrun ▸ hinit
  | cons e es ih =>
      obtain ⟨u, hu, hes⟩ := M.run_cons_eq_some.mp hrun
      have hrest := ih (hstep is os s e u hinit hok.1 hu) (hok.2 u hu) hes
      rw [List.append_assoc, List.append_assoc] at hrest
      simpa only [List.flatMap_cons, outputs, hu] using hrest

end Machine
end Foundation
end Greplog
