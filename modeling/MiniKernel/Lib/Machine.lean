import Mathlib.Tactic

/-!
# Labelled machines and their runs

A machine is a partial step function `σ → ε → Option σ`; an event that is not
enabled has no successor. Runs are event lists. The rules below are the only
inductions over runs: an invariant is carried by `run_invariant`, a property
that one kind of event may end by `run_persists`, and a guard on single steps
is carried through a run by `Meets`.
-/
namespace MiniKernel.Lib.Machine

variable {σ ε : Type*}

/-- Execute the events in order; `none` when one of them is not enabled. -/
def run (step : σ → ε → Option σ) : σ → List ε → Option σ
  | s, [] => some s
  | s, e :: es => (step s e).bind fun t => run step t es

/-- Every event of the run is taken in a state where `ok` admits it. -/
def Meets (step : σ → ε → Option σ) (ok : σ → ε → Prop) : σ → List ε → Prop
  | _, [] => True
  | s, e :: es => ok s e ∧ ∀ t ∈ step s e, Meets step ok t es

variable {step : σ → ε → Option σ} {ok : σ → ε → Prop}

@[simp] theorem run_nil (s : σ) : run step s [] = some s := rfl

theorem run_cons {s t : σ} {e : ε} {es : List ε} :
    run step s (e :: es) = some t ↔ ∃ u, step s e = some u ∧ run step u es = some t := by
  simp [run, Option.bind_eq_some_iff]

instance decidableMeets [∀ s e, Decidable (ok s e)] :
    ∀ s es, Decidable (Meets step ok s es)
  | _, [] => .isTrue trivial
  | s, e :: es =>
    have : ∀ t, Decidable (Meets step ok t es) := fun t => decidableMeets t es
    inferInstanceAs (Decidable (ok s e ∧ ∀ t ∈ step s e, Meets step ok t es))

theorem run_append {s t : σ} {es fs : List ε} :
    run step s (es ++ fs) = some t ↔
      ∃ u, run step s es = some u ∧ run step u fs = some t := by
  induction es generalizing s with
  | nil => simp
  | cons e es ih =>
    simp only [List.cons_append, run_cons, ih]
    constructor
    · rintro ⟨u, he, v, hv, ht⟩
      exact ⟨v, ⟨u, he, hv⟩, ht⟩
    · rintro ⟨v, ⟨u, he, hv⟩, ht⟩
      exact ⟨u, he, v, hv, ht⟩

theorem meets_append {s u : σ} {es fs : List ε} (h : Meets step ok s (es ++ fs))
    (hu : run step s es = some u) : Meets step ok s es ∧ Meets step ok u fs := by
  induction es generalizing s with
  | nil =>
    cases hu
    exact ⟨trivial, h⟩
  | cons e es ih =>
    obtain ⟨t, ht, hrun⟩ := run_cons.mp hu
    have tail := ih (h.2 t ht) hrun
    refine ⟨⟨h.1, ?_⟩, tail.2⟩
    intro t' ht'
    rw [ht] at ht'
    cases ht'
    exact tail.1

theorem meets_always (s : σ) (es : List ε) : Meets step (fun _ _ => True) s es := by
  induction es generalizing s with
  | nil => trivial
  | cons e es ih => exact ⟨trivial, fun t _ => ih t⟩

/-- What every admitted step preserves holds at the end of every admitted run. -/
theorem run_invariant {I : σ → Prop}
    (preserved : ∀ s e t, I s → ok s e → step s e = some t → I t)
    {s t : σ} {es : List ε} (start : I s) (meets : Meets step ok s es)
    (hrun : run step s es = some t) : I t := by
  induction es generalizing s with
  | nil =>
    cases hrun
    exact start
  | cons e es ih =>
    obtain ⟨u, hu, rest⟩ := run_cons.mp hrun
    exact ih (preserved s e u start meets.1 hu) (meets.2 u hu) rest

/-- Guards that agree wherever the invariant holds are met by the same runs. -/
theorem meets_iff {I : σ → Prop} {P Q : σ → ε → Prop}
    (preserved : ∀ s e t, I s → ok s e → step s e = some t → I t)
    (agree : ∀ s e, I s → (P s e ↔ Q s e)) {s : σ} {es : List ε} (start : I s)
    (meets : Meets step ok s es) : Meets step P s es ↔ Meets step Q s es := by
  induction es generalizing s with
  | nil => exact Iff.rfl
  | cons e es ih =>
    refine and_congr (agree s e start) (forall₂_congr fun t stepped => ?_)
    exact ih (preserved s e t start meets.1 stepped) (meets.2 t stepped)

/-- A property that only the event `stop` can end, taken in a state where the
invariant holds: either it survives the run, or the run splits at the first
event that ended it. -/
theorem run_persists {I Q : σ → Prop} {stop : σ → ε → Prop}
    (preserved : ∀ s e t, I s → ok s e → step s e = some t → I t)
    (kept : ∀ s e t, I s → Q s → ok s e → step s e = some t → Q t ∨ stop s e)
    {s t : σ} {es : List ε} (start : I s) (holds : Q s) (meets : Meets step ok s es)
    (hrun : run step s es = some t) :
    Q t ∨ ∃ pre e post u, es = pre ++ e :: post ∧ run step s pre = some u ∧ Q u ∧ stop u e := by
  induction es generalizing s with
  | nil =>
    cases hrun
    exact Or.inl holds
  | cons e es ih =>
    obtain ⟨u, hu, rest⟩ := run_cons.mp hrun
    rcases kept s e u start holds meets.1 hu with still | stopped
    · rcases ih (preserved s e u start meets.1 hu) still (meets.2 u hu) rest with
        done | ⟨pre, f, post, v, split, hv, hq, hstop⟩
      · exact Or.inl done
      · refine Or.inr ⟨e :: pre, f, post, v, by simp [split], ?_, hq, hstop⟩
        exact run_cons.mpr ⟨u, hu, hv⟩
    · exact Or.inr ⟨[], e, es, s, rfl, rfl, holds, stopped⟩

end MiniKernel.Lib.Machine
