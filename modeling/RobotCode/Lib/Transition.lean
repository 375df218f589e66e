import Mathlib

/-!
# Runs of a labelled step function

A system is a partial step function `step : σ → α → Option σ` on states, driven by labels that say
who moves. `Run step ok s s'` says that some sequence of labels leads from `s` to `s'`, every one of
them allowed by `ok` in the state where it is taken. The side condition is how an assumption about the
environment enters a theorem without touching the step function: a run under `ok` is a run of the
same system.

`exec` takes the labels as an explicit list, so a concrete run is checked by evaluation.
-/

namespace RobotCode.Transition

universe u v

variable {σ : Type u} {α : Type v}

/-- A run from `s` whose steps all satisfy `ok` in the state where they are taken. -/
inductive Run (step : σ → α → Option σ) (ok : σ → α → Prop) (s : σ) : σ → Prop
  | refl : Run step ok s s
  | tail {u v : σ} (a : α) : Run step ok s u → ok u a → step u a = some v → Run step ok s v

variable {step : σ → α → Option σ} {ok ok' : σ → α → Prop} {s t w : σ}

theorem Run.single (a : α) (hok : ok s a) (hstep : step s a = some t) : Run step ok s t :=
  .tail a .refl hok hstep

theorem Run.trans (h : Run step ok s t) (h' : Run step ok t w) : Run step ok s w := by
  induction h' with
  | refl => exact h
  | tail a _ hok hstep ih => exact .tail a ih hok hstep

variable {P : σ → Prop}

theorem Run.invariant_of_run (hkeep : ∀ u a v, Run step ok s u → P u → ok u a → step u a = some v → P v)
    (h : Run step ok s t) (hs : P s) : P t := by
  induction h with
  | refl => exact hs
  | tail a hu hok hstep ih => exact hkeep _ a _ hu ih hok hstep

theorem Run.invariant (hkeep : ∀ u a v, P u → ok u a → step u a = some v → P v)
    (h : Run step ok s t) (hs : P s) : P t := h.invariant_of_run (fun u a v _ => hkeep u a v) hs

/-- The invariant rule for a run that ends within a bound, which then held at every state before. -/
theorem Run.invariant_until {Q : σ → Prop} (hback : ∀ u a v, step u a = some v → Q v → Q u)
    (hkeep : ∀ u a v, P u → ok u a → step u a = some v → Q v → P v)
    (h : Run step ok s t) (hs : P s) (ht : Q t) : P t := by
  induction h with
  | refl => exact hs
  | tail a _ hok hstep ih => exact hkeep _ a _ (ih (hback _ a _ hstep ht)) hok hstep ht

theorem Run.mono (hok : ∀ u a, ok u a → ok' u a) (h : Run step ok s t) : Run step ok' s t := by
  induction h with
  | refl => exact .refl
  | tail a _ hu hstep ih => exact .tail a ih (hok _ a hu) hstep

/-- Take the listed labels one after another, checking `ok` before each. -/
def exec (step : σ → α → Option σ) (ok : σ → α → Prop) [∀ s a, Decidable (ok s a)] : σ → List α → Option σ
  | s, [] => some s
  | s, a :: rest => if ok s a then (step s a).bind fun u => exec step ok u rest else none

theorem Run.of_exec [∀ s a, Decidable (ok s a)] (labels : List α) :
    ∀ {s u : σ}, exec step ok s labels = some u → Run step ok s u := by
  induction labels with
  | nil =>
    intro s u h
    obtain rfl : s = u := by simpa [exec] using h
    exact .refl
  | cons a rest ih =>
    intro s u h
    rw [exec] at h
    split at h
    · rename_i hok
      obtain ⟨w, hstep, hrest⟩ := Option.bind_eq_some_iff.mp h
      exact (single a hok hstep).trans (ih hrest)
    · cases h

theorem Run.exists_of_exec [∀ s a, Decidable (ok s a)] (labels : List α) [DecidablePred P]
    (h : (exec step ok s labels).any (fun u => decide (P u)) = true) : ∃ u, Run step ok s u ∧ P u := by
  cases hexec : exec step ok s labels with
  | none => simp [hexec] at h
  | some u => exact ⟨u, of_exec labels hexec, by simpa [hexec] using h⟩

theorem Run.exists_of_exec_exec {ok' : σ → α → Prop} [∀ s a, Decidable (ok s a)] [∀ s a, Decidable (ok' s a)]
    (labels labels' : List α) {P : σ → σ → Prop} [∀ u v, Decidable (P u v)]
    (h : (exec step ok s labels).any (fun u => (exec step ok' u labels').any fun v => decide (P u v)) = true) :
    ∃ u v, Run step ok s u ∧ Run step ok' u v ∧ P u v := by
  cases hexec : exec step ok s labels with
  | none => simp [hexec] at h
  | some u =>
    rw [hexec, Option.any_some] at h
    obtain ⟨v, hrun, hv⟩ := exists_of_exec labels' h
    exact ⟨u, v, of_exec labels hexec, hrun, hv⟩

end RobotCode.Transition
