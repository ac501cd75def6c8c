import Mathlib.Data.List.Basic

/-!
# `Lib.Run` — labelled step systems and their runs

A component that takes step after step is given as a relation `step : σ → α → σ → Prop` between a state,
a label (the call made, with whatever it returned) and the next state. `Run step s as t` is a finite run
from `s` to `t` whose labels, in order, are `as`.

Two rules carry every whole-run result of the development:
* `Run.invariantTrace` / `Run.invariant` — a property of the first state that every step keeps holds in
  the last, where the property may also speak of the labels seen so far;
* `Run.simulates` — when every concrete step is matched by an abstract step with the *same label*, every
  concrete run is matched by an abstract run with the same labels.
-/

namespace Snippets
namespace Lib

variable {σ τ α : Type*}

/-- Finite runs of a labelled step relation, built back-to-front. -/
inductive Run (step : σ → α → σ → Prop) : σ → List α → σ → Prop
  | refl {s : σ} : Run step s [] s
  | tail {s t u : σ} {as : List α} {a : α} :
      Run step s as t → step t a u → Run step s (as ++ [a]) u

namespace Run

variable {step : σ → α → σ → Prop} {s t u : σ} {as bs : List α} {a : α}

theorem single (h : step s a t) : Run step s [a] t := by
  have h' : Run step s ([] ++ [a]) t := Run.tail Run.refl h
  exact h'

theorem trans (h₁ : Run step s as t) (h₂ : Run step t bs u) : Run step s (as ++ bs) u := by
  induction h₂ with
  | refl => simpa using h₁
  | tail _ hstep ih => rw [← List.append_assoc]; exact Run.tail ih hstep

/-- Peel the last label off a run. -/
theorem snoc_inv (h : Run step s (as ++ [a]) u) : ∃ t, Run step s as t ∧ step t a u := by
  generalize hl : as ++ [a] = l at h
  cases h with
  | refl => simp at hl
  | @tail t _ bs b hr hstep =>
      obtain ⟨rfl, hb⟩ := List.append_inj' hl rfl
      obtain rfl : a = b := by simpa using hb
      exact ⟨t, hr, hstep⟩

/-- Peel the first label off a run. -/
theorem head_cases (h : Run step s as u) :
    (as = [] ∧ u = s) ∨ ∃ t a bs, as = a :: bs ∧ step s a t ∧ Run step t bs u := by
  induction h with
  | refl => exact Or.inl ⟨rfl, rfl⟩
  | tail _ hstep ih =>
      right
      rcases ih with ⟨rfl, rfl⟩ | ⟨t, a, bs, rfl, hfirst, hrest⟩
      · exact ⟨_, _, [], rfl, hstep, Run.refl⟩
      · exact ⟨t, a, _, rfl, hfirst, Run.tail hrest hstep⟩

/-- **The invariant rule**, for a property of the labels so far and the state they lead to. -/
theorem invariantTrace {I : List α → σ → Prop}
    (hstep : ∀ as t a u, I as t → step t a u → I (as ++ [a]) u)
    (h : Run step s as u) (hs : I [] s) : I as u := by
  induction h with
  | refl => exact hs
  | tail _ hst ih => exact hstep _ _ _ _ ih hst

/-- The invariant rule for a property of the state alone. -/
theorem invariant {I : σ → Prop} (hstep : ∀ t a u, I t → step t a u → I u)
    (h : Run step s as u) (hs : I s) : I u :=
  invariantTrace (I := fun _ t => I t) (fun _ t a u => hstep t a u) h hs

/-- **The simulation rule.** `R` relates concrete to abstract states; each concrete step from related
    states has an abstract step with the same label back into `R`. -/
theorem simulates {astep : τ → α → τ → Prop} {R : σ → τ → Prop}
    (hstep : ∀ t a u q, R t q → step t a u → ∃ q', astep q a q' ∧ R u q')
    (h : Run step s as u) {q : τ} (hq : R s q) : ∃ q', Run astep q as q' ∧ R u q' := by
  induction h with
  | refl => exact ⟨q, Run.refl, hq⟩
  | tail _ hst ih =>
      obtain ⟨q₁, hr₁, hR₁⟩ := ih
      obtain ⟨q₂, hs₂, hR₂⟩ := hstep _ _ _ _ hR₁ hst
      exact ⟨q₂, Run.tail hr₁ hs₂, hR₂⟩

/-! ## Checking a run -/

/-- `p` of every label and the state it is met in, along the run that `next` computes. -/
def meets (next : σ → α → Option σ) (p : σ → α → Bool) : σ → List α → Bool
  | _, [] => true
  | s, a :: as => p s a && (next s a).all fun t => meets next p t as

theorem of_meets (next : σ → α → Option σ) (p : σ → α → Bool) (hnext : ∀ s a t, step s a t → next s a = some t)
    (h : meets next p s as = true) (hbs : bs ++ [a] <+: as) (hrun : Run step s bs t) : p t a = true := by
  induction as generalizing s bs with
  | nil => simp at hbs
  | cons b as ih =>
      obtain ⟨hfirst, hrest⟩ := Bool.and_eq_true_iff.mp h
      rcases hrun.head_cases with ⟨rfl, rfl⟩ | ⟨u, c, cs, rfl, hstep, hrun⟩
      · obtain ⟨rfl, -⟩ := List.cons_prefix_cons.mp hbs
        exact hfirst
      · obtain ⟨rfl, hcs⟩ := List.cons_prefix_cons.mp hbs
        rw [hnext s c u hstep] at hrest
        exact ih hrest hcs hrun

end Run

end Lib
end Snippets
