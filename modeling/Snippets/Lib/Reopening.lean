import Snippets.Lib.Run

/-!
# `Lib.Reopening` — components that are saved and opened again

Between its calls a component may be put away and opened again, as often as one likes. When every call is matched by a
call of an abstract machine and every opening gives back a component for the same abstract state, the machine never
sees the openings: over the whole life, its run is the run of the calls alone.
-/

namespace Snippets
namespace Lib

variable {σ τ α ρ : Type*}

namespace Reopening

/-- A call, with what it returned, or an opening. -/
inductive Event (α ρ : Type*)
  | call (a : α)
  | reopen (r : ρ)

/-- One step in the life of a component. -/
def Life (step : σ → α → σ → Prop) (reopen : σ → ρ → σ → Prop) (s : σ) : Event α ρ → σ → Prop
  | .call a, t => step s a t
  | .reopen r, t => reopen s r t

/-- The calls in a life. -/
def calls : List (Event α ρ) → List α
  | [] => []
  | .call a :: es => a :: calls es
  | .reopen _ :: es => calls es

@[simp] theorem calls_append (es fs : List (Event α ρ)) : calls (es ++ fs) = calls es ++ calls fs := by
  induction es with
  | nil => rfl
  | cons e es ih => cases e <;> simp [calls, ih]

@[simp] theorem calls_call (a : α) : calls [(.call a : Event α ρ)] = [a] := rfl

@[simp] theorem calls_reopen (r : ρ) : calls [(.reopen r : Event α ρ)] = [] := rfl

variable {step : σ → α → σ → Prop} {reopen : σ → ρ → σ → Prop} {astep : τ → α → τ → Prop} {R : σ → τ → Prop}

/-- **The rule for a life**: openings are invisible to the abstract machine. -/
theorem simulates {s u : σ} {q : τ} {es : List (Event α ρ)} (h : Run (Life step reopen) s es u) (hq : R s q)
    (hstep : ∀ s a t q, R s q → step s a t → ∃ q', astep q a q' ∧ R t q')
    (hreopen : ∀ s r t q, R s q → reopen s r t → R t q) : ∃ q', Run astep q (calls es) q' ∧ R u q' := by
  induction h with
  | refl => exact ⟨q, .refl, hq⟩
  | @tail t u es e _ hlast ih =>
      obtain ⟨q₁, hrun, h₁⟩ := ih
      cases e with
      | call a =>
          obtain ⟨q₂, hcall, h₂⟩ := hstep t a u q₁ h₁ hlast
          refine ⟨q₂, ?_, h₂⟩
          rw [calls_append, calls_call]
          exact hrun.tail hcall
      | reopen r =>
          refine ⟨q₁, ?_, hreopen t r u q₁ h₁ hlast⟩
          rw [calls_append, calls_reopen, List.append_nil]
          exact hrun

end Reopening

end Lib
end Snippets
