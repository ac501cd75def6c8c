import Mathlib.Algebra.GroupWithZero.Nat
import Mathlib.Data.List.Forall2
import Mathlib.Data.List.Infix

/-!
# `Lib.Lockstep` — two runs of one program that agree

A call either fails, or goes on in a new state with a result. Two calls are in lockstep when both fail or both return
related results (`Option.Rel`): `rel_bind` and `rel_map` carry that through a computation.

`observe` is what a client sees of a sequence of calls, up to the first that fails. `observeWith` is what it sees when other
calls, the *peeks*, are made in between, whose results it does not look at. When each peek keeps a relation between the
states of the two runs and the calls are in lockstep under it, the peeks cannot be seen (`observeWith_spec`). A call may be
made differently in the two runs, and needs to be in lockstep only in the states that they reach (`Together`).
-/

namespace Snippets
namespace Lib

/-! ## Computations that may fail -/

section Rel

variable {α β γ δ : Type*} {R : α → β → Prop} {S : γ → δ → Prop} {x : Option α} {y : Option β}

/-- The rule of sequencing. -/
theorem rel_bind {k : α → Option γ} {l : β → Option δ} (h : Option.Rel R x y)
    (hk : ∀ a b, R a b → Option.Rel S (k a) (l b)) : Option.Rel S (x.bind k) (y.bind l) := by
  cases h with
  | some hab => exact hk _ _ hab
  | none => exact Option.Rel.none

theorem rel_map {g : α → γ} {k : β → δ} (h : Option.Rel R x y) (hg : ∀ a b, R a b → S (g a) (k b)) :
    Option.Rel S (x.map g) (y.map k) := by
  cases h with
  | some hab => exact Option.Rel.some (hg _ _ hab)
  | none => exact Option.Rel.none

theorem rel_map_left {g : α → γ} {S : γ → β → Prop} (h : Option.Rel (fun a b => S (g a) b) x y) : Option.Rel S (x.map g) y := by
  cases h with
  | some hab => exact Option.Rel.some hab
  | none => exact Option.Rel.none

theorem rel_mono {R' : α → β → Prop} (h : Option.Rel R x y) (hR : ∀ a b, R a b → R' a b) : Option.Rel R' x y := by
  cases h with
  | some hab => exact Option.Rel.some (hR _ _ hab)
  | none => exact Option.Rel.none

/-- The relation may use what the results are. -/
theorem rel_of_results {R' : α → β → Prop} (h : Option.Rel R x y) (hR : ∀ a b, x = some a → y = some b → R a b → R' a b) :
    Option.Rel R' x y := by
  cases h with
  | some hab => exact Option.Rel.some (hR _ _ rfl rfl hab)
  | none => exact Option.Rel.none

/-- A check that comes out the same. -/
theorem rel_guard {p q : Prop} [Decidable p] [Decidable q] (h : p ↔ q) :
    Option.Rel (fun _ _ => True) (guard p : Option Unit) (guard q : Option Unit) := by
  by_cases hp : p
  · simp only [guard, if_pos hp, if_pos (h.mp hp)]
    exact Option.Rel.some trivial
  · simp only [guard, if_neg hp, if_neg (mt h.mpr hp)]
    exact Option.Rel.none

/-- Results that look alike under `g`. -/
theorem map_eq_of_rel {x y : Option α} {g : α → γ} (h : Option.Rel (fun a b => g b = g a) x y) : y.map g = x.map g := by
  cases h with
  | some heq => exact congrArg some heq
  | none => rfl

end Rel

/-! ## Lists, position by position -/

section Positions

variable {α β : Type*} {R : α → β → Prop} {xs : List α} {ys : List β} {a : α} {b : β}

theorem forall₂_getElem? (h : List.Forall₂ R xs ys) (i : Nat) : Option.Rel R xs[i]? ys[i]? := by
  induction h generalizing i with
  | nil => exact Option.Rel.none
  | cons hab _ ih =>
      cases i with
      | zero => exact Option.Rel.some hab
      | succ i => exact ih i

/-- The rule of composition. -/
theorem forall₂_comp {γ : Type*} {T : β → γ → Prop} {zs : List γ} (h : List.Forall₂ R xs ys) (h' : List.Forall₂ T ys zs) :
    List.Forall₂ (fun x z => ∃ y ∈ ys, R x y ∧ T y z) xs zs := by
  induction h generalizing zs with
  | nil =>
      cases h'
      exact List.Forall₂.nil
  | @cons x y xs ys hxy _ ih =>
      cases h' with
      | cons hyz hrest =>
          refine List.Forall₂.cons ⟨y, List.mem_cons_self, hxy, hyz⟩ ((ih hrest).imp ?_)
          rintro a c ⟨b, hb, hS, hT⟩
          exact ⟨b, List.mem_cons_of_mem _ hb, hS, hT⟩

theorem exists_of_mem_right {y : β} (h : List.Forall₂ R xs ys) (hy : y ∈ ys) : ∃ x ∈ xs, R x y := by
  obtain ⟨i, hi⟩ := List.mem_iff_getElem?.mp hy
  have hrel := forall₂_getElem? h i
  rw [hi] at hrel
  cases hx : xs[i]? with
  | none =>
      rw [hx] at hrel
      cases hrel
  | some x =>
      rw [hx] at hrel
      cases hrel with
      | some hxy => exact ⟨x, List.mem_of_getElem? hx, hxy⟩

theorem forall₂_set (h : List.Forall₂ R xs ys) (hab : R a b) (i : Nat) : List.Forall₂ R (xs.set i a) (ys.set i b) := by
  induction h generalizing i with
  | nil => exact List.Forall₂.nil
  | cons hxy hrest ih =>
      cases i with
      | zero => exact List.Forall₂.cons hab hrest
      | succ i => exact List.Forall₂.cons hxy (ih i)

theorem forall₂_eraseIdx (h : List.Forall₂ R xs ys) (i : Nat) : List.Forall₂ R (xs.eraseIdx i) (ys.eraseIdx i) := by
  rw [List.eraseIdx_eq_take_drop_succ, List.eraseIdx_eq_take_drop_succ]
  exact List.rel_append (List.forall₂_take i h) (List.forall₂_drop (i + 1) h)

/-- Searches for what looks the same find partners. -/
theorem forall₂_find? {p : α → Bool} {q : β → Bool} (h : List.Forall₂ R xs ys) (hpq : ∀ x y, R x y → p x = q y) :
    Option.Rel R (xs.find? p) (ys.find? q) := by
  induction h with
  | nil => exact Option.Rel.none
  | @cons x y xs ys hxy _ ih =>
      cases hp : p x with
      | true =>
          rw [List.find?_cons_of_pos hp, List.find?_cons_of_pos ((hpq x y hxy).symm.trans hp)]
          exact Option.Rel.some hxy
      | false =>
          rw [List.find?_cons_of_neg (by simp [hp]), List.find?_cons_of_neg (by simp [← hpq x y hxy, hp])]
          exact ih

/-- The rule of a computation for each element. -/
theorem rel_mapM {γ δ : Type*} {S : γ → δ → Prop} {k : α → Option γ} {l : β → Option δ} (h : List.Forall₂ R xs ys)
    (hkl : ∀ x y, R x y → Option.Rel S (k x) (l y)) : Option.Rel (List.Forall₂ S) (xs.mapM k) (ys.mapM l) := by
  induction h with
  | nil => exact Option.Rel.some List.Forall₂.nil
  | @cons x y xs ys hxy _ ih =>
      rw [List.mapM_cons, List.mapM_cons]
      refine rel_bind (hkl x y hxy) ?_
      intro c e hce
      refine rel_bind ih ?_
      intro cs es hrest
      exact Option.Rel.some (List.Forall₂.cons hce hrest)

theorem exists_forall₂ (h : ∀ x ∈ xs, ∃ y, R x y) : ∃ ys, List.Forall₂ R xs ys := by
  induction xs with
  | nil => exact ⟨[], List.Forall₂.nil⟩
  | cons x xs ih =>
      obtain ⟨y, hy⟩ := h x List.mem_cons_self
      obtain ⟨ys, hys⟩ := ih fun z hz => h z (List.mem_cons_of_mem _ hz)
      exact ⟨y :: ys, List.Forall₂.cons hy hys⟩

/-- Finitely many bounds have a common one. -/
theorem forall₂_bound {P : Nat → α → β → Prop} (h : List.Forall₂ (fun x y => ∃ d, ∀ d' ≥ d, P d' x y) xs ys) :
    ∃ d, ∀ d' ≥ d, List.Forall₂ (P d') xs ys := by
  induction h with
  | nil => exact ⟨0, fun _ _ => List.Forall₂.nil⟩
  | cons hxy _ ih =>
      obtain ⟨d, hd⟩ := hxy
      obtain ⟨e, he⟩ := ih
      refine ⟨max d e, ?_⟩
      intro d' hd'
      exact List.Forall₂.cons (hd d' (Nat.le_trans (Nat.le_max_left _ _) hd')) (he d' (Nat.le_trans (Nat.le_max_right _ _) hd'))

theorem map_eq_of_forall₂ {γ : Type*} {k : α → γ} {l : β → γ} (h : List.Forall₂ R xs ys)
    (hkl : ∀ x y, x ∈ xs → R x y → l y = k x) : ys.map l = xs.map k := by
  induction h with
  | nil => rfl
  | @cons x y xs ys hxy _ ih =>
      rw [List.map_cons, List.map_cons, hkl x y List.mem_cons_self hxy]
      exact congrArg (k x :: ·) (ih fun z w hz => hkl z w (List.mem_cons_of_mem _ hz))

theorem sum_le_of_forall₂ {f : α → Nat} {g : β → Nat} (h : List.Forall₂ R xs ys)
    (hle : ∀ x y, R x y → g y ≤ f x) : (ys.map g).sum ≤ (xs.map f).sum := by
  induction h with
  | nil => exact Nat.le_refl _
  | cons hxy _ ih =>
      rw [List.map_cons, List.map_cons, List.sum_cons, List.sum_cons]
      exact Nat.add_le_add (hle _ _ hxy) ih

/-- When the sums are the same, no element is smaller. -/
theorem exists_eq_of_sum_eq {f : α → Nat} {g : β → Nat} (h : List.Forall₂ R xs ys)
    (hle : ∀ x y, R x y → g y ≤ f x) (heq : (ys.map g).sum = (xs.map f).sum) : ∀ x ∈ xs, ∃ y, R x y ∧ g y = f x := by
  induction h with
  | nil =>
      intro x hx
      cases hx
  | @cons x y xs ys hxy hrest ih =>
      rw [List.map_cons, List.map_cons, List.sum_cons, List.sum_cons] at heq
      have hfirst := hle _ _ hxy
      have hsum := sum_le_of_forall₂ hrest hle
      intro z hz
      rcases List.mem_cons.mp hz with rfl | hz
      · exact ⟨y, hxy, by omega⟩
      · exact ih (by omega) z hz

end Positions

/-! ## What a client sees -/

variable {σ ι κ β : Type*} {exec exec' : ι → σ → Option (σ × β)} {peek : κ → σ → Option σ} {good : σ → σ → ι → Prop}

/-- The results of the calls, up to the first that fails. -/
def observe (exec : ι → σ → Option (σ × β)) : σ → List ι → List (Option β)
  | _, [] => []
  | s, c :: cs =>
      match exec c s with
      | some (s', b) => some b :: observe exec s' cs
      | none => [none]

/-- The same with peeks in between: nothing comes after a peek that fails. -/
def observeWith (exec : ι → σ → Option (σ × β)) (peek : κ → σ → Option σ) : σ → List (ι ⊕ κ) → List (Option β)
  | _, [] => []
  | s, .inl c :: as =>
      match exec c s with
      | some (s', b) => some b :: observeWith exec peek s' as
      | none => [none]
  | s, .inr k :: as =>
      match peek k s with
      | some s' => observeWith exec peek s' as
      | none => []

/-- The calls without the peeks. -/
def calls (as : List (ι ⊕ κ)) : List ι := as.filterMap Sum.getLeft?

/-- Every peek that is made returns. -/
def PeeksReturn (exec : ι → σ → Option (σ × β)) (peek : κ → σ → Option σ) : σ → List (ι ⊕ κ) → Prop
  | _, [] => True
  | s, .inl c :: as => ∀ s' b, exec c s = some (s', b) → PeeksReturn exec peek s' as
  | s, .inr k :: as => ∃ s', peek k s = some s' ∧ PeeksReturn exec peek s' as

/-- Every call is made where it is good: in the state of the run without peeks, by `exec`, and in the state of the run with
    them, by `exec'`. -/
def Together (exec exec' : ι → σ → Option (σ × β)) (peek : κ → σ → Option σ) (good : σ → σ → ι → Prop) :
    σ → σ → List (ι ⊕ κ) → Prop
  | _, _, [] => True
  | s, t, .inl c :: as => good s t c ∧ ∀ s' t' b b', exec c s = some (s', b) → exec' c t = some (t', b') →
      Together exec exec' peek good s' t' as
  | s, t, .inr k :: as => ∀ t', peek k t = some t' → Together exec exec' peek good s t' as

section Unseen

variable {R : σ → σ → Prop} {s t : σ} {as : List (ι ⊕ κ)}
  (hexec : ∀ c s t, R s t → good s t c → Option.Rel (fun r r' => R r.1 r'.1 ∧ r.2 = r'.2) (exec c s) (exec' c t))
  (hpeek : ∀ k s t t', R s t → peek k t = some t' → R s t')

include hexec hpeek

/-- **Peeks are not seen**: up to a peek that fails, the results are those of the run without peeks, and if no peek fails
    they are all of them. -/
theorem observeWith_spec (hR : R s t) (hgood : Together exec exec' peek good s t as) :
    observeWith exec' peek t as <+: observe exec s (calls as) ∧
      (PeeksReturn exec' peek t as → observeWith exec' peek t as = observe exec s (calls as)) := by
  induction as generalizing s t with
  | nil => exact ⟨List.nil_prefix, fun _ => rfl⟩
  | cons a as ih =>
      cases a with
      | inl c =>
          -- a call: both runs fail here, or both go on with the same result
          obtain ⟨hc, hrest⟩ := hgood
          have hrel := hexec c s t hR hc
          have hcalls : calls (.inl c :: as : List (ι ⊕ κ)) = c :: calls as := rfl
          rw [hcalls]
          unfold observeWith observe
          cases hs : exec c s with
          | none =>
              cases ht : exec' c t with
              | none => exact ⟨List.prefix_rfl, fun _ => rfl⟩
              | some r' =>
                  rw [hs, ht] at hrel
                  cases hrel
          | some r =>
              cases ht : exec' c t with
              | none =>
                  rw [hs, ht] at hrel
                  cases hrel
              | some r' =>
                  rw [hs, ht] at hrel
                  cases hrel with
                  | some h =>
                      obtain ⟨hpre, heq⟩ := ih h.1 (hrest _ _ _ _ hs ht)
                      dsimp only
                      rw [h.2]
                      refine ⟨(List.prefix_cons_inj _).mpr hpre, ?_⟩
                      intro hreturn
                      rw [heq (hreturn _ _ ht)]
      | inr k =>
          -- a peek: only the run with peeks moves
          have hcalls : calls (.inr k :: as : List (ι ⊕ κ)) = calls as := rfl
          rw [hcalls]
          unfold observeWith
          cases ht : peek k t with
          | none =>
              refine ⟨List.nil_prefix, ?_⟩
              rintro ⟨t', ht', -⟩
              rw [ht] at ht'
              cases ht'
          | some t' =>
              obtain ⟨hpre, heq⟩ := ih (hpeek k s t t' hR ht) (hgood t' ht)
              refine ⟨hpre, ?_⟩
              rintro ⟨t'', ht'', hreturn⟩
              rw [ht] at ht''
              cases ht''
              exact heq hreturn

end Unseen

end Lib
end Snippets
