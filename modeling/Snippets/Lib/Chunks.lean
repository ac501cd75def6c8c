import Mathlib.Data.List.Induction

/-!
# `Lib.Chunks` — cutting a sequence into chunks as it arrives

A writer that files items one after another, and at each item decides from the current chunk (and the item)
whether to start a new one first. `add` is one such step, `chunks cut xs` the chunks it has filed after `xs`,
oldest first, the current one last.

Two facts are what a client uses: nothing is lost, split or reordered (`chunks_flatten`), and the cuts fall
exactly where the rule puts them (`chunks_closed`, `chunks_last`).
-/

namespace Snippets
namespace Lib

variable {α : Type*}

/-- The chunks finished so far, oldest first, and the current one. -/
structure Chunks (α : Type*) where
  closed : List (List α)
  cur : List α

namespace Chunks

variable (cut : List α → α → Bool)

def empty : Chunks α := ⟨[], []⟩

/-- Every chunk, the current one last. -/
def all (s : Chunks α) : List (List α) := s.closed ++ [s.cur]

/-- Finish the current chunk. -/
def roll (s : Chunks α) : Chunks α := ⟨s.closed ++ [s.cur], []⟩

/-- Put an item into the current chunk. -/
def put (s : Chunks α) (x : α) : Chunks α := ⟨s.closed, s.cur ++ [x]⟩

/-- File one item: into a new chunk when `cut` says so. -/
def add (s : Chunks α) (x : α) : Chunks α := if cut s.cur x then s.roll.put x else s.put x

@[simp] theorem empty_all : (empty : Chunks α).all = [[]] := rfl

@[simp] theorem roll_all (s : Chunks α) : s.roll.all = s.all ++ [[]] := by simp [roll, all]

@[simp] theorem roll_cur (s : Chunks α) : s.roll.cur = [] := rfl

@[simp] theorem roll_closed (s : Chunks α) : s.roll.closed = s.closed ++ [s.cur] := rfl

@[simp] theorem put_cur (s : Chunks α) (x : α) : (s.put x).cur = s.cur ++ [x] := rfl

@[simp] theorem put_closed (s : Chunks α) (x : α) : (s.put x).closed = s.closed := rfl

@[simp] theorem put_flatten (s : Chunks α) (x : α) : (s.put x).all.flatten = s.all.flatten ++ [x] := by
  simp [put, all]

theorem add_cases (s : Chunks α) (x : α) :
    (cut s.cur x = true ∧ s.add cut x = s.roll.put x) ∨ (cut s.cur x = false ∧ s.add cut x = s.put x) := by
  unfold add
  cases h : cut s.cur x with
  | true => exact Or.inl ⟨rfl, if_pos rfl⟩
  | false => exact Or.inr ⟨rfl, if_neg (by simp)⟩

/-- Roll where the rule says so, then put. -/
theorem add_eq (s : Chunks α) (x : α) : s.add cut x = (if cut s.cur x then s.roll else s).put x := by
  rcases add_cases cut s x with ⟨hcut, h⟩ | ⟨hcut, h⟩ <;> simp [h, hcut]

@[simp] theorem add_flatten (s : Chunks α) (x : α) : (s.add cut x).all.flatten = s.all.flatten ++ [x] := by
  rcases add_cases cut s x with ⟨-, h⟩ | ⟨-, h⟩ <;> simp [h]

end Chunks

/-- The chunks of `xs` under the rule `cut`. -/
def chunks (cut : List α → α → Bool) (xs : List α) : Chunks α := xs.foldl (Chunks.add cut) Chunks.empty

variable {cut : List α → α → Bool}

@[simp] theorem chunks_nil : chunks cut [] = Chunks.empty := rfl

@[simp] theorem chunks_snoc (xs : List α) (x : α) : chunks cut (xs ++ [x]) = (chunks cut xs).add cut x := by
  simp [chunks, List.foldl_append]

/-- Nothing is lost, split or reordered. -/
theorem chunks_flatten (xs : List α) : (chunks cut xs).all.flatten = xs := by
  induction xs using List.reverseRecOn with
  | nil => simp
  | append_singleton xs x ih => simp [ih]

/-- Cut where the rule says: the item that starts a chunk is one the rule keeps out of the chunk before, and
    every other item is one the rule lets into the chunk as it then is. -/
def CutBy (cut : List α → α → Bool) (c : List α) : Prop :=
  ∀ pre x post, c = pre ++ x :: post → pre ≠ [] → cut pre x = false

theorem cutBy_singleton (x : α) : CutBy cut [x] := by
  intro pre y post hc hpre
  cases pre with
  | nil => exact absurd rfl hpre
  | cons z zs => simp at hc

theorem CutBy.snoc {c : List α} {x : α} (h : CutBy cut c) (hx : cut c x = false) : CutBy cut (c ++ [x]) := by
  intro pre y post hc hpre
  rcases List.eq_nil_or_concat post with rfl | ⟨post, z, rfl⟩
  · obtain ⟨rfl, hy⟩ := List.append_inj' (show c ++ [x] = pre ++ [y] from hc) rfl
    obtain rfl : x = y := by simpa using hy
    exact hx
  · have hc' : c ++ [x] = (pre ++ y :: post) ++ [z] := by simpa using hc
    exact h pre y post (List.append_inj' hc' rfl).1 hpre

/-- Every chunk was filled only as far as the rule allows. -/
theorem chunks_cutBy (xs : List α) : ∀ c ∈ (chunks cut xs).all, CutBy cut c := by
  induction xs using List.reverseRecOn with
  | nil =>
      intro c hc pre x post hpre
      obtain rfl : c = [] := by simpa using hc
      simp at hpre
  | append_singleton xs x ih =>
      intro c hc
      rw [chunks_snoc] at hc
      rcases Chunks.add_cases cut (chunks cut xs) x with ⟨-, h⟩ | ⟨hx, h⟩ <;> rw [h] at hc
      · rcases List.mem_append.mp hc with hc | hc
        · exact ih c hc
        · obtain rfl : c = [x] := by simpa [Chunks.roll, Chunks.put] using hc
          exact cutBy_singleton x
      · rcases List.mem_append.mp hc with hc | hc
        · exact ih c (List.mem_append_left _ hc)
        · obtain rfl : c = (chunks cut xs).cur ++ [x] := by simpa using hc
          exact (ih _ (by simp [Chunks.all])).snoc hx

/-- Two neighbours in a list that ends with `a` are its last two items or neighbours before `a`. -/
theorem neighbours_snoc {as us vs : List α} {a c d : α} (h : as ++ [a] = us ++ c :: d :: vs) :
    (as = us ++ [c] ∧ a = d) ∨ ∃ vs', as = us ++ c :: d :: vs' := by
  rcases List.eq_nil_or_concat vs with rfl | ⟨vs, v, rfl⟩
  · have h' : as ++ [a] = (us ++ [c]) ++ [d] := by simpa using h
    obtain ⟨has, ha⟩ := List.append_inj' h' rfl
    exact Or.inl ⟨has, by simpa using ha⟩
  · have h' : as ++ [a] = (us ++ c :: d :: vs) ++ [v] := by simpa using h
    exact Or.inr ⟨vs, (List.append_inj' h' rfl).1⟩

/-- A chunk is finished only when the rule keeps the first item of the next one out of it. -/
theorem chunks_consecutive (xs : List α) {us vs : List (List α)} {c d : List α}
    (h : (chunks cut xs).all = us ++ c :: d :: vs) : ∃ x, d.head? = some x ∧ cut c x = true := by
  induction xs using List.reverseRecOn generalizing us vs c d with
  | nil =>
      have hlen := congrArg List.length h
      simp only [chunks_nil, Chunks.empty_all, List.length_append, List.length_cons, List.length_nil] at hlen
      omega
  | append_singleton xs x ih =>
      rw [chunks_snoc] at h
      rcases Chunks.add_cases cut (chunks cut xs) x with ⟨hx, ha⟩ | ⟨-, ha⟩ <;> rw [ha] at h
      · -- `x` starts a chunk of its own, after the one that was current
        have h' : (chunks cut xs).all ++ [[x]] = us ++ c :: d :: vs := by
          simpa [Chunks.all, Chunks.put, Chunks.roll] using h
        rcases neighbours_snoc h' with ⟨hall, rfl⟩ | ⟨vs', hall⟩
        · obtain ⟨-, hc⟩ := List.append_inj' hall rfl
          obtain rfl : (chunks cut xs).cur = c := by simpa using hc
          exact ⟨x, rfl, hx⟩
        · exact ih hall
      · -- `x` joins the current chunk, whose first item it is not, or which is the only one
        have h' : (chunks cut xs).closed ++ [(chunks cut xs).cur ++ [x]] = us ++ c :: d :: vs := h
        rcases neighbours_snoc h' with ⟨hclosed, rfl⟩ | ⟨vs', hclosed⟩
        · have hall : (chunks cut xs).all = us ++ c :: (chunks cut xs).cur :: [] := by
            simp [Chunks.all, hclosed]
          obtain ⟨y, hy, hcut⟩ := ih hall
          exact ⟨y, by simp [hy], hcut⟩
        · have hall : (chunks cut xs).all = us ++ c :: d :: (vs' ++ [(chunks cut xs).cur]) := by
            simp [Chunks.all, hclosed]
          exact ih hall

end Lib
end Snippets
