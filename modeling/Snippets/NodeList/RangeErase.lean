import Snippets.NodeList.Refinement

/-!
# `NodeList.RangeErase` — `erase(first, last)`

The loop erases the node it stands on and then follows the `next` of that node, which is free by now: nothing writes to the
payload of a slice that is given back, so the link still leads to the node behind (`next_kept`), and the loop takes out
exactly the range, up to `end()` too. What `end()` does not survive is the result, which is computed first: `++` of a copy of
`last` asserts that there is a node.
-/

namespace Snippets

open Lib

namespace NodeList

open BoundedDeque (Op Answer ids)

variable {T : Type} {s s' : NodeList T} {as bs ms xs : List (NodeId × T)} {x : NodeId × T} {i j : Nat}

/-- The iterator at a position, `end()` for the one behind the last. -/
def position (xs : List (NodeId × T)) (i : Nat) : NodeId := (ids (xs.drop i)).headD kInvalidNodeId

/-- **A range is erased**: no assert fails, the elements before and behind the range stay in order under their ids, seen from
    both ends, and the size is lowered by the length of the range. -/
def ErasesRange (s : NodeList T) (xs : List (NodeId × T)) (i j : Nat) : Prop :=
  ∃ s' res, s.eraseRange (position xs i) (position xs j) = some (s', res) ∧ s'.walk .front = some (xs.take i ++ xs.drop j) ∧
    s'.walk .back = some (xs.take i ++ xs.drop j).reverse ∧ s'.size = some (xs.length - (j - i))

/-- The lists a client can have: calls that are legal for what the list contains, and ranges erased. -/
inductive Reached (start len nodeSize : Nat) : NodeList T → Prop
  | created {mem : Mem} {nodes : NodeId → Node T} {s : NodeList T} :
      createFrom start len nodeSize mem nodes = some (some s) → Reached start len nodeSize s
  | call {s s' : NodeList T} {xs : List (NodeId × T)} {op : Op NodeId T} {answer : Answer NodeId T} :
      Reached start len nodeSize s → s.walk .front = some xs → BoundedDeque.Legal xs op → s.step op = some (s', answer) →
        Reached start len nodeSize s'
  | erased {s s' : NodeList T} {xs : List (NodeId × T)} {i j : Nat} {res : NodeId} :
      Reached start len nodeSize s → s.walk .front = some xs → i ≤ j → j ≤ xs.length →
        s.eraseRange (position xs i) (position xs j) = some (s', res) → Reached start len nodeSize s'

/-! ## The loop -/

namespace Holds

/-- A node that has been taken out still has its link. -/
theorem next_kept {val : T} (h : Holds s (as ++ x :: bs)) (hunlink : s.unlink x.1 = some (s', val)) :
    (s'.nodes x.1).next = (ids bs).headD kInvalidNodeId := by
  have hi : x.1 ∈ ids (as ++ x :: bs) := List.mem_map_of_mem (List.mem_append_right _ List.mem_cons_self)
  have hinvalid : kInvalidNodeId ∉ ids (as ++ x :: bs) := fun hin => (h.chain .front).ne_nil _ hin rfl
  have hself := (h.chain .front).prev_ne_self h.nodup hinvalid hi
  obtain ⟨s'', -, hunlink', hu, -⟩ := h.unlinked
  obtain rfl : s'' = s' := by
    rw [hunlink'] at hunlink
    exact congrArg Prod.fst (Option.some.inj hunlink)
  have hlink : (links s''.nodes .front).next x.1 = (links s.nodes .front).next x.1 := by
    rw [hu.links]
    exact Links.unlink_next_ne (Ne.symm hself)
  exact hlink.trans h.next_eq

/-- `erase(pos)` and the `++` of the iterator it has invalidated. -/
theorem erase_advance (h : Holds s (as ++ x :: bs)) :
    ∃ s' next, s.erase x.1 = some (s', next) ∧ s'.advance x.1 = some ((ids bs).headD kInvalidNodeId) ∧ Holds s' (as ++ bs) ∧
      s'.capacity = s.capacity := by
  have hpos : 0 ≤ x.1 := h.valid (List.mem_map_of_mem (List.mem_append_right _ List.mem_cons_self))
  obtain ⟨s', hunlink, h', hcap⟩ := h.unlink
  have hkept := h.next_kept hunlink
  refine ⟨s', (s.nodes x.1).next, ?_, ?_, h', hcap⟩
  · unfold NodeList.erase
    simp [ne_invalid hpos, node_of_pos hpos, hunlink]
  · unfold NodeList.advance
    simp [ne_invalid hpos, node_of_pos hpos, hkept]

/-- No element of the range has the position behind it. -/
theorem ne_behind (h : Holds s (as ++ x :: ms ++ bs)) : x.1 ≠ (ids bs).headD kInvalidNodeId := by
  have hi : x.1 ∈ ids (as ++ x :: ms ++ bs) := List.mem_map_of_mem (by simp)
  cases bs with
  | nil => exact ne_invalid (h.valid hi)
  | cons b bs =>
      intro heq
      have hnd := h.nodup
      have heq' : x.1 = b.1 := heq
      unfold ids at hnd
      rw [List.append_assoc, List.map_append, List.cons_append, List.map_cons] at hnd
      obtain ⟨-, hnd, -⟩ := List.nodup_append.mp hnd
      have hmem : b.1 ∈ (ms ++ b :: bs).map Prod.fst := List.mem_map_of_mem (List.mem_append_right _ List.mem_cons_self)
      exact (List.nodup_cons.mp hnd).1 (heq' ▸ hmem)

/-- **The loop takes out the range.** By induction on what is left of it. -/
theorem eraseLoop (h : Holds s (as ++ ms ++ bs)) {fuel : Nat} (hfuel : ms.length ≤ fuel) :
    ∃ s', s.eraseLoop ((ids bs).headD kInvalidNodeId) fuel ((ids (ms ++ bs)).headD kInvalidNodeId) = some s' ∧
      Holds s' (as ++ bs) ∧ s'.capacity = s.capacity := by
  induction ms generalizing s fuel with
  | nil =>
      rw [List.append_nil] at h
      refine ⟨s, ?_, h, rfl⟩
      unfold NodeList.eraseLoop
      rw [List.nil_append, if_pos rfl]
  | cons x ms ih =>
      cases fuel with
      | zero => exact absurd hfuel (by simp)
      | succ fuel =>
          have hne : x.1 ≠ (ids bs).headD kInvalidNodeId := h.ne_behind
          have hsplit : as ++ x :: ms ++ bs = as ++ x :: (ms ++ bs) := by simp
          rw [hsplit] at h
          obtain ⟨s₁, next, herase, hadvance, h₁, hcap₁⟩ := h.erase_advance
          rw [← List.append_assoc] at h₁
          obtain ⟨s', hloop, h', hcap⟩ := ih h₁ (Nat.le_of_succ_le_succ hfuel)
          refine ⟨s', ?_, h', hcap.trans hcap₁⟩
          unfold NodeList.eraseLoop
          have hhead : (ids (x :: ms ++ bs)).headD kInvalidNodeId = x.1 := rfl
          rw [hhead, if_neg hne]
          simp only [herase, hadvance, Option.bind_eq_bind, Option.bind_some]
          exact hloop

/-- `++` of the iterator at an element. -/
theorem advance_position (h : Holds s xs) (hj : j < xs.length) :
    s.advance (position xs j) = some (position xs (j + 1)) := by
  have hsplit : xs = xs.take j ++ xs[j] :: xs.drop (j + 1) := by
    rw [List.getElem_cons_drop, List.take_append_drop]
  have hpos : 0 ≤ xs[j].1 := h.valid (List.mem_map_of_mem (List.getElem_mem hj))
  have hat : position xs j = xs[j].1 := by
    unfold position
    rw [← List.getElem_cons_drop hj]
    rfl
  rw [hsplit] at h
  rw [hat]
  unfold NodeList.advance
  simp [ne_invalid hpos, node_of_pos hpos, h.next_eq, position]

/-- **`erase(first, last)`** of a range with an element behind it. -/
theorem eraseRange (h : Holds s xs) (hij : i ≤ j) (hj : j < xs.length) :
    ∃ s', s.eraseRange (position xs i) (position xs j) = some (s', position xs (j + 1)) ∧
      Holds s' (xs.take i ++ xs.drop j) := by
  have hrange : xs.drop i = (xs.drop i).take (j - i) ++ xs.drop j := by
    conv_lhs => rw [← List.take_append_drop (j - i) (xs.drop i), List.drop_drop]
    rw [show i + (j - i) = j by omega]
  have hsplit : Holds s (xs.take i ++ (xs.drop i).take (j - i) ++ xs.drop j) := by
    rw [List.append_assoc, ← hrange, List.take_append_drop]
    exact h
  have hroom : xs.length ≤ s.ml.capacity := h.length_le
  have hfuel : ((xs.drop i).take (j - i)).length ≤ s.ml.capacity + 1 := by
    rw [List.length_take, List.length_drop]
    omega
  obtain ⟨s', hloop, h', -⟩ := hsplit.eraseLoop hfuel
  rw [← hrange] at hloop
  refine ⟨s', ?_, h'⟩
  unfold NodeList.eraseRange
  simp only [h.advance_position hj, Option.bind_eq_bind, Option.bind_some]
  rw [show position xs j = (ids (xs.drop j)).headD kInvalidNodeId from rfl,
    show position xs i = (ids (xs.drop i)).headD kInvalidNodeId from rfl, hloop]
  rfl

end Holds

theorem position_length (xs : List (NodeId × T)) : position xs xs.length = kInvalidNodeId := by
  unfold position
  rw [List.drop_length]
  rfl

/-- With `end()` for `last` the result cannot be computed. -/
theorem eraseRange_end (s : NodeList T) (first : NodeId) : s.eraseRange first kInvalidNodeId = none := rfl

/-! ## Lists that a client has -/

/-- Every list is in order. -/
theorem Reached.holds {start len nodeSize : Nat}
    (hfit : MemoryList.SumsFit (start + kHeaderSize) (len - kHeaderSize) nodeSize) (h : Reached start len nodeSize s) :
    ∃ xs, Holds s xs := by
  induction h with
  | created hc => exact ⟨[], holds_createFrom hfit hc⟩
  | @call s s' xs op answer _ hwalk hop hstep ih =>
      obtain ⟨ys, h⟩ := ih
      obtain rfl : ys = xs := Option.some.inj ((h.walk_eq .front).symm.trans hwalk)
      obtain ⟨s'', answer', xs', hstep', -, h', -⟩ := h.step hop
      rw [hstep] at hstep'
      cases hstep'
      exact ⟨xs', h'⟩
  | @erased s s' xs i j res _ hwalk hij hj herase ih =>
      obtain ⟨ys, h⟩ := ih
      obtain rfl : ys = xs := Option.some.inj ((h.walk_eq .front).symm.trans hwalk)
      rcases Nat.lt_or_eq_of_le hj with hlt | rfl
      · obtain ⟨s'', herase', h'⟩ := h.eraseRange hij hlt
        rw [herase] at herase'
        cases herase'
        exact ⟨_, h'⟩
      · rw [position_length, eraseRange_end] at herase
        cases herase

/-- **Exactly the ranges that end before `end()` are erased.** -/
theorem erasesRange_iff {start len nodeSize : Nat}
    (hfit : MemoryList.SumsFit (start + kHeaderSize) (len - kHeaderSize) nodeSize) (hs : Reached start len nodeSize s)
    (hwalk : s.walk .front = some xs) (hij : i ≤ j) (hj : j ≤ xs.length) : ErasesRange s xs i j ↔ j < xs.length := by
  obtain ⟨ys, h⟩ := hs.holds hfit
  obtain rfl : ys = xs := Option.some.inj ((h.walk_eq .front).symm.trans hwalk)
  constructor
  · rintro ⟨s', res, herase, -⟩
    by_contra hnot
    obtain rfl : j = ys.length := by omega
    rw [position_length, eraseRange_end] at herase
    cases herase
  · intro hlt
    obtain ⟨s', herase, h'⟩ := h.eraseRange hij hlt
    refine ⟨s', _, herase, h'.walk_eq .front, h'.walk_eq .back, ?_⟩
    rw [h'.size_eq, List.length_append, List.length_take, List.length_drop]
    congr 1
    omega

/-- The two nodes of a buffer that has room for two. -/
theorem reached_pair : ∃ s : NodeList Nat, Reached 4096 120 16 s ∧ s.walk .front = some [(0, 7), (1, 8)] := by
  have hrun : ((createFrom 4096 120 16 (fun _ => 0) (fun _ => (⟨0, 0, 0⟩ : Node Nat))).join.bind fun s₀ =>
      (s₀.step (.push .back 7)).bind fun r₁ => (r₁.1.step (.push .back 8)).map fun r₂ =>
        [s₀.walk .front, r₁.1.walk .front, r₂.1.walk .front]) = some [some [], some [(0, 7)], some [(0, 7), (1, 8)]] := by
    decide +kernel
  obtain ⟨s₀, hc, hrun⟩ := Option.bind_eq_some_iff.mp hrun
  obtain ⟨⟨s₁, a₁⟩, h₁, hrun⟩ := Option.bind_eq_some_iff.mp hrun
  obtain ⟨⟨s₂, a₂⟩, h₂, hwalks⟩ := Option.map_eq_some_iff.mp hrun
  simp only [List.cons.injEq, and_true] at hwalks
  obtain ⟨hw₀, hw₁, hw₂⟩ := hwalks
  have hr₀ : Reached 4096 120 16 s₀ := .created (Option.join_eq_some_iff.mp hc)
  have hlegal₀ : BoundedDeque.Legal ([] : List (NodeId × Nat)) (.push .back 7) := trivial
  have hlegal₁ : BoundedDeque.Legal [((0 : NodeId), 7)] (.push .back 8) := trivial
  have hr₁ : Reached 4096 120 16 s₁ := .call hr₀ hw₀ hlegal₀ h₁
  exact ⟨s₂, .call hr₁ hw₁ hlegal₁ h₂, hw₂⟩

/-- The first node alone is a range. -/
theorem erasesRange_first : ∃ s : NodeList Nat, Reached 4096 120 16 s ∧ ErasesRange s [(0, 7), (1, 8)] 0 1 := by
  obtain ⟨s, hs, hwalk⟩ := reached_pair
  exact ⟨s, hs, (erasesRange_iff (by decide) hs hwalk (by decide) (by decide)).mpr (by decide)⟩

/-- `erase(begin(), end())` fails an assert. -/
theorem not_erasesRange_all : ∃ s : NodeList Nat, Reached 4096 120 16 s ∧ s.walk .front = some [(0, 7), (1, 8)] ∧
    ¬ ErasesRange s [(0, 7), (1, 8)] 0 2 := by
  obtain ⟨s, hs, hwalk⟩ := reached_pair
  refine ⟨s, hs, hwalk, ?_⟩
  rintro ⟨s', res, herase, -⟩
  cases herase

end NodeList
end Snippets
