import Snippets.Trie.Model

/-!
# `Trie.Lookup` — what a trie holds, and what `Get` makes of it

`view` is what the nodes hold: for every string that has a node the `v` of the node. `Put` gives the string its value, and
every prefix of the string a node; a new node holds junk. So after some `Put`s the strings with a node are the prefixes of
the keys. `Get` shows the node of a string that is not empty, whether the string was a key or not.
-/

namespace Snippets

namespace Alphabet

variable {alpha : Alphabet} {c c' : UInt8} {i : Nat}

/-- An index is where its character stands. -/
theorem fillIndices_some {cs : List UInt8} {idx : Nat} {indices : UInt8 → Option Nat}
    (h : fillIndices idx cs indices c = some i) : indices c = some i ∨ idx ≤ i ∧ cs[i - idx]? = some c := by
  induction cs generalizing idx indices with
  | nil => exact Or.inl h
  | cons b cs ih =>
      rcases ih h with hc | ⟨hle, hget⟩
      · by_cases hcb : c = b
        · subst hcb
          rw [Function.update_self] at hc
          obtain rfl := Option.some.inj hc
          exact Or.inr ⟨Nat.le_refl _, by simp⟩
        · rw [Function.update_of_ne hcb] at hc
          exact Or.inl hc
      · have hsub : i - idx = i - (idx + 1) + 1 := by omega
        refine Or.inr ⟨by omega, ?_⟩
        rw [hsub, List.getElem?_cons_succ]
        exact hget

/-- **Two characters never share an index.** -/
theorem toIndices_inj (h : alpha.toIndices c = some i) (h' : alpha.toIndices c' = some i) : c = c' := by
  have hget : ∀ {b : UInt8}, alpha.toIndices b = some i → alpha.chars[i]? = some b := by
    intro b hb
    rcases fillIndices_some hb with hnone | ⟨-, hb⟩
    · cases hnone
    · exact hb
  exact Option.some.inj ((hget h).symm.trans (hget h'))

/-- The character has an index, and the arrays of children have that index. -/
def InArray (alpha : Alphabet) (c : UInt8) : Prop := ∃ i, alpha.toIndices c = some i ∧ i < alpha.charNum

/-- A character of the alphabet has an index. -/
theorem fillIndices_isSome {cs : List UInt8} {idx : Nat} {indices : UInt8 → Option Nat}
    (h : (indices c).isSome ∨ c ∈ cs) : (fillIndices idx cs indices c).isSome := by
  induction cs generalizing idx indices with
  | nil => exact h.resolve_right List.not_mem_nil
  | cons b cs ih =>
      apply ih
      by_cases hcb : c = b
      · subst hcb
        left
        rw [Function.update_self]
        rfl
      · rw [Function.update_of_ne hcb]
        exact h.imp_right fun hmem => (List.mem_cons.mp hmem).resolve_left hcb

/-- When the alphabet repeats no character, all its characters are. -/
theorem inArray_of_nodup (hnd : alpha.chars.Nodup) (hc : c ∈ alpha.chars) : alpha.InArray c := by
  have hsome : (fillIndices 0 alpha.chars (fun _ => none) c).isSome := fillIndices_isSome (Or.inr hc)
  obtain ⟨i, hi⟩ := Option.isSome_iff_exists.mp hsome
  refine ⟨i, hi, ?_⟩
  rcases fillIndices_some hi with hnone | ⟨-, hget⟩
  · cases hnone
  · unfold charNum
    rw [hnd.dedup]
    exact (List.getElem?_eq_some_iff.mp hget).1

end Alphabet

namespace Trie

variable {V : Type} {alpha : Alphabet} {junk v : V} {p p' : TrieNode V} {key k : List UInt8} {c : UInt8}

/-- The value of the node of a string. -/
def view (alpha : Alphabet) : TrieNode V → List UInt8 → Option V
  | p, [] => some p.v
  | p, c :: key =>
      match child alpha p c with
      | some (_, some node) => view alpha node key
      | _ => none

/-- Every array of children has the right length. -/
inductive Sized (alpha : Alphabet) : TrieNode V → Prop
  | mk {p : TrieNode V} (length : p.arr.length = alpha.charNum) (children : ∀ node, some node ∈ p.arr → Sized alpha node) :
      Sized alpha p

/-- A node has as many places as there are characters, -/
theorem Sized.length (h : Sized alpha p) : p.arr.length = alpha.charNum := by
  cases h with
  | mk length _ => exact length

/-- its children too, -/
theorem Sized.child (h : Sized alpha p) {node : TrieNode V} (hmem : some node ∈ p.arr) : Sized alpha node := by
  cases h with
  | mk _ children => exact children node hmem

/-- and a new node. -/
theorem makeTrieNode_sized : Sized alpha (makeTrieNode alpha junk) := by
  refine ⟨List.length_replicate, ?_⟩
  intro node hmem
  exact absurd (List.eq_of_mem_replicate hmem) (Option.some_ne_none node)

/-! ## Children

A character's place in the array, which may lie outside. -/

/-- What reading a child gives. -/
theorem child_some (h : Sized alpha p) {i : Nat} {found : Option (TrieNode V)} (hc : child alpha p c = some (i, found)) :
    alpha.toIndices c = some i ∧ i < alpha.charNum ∧ p.arr[i]? = some found := by
  unfold child at hc
  cases hi : alpha.toIndices c with
  | none =>
      rw [hi] at hc
      cases hc
  | some j =>
      rw [hi] at hc
      cases hj : p.arr[j]? with
      | none =>
          simp [hj] at hc
      | some node =>
          simp only [hj, Option.bind_eq_bind, Option.bind_some, Option.pure_def, Option.some.injEq, Prod.mk.injEq] at hc
          obtain ⟨rfl, rfl⟩ := hc
          have hlt := (List.getElem?_eq_some_iff.mp hj).1
          rw [h.length] at hlt
          exact ⟨rfl, hlt, hj⟩

/-- There is a place for the characters whose index is in the array. -/
theorem child_inArray (h : Sized alpha p) : (∃ r, child alpha p c = some r) ↔ alpha.InArray c := by
  constructor
  · rintro ⟨⟨i, found⟩, hc⟩
    obtain ⟨hi, hlt, -⟩ := child_some h hc
    exact ⟨i, hi, hlt⟩
  · rintro ⟨i, hi, hlt⟩
    rw [← h.length] at hlt
    refine ⟨(i, p.arr[i]), ?_⟩
    unfold child
    rw [hi]
    simp [hlt]

/-- The child found there is sized, -/
theorem Sized.found (h : Sized alpha p) {i : Nat} {node : TrieNode V} (hc : Trie.child alpha p c = some (i, some node)) :
    Sized alpha node := h.child (List.mem_of_getElem? (child_some h hc).2.2)

/-- and so is the node when it is set. -/
theorem Sized.setChild (h : Sized alpha p) (i : Nat) (h' : Sized alpha p') : Sized alpha (p.setChild i p') := by
  refine ⟨(List.length_set ..).trans h.length, ?_⟩
  intro node hmem
  rcases List.mem_or_eq_of_mem_set hmem with hmem | heq
  · exact h.child hmem
  · obtain rfl := Option.some.inj heq
    exact h'

/-- After a write to one child, the children that are read. -/
theorem child_setChild (h : Sized alpha p) {i : Nat} {found : Option (TrieNode V)}
    (hc : child alpha p c = some (i, found)) (c' : UInt8) :
    child alpha (p.setChild i p') c' = if c' = c then some (i, some p') else child alpha p c' := by
  obtain ⟨hi, hlt, -⟩ := child_some h hc
  rw [← h.length] at hlt
  by_cases hcc : c' = c
  · subst hcc
    rw [if_pos rfl]
    unfold child TrieNode.setChild
    rw [hi]
    simp [hlt]
  · rw [if_neg hcc]
    unfold child TrieNode.setChild
    cases hj : alpha.toIndices c' with
    | none => rfl
    | some j =>
        have hne : i ≠ j := by
          rintro rfl
          exact hcc (Alphabet.toIndices_inj hj hi)
        simp only [Option.bind_eq_bind, Option.bind_some, TrieNode.arr_mk, List.getElem?_set_ne hne]

/-! ## `Put`

The view of the tree after it: the string's value, and nodes for its prefixes. -/

/-- The node itself, -/
@[simp] theorem view_nil (p : TrieNode V) : view alpha p [] = some p.v := rfl

/-- a child that is there -/
theorem view_cons_found {i : Nat} {node : TrieNode V} (hc : child alpha p c = some (i, some node)) (q : List UInt8) :
    view alpha p (c :: q) = view alpha node q := by
  rw [view, hc]

/-- and one that is not. -/
theorem view_cons_null {i : Nat} (hc : child alpha p c = some (i, none)) (q : List UInt8) :
    view alpha p (c :: q) = none := by
  rw [view, hc]

/-- The value of the node is set, -/
theorem view_setV (q : List UInt8) : view alpha (p.setV v) q = if q = [] then some v else view alpha p q := by
  cases q with
  | nil => rfl
  | cons c q =>
      rw [if_neg (List.cons_ne_nil c q)]
      rfl

/-- a new node has nothing below it, -/
theorem view_makeTrieNode (q : List UInt8) :
    view alpha (makeTrieNode alpha junk) q = if q = [] then some junk else none := by
  cases q with
  | nil => rfl
  | cons c q =>
      rw [if_neg (List.cons_ne_nil c q), view]
      cases hc : child alpha (makeTrieNode alpha junk) c with
      | none => rfl
      | some r =>
          obtain ⟨i, found⟩ := r
          have hget := (child_some makeTrieNode_sized hc).2.2
          have hnull : found = none := List.eq_of_mem_replicate (List.mem_of_getElem? hget)
          rw [hnull]

/-- and a child that is set is seen under its character only. -/
theorem view_setChild (h : Sized alpha p) {i : Nat} {found : Option (TrieNode V)}
    (hc : child alpha p c = some (i, found)) (c' : UInt8) (q : List UInt8) :
    view alpha (p.setChild i p') (c' :: q) = if c' = c then view alpha p' q else view alpha p (c' :: q) := by
  rw [view, child_setChild h hc]
  by_cases hcc : c' = c
  · rw [if_pos hcc, if_pos hcc]
  · rw [if_neg hcc, if_neg hcc, view]

/-- What is below a child that may be missing. -/
theorem view_getD {i : Nat} {found : Option (TrieNode V)} (hc : child alpha p c = some (i, found)) (q : List UInt8) :
    view alpha (found.getD (makeTrieNode alpha junk)) q =
      if q = [] then some ((view alpha p [c]).getD junk) else view alpha p (c :: q) := by
  cases found with
  | none =>
      rw [Option.getD_none, view_makeTrieNode, view_cons_null hc, view_cons_null hc]
      rfl
  | some node =>
      rw [Option.getD_some, view_cons_found hc, view_cons_found hc]
      split
      · next hq =>
          rw [hq]
          rfl
      · rfl

/-- What a trie holds after a `Put`. -/
def viewPut (key : List UInt8) (v junk : V) (before : List UInt8 → Option V) (q : List UInt8) : Option V :=
  if q = key ∧ key ≠ [] then some v else if q <+: key then some ((before q).getD junk) else before q

/-- The child that `Put` goes on with. -/
theorem below_sized (h : Sized alpha p) {i : Nat} {found : Option (TrieNode V)} (hc : child alpha p c = some (i, found)) :
    Sized alpha (if key = [] then (found.getD (makeTrieNode alpha junk)).setV v
      else found.getD (makeTrieNode alpha junk)) := by
  have hnode : Sized alpha (found.getD (makeTrieNode alpha junk)) := by
    cases found with
    | none => exact makeTrieNode_sized
    | some node => exact h.found hc
  split
  · exact ⟨hnode.length, fun _ hmem => hnode.child hmem⟩
  · exact hnode

/-- The rest of the key below the first child is what the key is at the node. -/
theorem viewPut_cons {i : Nat} {found : Option (TrieNode V)} (hc : child alpha p c = some (i, found)) (q : List UInt8) :
    viewPut key v junk (view alpha (if key = [] then (found.getD (makeTrieNode alpha junk)).setV v
      else found.getD (makeTrieNode alpha junk))) q = viewPut (c :: key) v junk (view alpha p) (c :: q) := by
  have hcons : c :: q <+: c :: key ↔ q <+: key := by simp
  have hwhole : c :: q = c :: key ↔ q = key := by simp
  unfold viewPut
  simp only [hcons, hwhole, ne_eq, reduceCtorEq, not_false_eq_true, and_true]
  by_cases hkey : key = []
  · -- the child is the node of the key
    subst hkey
    rw [if_neg (by simp), if_pos rfl, view_setV, view_getD hc]
    by_cases hq : q = []
    · rw [if_pos hq, if_pos (hq ▸ List.nil_prefix), if_pos hq]
      rfl
    · have hnp : ¬q <+: [] := fun h => hq (List.prefix_nil.mp h)
      rw [if_neg hnp, if_neg hq, if_neg hq, if_neg hq, if_neg hnp]
  · rw [if_neg hkey, view_getD hc]
    by_cases hq : q = key
    · rw [if_pos ⟨hq, hkey⟩, if_pos hq]
    · rw [if_neg fun h => hq h.1, if_neg hq]
      by_cases hnil : q = []
      · rw [if_pos hnil, hnil, if_pos List.nil_prefix, if_pos List.nil_prefix]
        rfl
      · rw [if_neg hnil]

/-- **`Put`** succeeds on characters that are in the arrays. -/
theorem putLoop_spec (junk v : V) (h : Sized alpha p) (hk : ∀ c ∈ key, alpha.InArray c) :
    ∃ p', putLoop alpha junk v p key = some p' ∧ Sized alpha p' ∧
      ∀ q, view alpha p' q = viewPut key v junk (view alpha p) q := by
  -- by induction on the string
  induction key generalizing p with
  | nil =>
      refine ⟨p, rfl, h, ?_⟩
      intro q
      unfold viewPut
      rw [if_neg (by simp)]
      split
      · next hq =>
          rw [List.prefix_nil.mp hq]
          rfl
      · rfl
  | cons c key ih =>
      obtain ⟨⟨i, found⟩, hc⟩ := (child_inArray h).mpr (hk c List.mem_cons_self)
      have hset : Sized alpha (if key = [] then (found.getD (makeTrieNode alpha junk)).setV v
          else found.getD (makeTrieNode alpha junk)) := below_sized h hc
      obtain ⟨node', hput, hsized, hview⟩ := ih hset fun c hc => hk c (List.mem_cons_of_mem _ hc)
      refine ⟨p.setChild i node', ?_, h.setChild i hsized, ?_⟩
      · rw [putLoop]
        simp only [hc, Option.bind_eq_bind, Option.bind_some, hput]
        rfl
      · intro q
        cases q with
        | nil =>
            unfold viewPut
            rw [if_neg (fun hq => List.cons_ne_nil c key hq.1.symm), if_pos List.nil_prefix]
            rfl
        | cons c' q =>
            rw [view_setChild h hc]
            by_cases hcc : c' = c
            · subst hcc
              rw [if_pos rfl, hview]
              exact viewPut_cons hc q
            · have hne : ¬(c' :: q = c :: key ∧ c :: key ≠ []) := fun hq => hcc (List.cons.inj hq.1).1
              have hnp : ¬c' :: q <+: c :: key := fun hq => hcc (List.cons_prefix_cons.mp hq).1
              unfold viewPut
              rw [if_neg hcc, if_neg hne, if_neg hnp]

end Trie
end Snippets
