import Snippets.RBTree.Refinement
import Snippets.Lib.RedBlack

/-!
# `RBTree.Iterate` — iterators

`GetNext` of a node is the next node of the tree in order (`Held.getNext_eq`): the first of the right subtree, or, where
there is none, the ancestor at which the climb stops. `GetMax` and `GetPrev` are `GetMin` and `GetNext` on the heap in which
every node has its children exchanged. An iterator is a slice id; neither `insert` nor `erase` moves the element of another
key to another slice (`Untouched`).
-/

namespace Snippets

open Lib

namespace RBTree

open BoundedMap (Op Answer)
open ColorTree (plug Frame before after)

variable {K V : Type} {cmp : Comparator K} {cap : Nat} {h : Heap K V} {s s' : RBTree K V} {t l r : ColorTree (Elem K V)}
  {m : BoundedMap cmp V cap} {fs : List (Frame (Elem K V))} {x y : Elem K V} {c : Color} {p i j : NodeId} {k : K} {v : V}
  {fuel : Nat}

/-- The id of the first of a list. -/
def firstId (xs : List (Elem K V)) : NodeId := (xs.head?.map Prod.fst).getD kInvalidNodeId

@[simp] theorem firstId_nil : firstId ([] : List (Elem K V)) = kInvalidNodeId := rfl

@[simp] theorem firstId_cons (x : Elem K V) (xs : List (Elem K V)) : firstId (x :: xs) = x.1 := rfl

/-- The first of a list that is not empty stays the first. -/
theorem firstId_append {xs ys : List (Elem K V)} (hne : xs ≠ []) : firstId (xs ++ ys) = firstId xs := by
  obtain ⟨x, xs, rfl⟩ := List.exists_cons_of_ne_nil hne
  rfl

/-- A tree with a node has an element. -/
theorem toList_ne_nil (hne : t ≠ .nil) : t.toList ≠ [] := by
  cases t with
  | nil => exact absurd rfl hne
  | node c l x r => simp

/-- A root id that is not valid belongs to the empty tree. -/
theorem Held.eq_nil (ht : Held h t p) (heq : rootId t = kInvalidNodeId) : t = .nil := by
  have hnil := ht.rootId_eq.mp heq
  cases t with
  | nil => rfl
  | node c l x r => cases hnil

/-- `GetMin` finds the head of the list. -/
theorem Held.getMin_first (ht : Held h t p) (hne : t ≠ .nil) (hfuel : t.toList.length ≤ fuel) :
    h.getMin fuel (rootId t) = some (firstId t.toList) := by
  obtain ⟨s, hs⟩ := ColorTree.first_isSome hne
  obtain ⟨rest, hlist, -⟩ := ColorTree.toList_setFirst hs s
  rw [ht.getMin_eq hs hfuel, hlist, firstId_cons]

/-! ## `GetNext`

A node with a right subtree is followed by the first node of that. Without one, the walk climbs as long as it
comes from the right, and the ancestor where it stops is the first element of what comes behind the focus
(`after`). -/

/-- The two branches of `GetNext`. -/
theorem Heap.getNext_of_pos (hi : 0 ≤ i) (fuel : Nat) :
    h.getNext fuel i = if (h i).r ≠ kInvalidNodeId then h.getMin fuel (h i).r else h.climb fuel i (h i).p := by
  unfold Heap.getNext
  rw [getPointer_of_pos hi]

/-- One step of the climb. -/
theorem Heap.climb_of_pos (hi : 0 ≤ i) (fuel : Nat) (cur : NodeId) :
    h.climb (fuel + 1) cur i = if (h i).r = cur then h.climb fuel i (h i).p else some i := by
  rw [Heap.climb, getPointer_of_pos hi]

/-- The parent of a focus. -/
def parentId (p : NodeId) : List (Frame (Elem K V)) → NodeId
  | [] => p
  | f :: _ => f.x.1

/-- A subtree is held under the parent that its frame has. -/
theorem Held.focus (ht : Held h (plug fs t) p) : Held h t (parentId p fs) := by
  induction fs generalizing t with
  | nil => exact ht
  | cons f fs ih =>
      obtain ⟨side, c, y, sib⟩ := f
      have hfill : Held h (Frame.fill ⟨side, c, y, sib⟩ t) (parentId p fs) := ih ht
      cases side with
      | left => exact (held_node.mp hfill).left
      | right => exact (held_node.mp hfill).right

/-- **The climb** stops at the first ancestor that has the focus on its left. -/
theorem Held.climb_eq (ht : Held h (plug fs t) kInvalidNodeId) (hne : t ≠ .nil) (hfuel : fs.length < fuel) :
    h.climb fuel (rootId t) (parentId kInvalidNodeId fs) = some (firstId (after fs)) := by
  induction fs generalizing t fuel with
  | nil =>
      obtain ⟨fuel, rfl⟩ : ∃ n, fuel = n + 1 := ⟨fuel - 1, by omega⟩
      rfl
  | cons f fs ih =>
      obtain ⟨fuel, rfl⟩ : ∃ n, fuel = n + 1 := ⟨fuel - 1, by omega⟩
      obtain ⟨side, c, y, sib⟩ := f
      rw [List.length_cons] at hfuel
      have hfill : Held h (Frame.fill ⟨side, c, y, sib⟩ t) (parentId kInvalidNodeId fs) := Held.focus ht
      cases side with
      | left =>
          -- the right child of the parent is another node
          have sp := held_node.mp hfill
          have hother : rootId sib ≠ rootId t := by
            intro heq
            rcases rootId_cases t with hnil | hmem
            · exact hne hnil
            · rcases rootId_cases sib with rfl | hmem'
              · exact hne (sp.left.eq_nil heq.symm)
              · rw [heq] at hmem'
                exact sp.apart _ hmem hmem'
          show h.climb (fuel + 1) (rootId t) y.1 = _
          rw [Heap.climb_of_pos sp.valid, sp.here, if_neg hother]
          rfl
      -- the focus is the right child: the climb goes on from the parent
      | right =>
          have sp := held_node.mp hfill
          show h.climb (fuel + 1) (rootId t) y.1 = _
          rw [Heap.climb_of_pos sp.valid, sp.here, if_pos rfl]
          exact ih (t := .node c sib y t) ht (by simp) (by omega)

/-- **`GetNext`** of a node finds what comes behind it in order. -/
theorem Held.getNext_eq (ht : Held h (plug fs (.node c l x r)) kInvalidNodeId)
    (hfuel : (plug fs (.node c l x r)).toList.length ≤ fuel) :
    h.getNext fuel x.1 = some (firstId (r.toList ++ after fs)) := by
  have hle := ColorTree.le_length_plug fs (.node c l x r)
  rw [ColorTree.toList_node, List.length_append, List.length_cons] at hle
  have hnode := Held.focus ht
  have sp := held_node.mp hnode
  rw [Heap.getNext_of_pos sp.valid, sp.here]
  -- without a right subtree the walk climbs
  by_cases hr : r = .nil
  · subst hr
    rw [if_neg fun hne => hne rfl]
    exact ht.climb_eq (by simp) (by omega)
  · have hroot : rootId r ≠ kInvalidNodeId := fun heq => hr (sp.right.eq_nil heq)
    rw [if_pos hroot, sp.right.getMin_first hr (by omega), firstId_append (toList_ne_nil hr)]

/-- The same for an element of the list. -/
theorem Held.getNext_of_toList {as bs : List (Elem K V)} (ht : Held h t kInvalidNodeId) (hlist : t.toList = as ++ x :: bs)
    (hfuel : t.toList.length ≤ fuel) : h.getNext fuel x.1 = some (firstId bs) := by
  obtain ⟨fs, c, l, r, rfl, -, rfl⟩ := ColorTree.exists_plug hlist
  exact ht.getNext_eq hfuel

/-! ## `GetPrev`

The code has each of these functions twice, with left and right exchanged. So has the proof of one of them: on
the mirrored heap `GetPrev` is `GetNext`. -/

/-- Left and right exchanged in every node. -/
def Heap.mirror (h : Heap K V) : Heap K V := ⟨fun i => { h i with l := (h i).r, r := (h i).l }⟩

@[simp] theorem mirror_apply (h : Heap K V) (i : NodeId) : h.mirror i = { h i with l := (h i).r, r := (h i).l } := rfl

/-- What is read at an id, mirrored. -/
theorem getPointer_mirror (h : Heap K V) (i : NodeId) :
    h.mirror.getPointer i = (h.getPointer i).map (Option.map fun n => { n with l := n.r, r := n.l }) := by
  unfold Heap.getPointer
  split
  · rfl
  · split <;> rfl

/-- The same where the id must be valid. -/
theorem node_mirror (h : Heap K V) (i : NodeId) :
    h.mirror.node i = (h.node i).map fun n => { n with l := n.r, r := n.l } := by
  unfold Heap.node
  rw [getPointer_mirror]
  rcases h.getPointer i with _ | _ | n <;> rfl

/-- `GetMax` is `GetMin` on the mirrored heap. -/
theorem getMax_eq_mirror (h : Heap K V) (fuel : Nat) (i : NodeId) : h.getMax fuel i = h.mirror.getMin fuel i := by
  induction fuel generalizing i with
  | zero => rfl
  | succ fuel ih =>
      unfold Heap.getMax Heap.getMin
      rw [node_mirror]
      cases h.node i with
      | none => rfl
      | some n =>
          simp only [Option.map_some]
          rw [ih]

/-- The climb of `GetPrev` is that of `GetNext`. -/
theorem climbBack_eq_mirror (h : Heap K V) (fuel : Nat) (cur i : NodeId) :
    h.climbBack fuel cur i = h.mirror.climb fuel cur i := by
  induction fuel generalizing cur i with
  | zero => rfl
  | succ fuel ih =>
      unfold Heap.climbBack Heap.climb
      rw [getPointer_mirror]
      rcases h.getPointer i with _ | _ | n
      · rfl
      · rfl
      · simp only [Option.map_some]
        rw [ih]

/-- `GetPrev` is `GetNext` on the mirrored heap. -/
theorem getPrev_eq_mirror (h : Heap K V) (fuel : Nat) (i : NodeId) : h.getPrev fuel i = h.mirror.getNext fuel i := by
  unfold Heap.getPrev Heap.getNext
  rw [getPointer_mirror]
  rcases h.getPointer i with _ | _ | n
  · rfl
  · rfl
  · simp only [Option.map_some]
    rw [getMax_eq_mirror, climbBack_eq_mirror]

/-- The root stays. -/
theorem rootId_mirror (t : ColorTree (Elem K V)) : rootId t.mirror = rootId t := by cases t <;> rfl

/-- The mirrored heap represents the mirrored tree. -/
theorem Rep.mirror (ht : Rep h t p) : Rep h.mirror t.mirror p := by
  induction t generalizing p with
  | nil => trivial
  | node c l x r ihl ihr =>
      obtain ⟨hx, hl, hr⟩ := ht
      refine ⟨?_, ihr hr, ihl hl⟩
      rw [mirror_apply, hx, rootId_mirror, rootId_mirror]

/-- The ids are met in the other order. -/
theorem ids_mirror (t : ColorTree (Elem K V)) : ids t.mirror = (ids t).reverse := by
  unfold ids
  rw [ColorTree.toList_mirror, List.map_reverse]

/-- A mirrored tree is held by the mirrored heap. -/
theorem Held.mirror (ht : Held h t p) : Held h.mirror t.mirror p := by
  refine ⟨ht.rep.mirror, ?_, ?_⟩
  · rw [ids_mirror]
    exact List.nodup_reverse.mpr ht.nodup
  · intro i hi
    rw [ids_mirror, List.mem_reverse] at hi
    exact ht.pos i hi

/-- **`GetPrev`** of a node finds what comes before it in order. -/
theorem Held.getPrev_of_toList {as bs : List (Elem K V)} (ht : Held h t kInvalidNodeId) (hlist : t.toList = as ++ x :: bs)
    (hfuel : t.toList.length ≤ fuel) : h.getPrev fuel x.1 = some (firstId as.reverse) := by
  have hmirror : t.mirror.toList = bs.reverse ++ x :: as.reverse := by
    rw [ColorTree.toList_mirror, hlist]
    simp
  rw [getPrev_eq_mirror]
  apply ht.mirror.getNext_of_toList hmirror
  · rw [ColorTree.toList_mirror, List.length_reverse]
    exact hfuel

/-! ## From `begin()` to `end()`

`begin()` is the first element, each `GetNext` leads to the next one, and the last leads to the invalid id. -/

/-- `begin()` is the first element, or the invalid id when there is none. -/
theorem Owned.begin_eq (h : Owned cmp s t) : s.begin = some (firstId t.toList) := by
  unfold RBTree.begin
  rw [h.root]
  by_cases ht : t = .nil
  · subst ht
    exact if_pos rfl
  · rw [if_neg fun heq => ht (h.held.eq_nil heq)]
    exact h.held.getMin_first ht h.length_lt_limit.le

/-- From any element on, the iteration meets what comes behind it. -/
theorem Owned.entriesFrom_eq {as bs : List (Elem K V)} (h : Owned cmp s t) (hlist : t.toList = as ++ bs)
    (hfuel : bs.length < fuel) : s.entriesFrom fuel (firstId bs) = some (bs.map Prod.snd) := by
  induction bs generalizing as fuel with
  | nil =>
      obtain ⟨fuel, rfl⟩ : ∃ n, fuel = n + 1 := ⟨fuel - 1, by omega⟩
      rfl
  | cons x bs ih =>
      obtain ⟨fuel, rfl⟩ : ∃ n, fuel = n + 1 := ⟨fuel - 1, by omega⟩
      rw [List.length_cons] at hfuel
      have hmem : x ∈ t.toList := by
        rw [hlist]
        simp
      have hlist' : t.toList = (as ++ [x]) ++ bs := by
        rw [hlist, List.append_assoc]
        rfl
      have hrest : s.entriesFrom fuel (firstId bs) = some (bs.map Prod.snd) := ih hlist' (by omega)
      have hnext : s.nodes.getNext s.limit x.1 = some (firstId bs) := h.held.getNext_of_toList hlist h.length_lt_limit.le
      have hnode : s.nodes.node x.1 = some (s.nodes x.1) := node_of_pos (h.valid hmem)
      simp only [entriesFrom, firstId_cons, if_neg (ne_invalid (h.valid hmem)), hnode, hnext, hrest, Option.bind_eq_bind,
        Option.bind_some, Option.pure_def, h.held.rep.value hmem, List.map_cons]

/-- **The iteration meets every element once, in order.** -/
theorem Owned.entries_eq (h : Owned cmp s t) : s.entries = some (t.toList.map Prod.snd) := by
  unfold entries
  rw [h.begin_eq]
  exact h.entriesFrom_eq (List.nil_append _).symm h.length_lt_limit

/-- What the iterators of a state say about its map. -/
structure Iterates (s : RBTree K V) (m : BoundedMap cmp V cap) : Prop where
  entries : ∃ ps, s.entries = some ps ∧ ps.Perm m.pairs ∧ ps.Pairwise fun a b => cmp.less a.1 b.1 = true
  neighbours : ∀ a b, m.has a → m.has b → cmp.less a b = true →
    (∀ c, m.has c → ¬ (cmp.less a c = true ∧ cmp.less c b = true)) →
    ∃ i j, s.find cmp a = some i ∧ s.find cmp b = some j ∧ i ≠ kInvalidNodeId ∧ j ≠ kInvalidNodeId ∧
      s.nodes.getNext s.limit i = some j ∧ s.nodes.getPrev s.limit j = some i

/-- A smaller element stands before a greater one. -/
theorem Owned.exists_before (h : Owned cmp s t) (hx : x ∈ t.toList) (hy : y ∈ t.toList)
    (hless : cmp.less (keyOf x) (keyOf y) = true) : ∃ as bs, t.toList = as ++ x :: bs ∧ y ∈ bs := by
  obtain ⟨as, bs, hlist⟩ := List.append_of_mem hx
  refine ⟨as, bs, hlist, ?_⟩
  have ho := h.ordered
  rw [hlist] at hy ho
  obtain ⟨-, -, hbefore⟩ := List.pairwise_append.mp ho
  rcases List.mem_append.mp hy with hy | hy
  · have hback := Comparator.asymm (hbefore y hy x List.mem_cons_self)
    rw [hless] at hback
    cases hback
  · rcases List.mem_cons.mp hy with rfl | hy
    · rw [cmp.irrefl] at hless
      cases hless
    · exact hy

/-- Nothing stands between neighbours. -/
theorem Owned.neighbours (h : Owned cmp s t) (hx : x ∈ t.toList) (hy : y ∈ t.toList)
    (hless : cmp.less (keyOf x) (keyOf y) = true)
    (hnone : ∀ z ∈ t.toList, ¬ (cmp.less (keyOf x) (keyOf z) = true ∧ cmp.less (keyOf z) (keyOf y) = true)) :
    ∃ as bs, t.toList = as ++ x :: y :: bs := by
  obtain ⟨as, bs, hlist, hy'⟩ := h.exists_before hx hy hless
  cases bs with
  | nil => cases hy'
  | cons z bs =>
      rcases List.mem_cons.mp hy' with rfl | hmem
      · exact ⟨as, bs, hlist⟩
      · have ho := h.ordered
        rw [hlist] at ho
        obtain ⟨-, hxz, -⟩ := List.pairwise_append.mp ho
        obtain ⟨hxs, hzs⟩ := List.pairwise_cons.mp hxz
        refine absurd ⟨hxs z List.mem_cons_self, (List.pairwise_cons.mp hzs).1 y hmem⟩ (hnone z ?_)
        rw [hlist]
        simp

/-- The loop from `begin()` to `end()` reads what the map holds, in order. -/
theorem Refines.iterates (h : Refines s m t) : Iterates s m := by
  refine ⟨⟨t.toList.map Prod.snd, h.owned.entries_eq, h.pairs, List.pairwise_map.mpr h.owned.ordered⟩, ?_⟩
  intro a b ha hb hless hnone
  obtain ⟨x, hx, hax, -⟩ := h.present ha
  obtain ⟨y, hy, hby, -⟩ := h.present hb
  obtain ⟨hax₁, hax₂⟩ := Comparator.equiv_iff.mp hax
  obtain ⟨hby₁, hby₂⟩ := Comparator.equiv_iff.mp hby
  have hxy : cmp.less (keyOf x) (keyOf y) = true :=
    Comparator.less_of_not_less_of_less hax₁ (Comparator.less_of_less_of_not_less hless hby₂)
  obtain ⟨as, bs, hlist⟩ := h.owned.neighbours hx hy hxy (by
    intro z hz hbetween
    have hz' : m.has (keyOf z) := ⟨z.2, h.pairs.mem_iff.mp (List.mem_map_of_mem hz), Comparator.equiv_refl _⟩
    exact hnone (keyOf z) hz' ⟨Comparator.less_of_not_less_of_less hax₂ hbetween.1,
      Comparator.less_of_less_of_not_less hbetween.2 hby₁⟩)
  have hlist' : t.toList = (as ++ [x]) ++ y :: bs := by
    rw [hlist, List.append_assoc]
    rfl
  refine ⟨x.1, y.1, h.owned.find_present hx hax, h.owned.find_present hy hby, ne_invalid (h.owned.valid hx),
    ne_invalid (h.owned.valid hy), h.owned.held.getNext_of_toList hlist h.owned.length_lt_limit.le, ?_⟩
  rw [h.owned.held.getPrev_of_toList hlist' h.owned.length_lt_limit.le]
  simp

/-! ## Stability

An id stays that of its element, whatever happens to other keys: a call changes the slices of its own key and the
links of the others. -/

/-- The elements of the other keys stay in their slices, with their values. -/
def Untouched (cmp : Comparator K) (s s' : RBTree K V) (k : K) : Prop :=
  ∀ j, cmp.equiv j k = false → ∃ id, s.find cmp j = some id ∧ s'.find cmp j = some id ∧ s'.entry id = s.entry id

/-- The nodes of the tree are the slices on the used list of the allocator. -/
def UsedByTree (s : RBTree K V) : Prop :=
  ∃ t used, Held s.nodes t kInvalidNodeId ∧ s.root = rootId t ∧
    Links.Chain s.ml.heads MemoryList.kInvalidSliceId MemoryList.kInvalidSliceId s.ml.header.used used ∧ used.Perm (ids t)

/-- The slices in use are those of the tree. -/
theorem Owned.usedByTree (h : Owned cmp s t) : UsedByTree s := by
  obtain ⟨F, U, hpart, hperm⟩ := h.slices.lists
  exact ⟨t, U, h.held, h.root, hpart.used, hperm⟩

/-- Nothing has happened. -/
theorem Untouched.refl (h : Owned cmp s t) (k : K) : Untouched cmp s s k := by
  intro j _
  exact ⟨_, h.find_eq j, h.find_eq j, rfl⟩

/-- Two trees with the same elements of other keys. -/
theorem Owned.untouched {t' : ColorTree (Elem K V)} (h : Owned cmp s t) (h' : Owned cmp s' t')
    (hsame : ∀ x, cmp.equiv k (keyOf x) = false → (x ∈ t.toList ↔ x ∈ t'.toList)) : Untouched cmp s s' k := by
  intro j hj
  have hother : ∀ x : Elem K V, cmp.equiv j (keyOf x) = true → cmp.equiv k (keyOf x) = false := by
    intro x hjx
    rw [Bool.eq_false_iff] at hj ⊢
    exact fun hkx => hj (Comparator.equiv_trans hjx (Comparator.equiv_symm hkx))
  by_cases hpresent : ∃ x ∈ t.toList, cmp.equiv j (keyOf x) = true
  · obtain ⟨x, hx, hjx⟩ := hpresent
    have hx' := (hsame x (hother x hjx)).mp hx
    exact ⟨x.1, h.find_present hx hjx, h'.find_present hx' hjx, by rw [h.entry_eq hx, h'.entry_eq hx']⟩
  · have habs : ∀ x ∈ t.toList, cmp.equiv j (keyOf x) = false := by
      intro x hx
      rw [Bool.eq_false_iff]
      exact fun hjx => hpresent ⟨x, hx, hjx⟩
    have habs' : ∀ x ∈ t'.toList, cmp.equiv j (keyOf x) = false := by
      intro x hx
      rw [Bool.eq_false_iff]
      exact fun hjx => hpresent ⟨x, (hsame x (hother x hjx)).mpr hx, hjx⟩
    exact ⟨kInvalidNodeId, h.find_absent habs, h'.find_absent habs', by rw [entry_invalid, entry_invalid]⟩

/-- An element with the key is not one with another key. -/
theorem mem_insert_iff {as bs : List (Elem K V)} {z : Elem K V} (hz : cmp.equiv k (keyOf z) = true)
    (hx : cmp.equiv k (keyOf x) = false) : x ∈ as ++ z :: bs ↔ x ∈ as ++ bs := by
  have hne : x ≠ z := by
    rintro rfl
    rw [hz] at hx
    cases hx
  rw [List.mem_append, List.mem_cons, List.mem_append]
  constructor
  · rintro (h | h | h)
    · exact Or.inl h
    · exact absurd h hne
    · exact Or.inr h
  · rintro (h | h)
    · exact Or.inl h
    · exact Or.inr (Or.inr h)

/-- `insert` of a key leaves the elements of all others where they are. -/
theorem Owned.insert_untouched (h : Owned cmp s t) (k : K) (v : V) :
    ∃ s' id new, s.insert cmp k v = some (s', id, new) ∧ Untouched cmp s s' k ∧ UsedByTree s' := by
  by_cases hpresent : ∃ x ∈ t.toList, cmp.equiv k (keyOf x) = true
  · obtain ⟨x, hx, heq⟩ := hpresent
    exact ⟨s, x.1, false, h.insert_present hx heq v, Untouched.refl h k, h.usedByTree⟩
  · have habs : ∀ x ∈ t.toList, cmp.equiv k (keyOf x) = false := by
      intro x hx
      rw [Bool.eq_false_iff]
      exact fun heq => hpresent ⟨x, hx, heq⟩
    by_cases hfull : s.size = s.maxSize
    · exact ⟨s, kInvalidNodeId, false, h.insert_full habs v hfull, Untouched.refl h k, h.usedByTree⟩
    · obtain ⟨s', t', id, hins, howned, -, as, bs, h₁, h₂⟩ := h.insert_new habs v hfull
      refine ⟨s', id, true, hins, h.untouched howned ?_, howned.usedByTree⟩
      intro x hx
      rw [h₁, h₂]
      exact (mem_insert_iff (z := (id, (k, v))) (Comparator.equiv_refl k) hx).symm

variable [Zero K] [Zero V]

/-- And so does `erase`. -/
theorem Owned.erase_untouched (h : Owned cmp s t) (hx : x ∈ t.toList) (heq : cmp.equiv k (keyOf x) = true) :
    ∃ s', s.erase cmp k = some (s', 1) ∧ Untouched cmp s s' k ∧ UsedByTree s' := by
  obtain ⟨s', t', herase, howned, -, as, bs, h₁, h₂⟩ := h.erase_present hx heq
  refine ⟨s', herase, h.untouched howned ?_, howned.usedByTree⟩
  intro y hy
  rw [h₁, h₂]
  exact mem_insert_iff heq hy

/-! ## From `CreateFrom` on -/

section Created

variable {start len nodeSize : Nat} {mem : Mem} {nodes : Heap K V} {s₀ : RBTree K V} {ops : List (Op K V)}

/-- **The iteration is exact** in every state: it meets the pairs of the map in the order of their keys, and `GetNext` and
    `GetPrev` lead from neighbour to neighbour. -/
theorem iterates_of_exec (hfit : MemoryList.SumsFit (start + kHeaderSize) (len - kHeaderSize) nodeSize)
    (hc : createFrom start len nodeSize mem nodes = some (some s₀)) (junk : V)
    (hops : (BoundedMap.empty : BoundedMap cmp V s₀.maxSize).ErasesPresent ops) :
    ∃ s answers, s₀.exec cmp junk ops = some (s, answers) ∧
      Iterates s ((BoundedMap.empty : BoundedMap cmp V s₀.maxSize).exec ops).1 := by
  obtain ⟨s, t, hexec, h⟩ := (refines_createFrom hfit hc).exec junk hops
  exact ⟨s, _, hexec, h.iterates⟩

/-- Two keys, the greater one first. -/
theorem iterates_twoKeys : ∃ s₀ s answers i j, createFrom 4096 144 24 (fun _ => 0) blank = some (some s₀) ∧
    s₀.exec natural 0 [.insert 2 20, .insert 1 10] = some (s, answers) ∧ s.find natural 1 = some i ∧
      s.find natural 2 = some j ∧ s.nodes.getNext s.limit i = some j ∧ s.nodes.getPrev s.limit j = some i := by
  obtain ⟨s₀, hc, hmax⟩ := createFrom_two
  have hops : (BoundedMap.empty : BoundedMap natural Nat s₀.maxSize).ErasesPresent [.insert 2 20, .insert 1 10] :=
    ⟨fun _ hk => (nomatch hk), fun _ hk => (nomatch hk), trivial⟩
  obtain ⟨s, answers, hexec, hit⟩ := iterates_of_exec (by decide) hc 0 hops
  rw [hmax] at hit
  obtain ⟨i, j, hi, hj, -, -, hnext, hprev⟩ := hit.neighbours 1 2 (by decide) (by decide) (by decide) (by
    rintro c - ⟨h₁, h₂⟩
    simp only [natural, decide_eq_true_eq] at h₁ h₂
    omega)
  exact ⟨s₀, s, answers, i, j, hc, hexec, hi, hj, hnext, hprev⟩

/-- **Iterators stay valid**: in every state, neither an insertion nor an erasure moves or changes the element of another
    key, and the nodes of the tree are the used slices. -/
theorem untouched_of_exec (hfit : MemoryList.SumsFit (start + kHeaderSize) (len - kHeaderSize) nodeSize)
    (hc : createFrom start len nodeSize mem nodes = some (some s₀)) (junk : V)
    (hops : (BoundedMap.empty : BoundedMap cmp V s₀.maxSize).ErasesPresent ops) :
    ∃ s answers, s₀.exec cmp junk ops = some (s, answers) ∧ UsedByTree s ∧
      (∀ k v, ∃ s' id new, s.insert cmp k v = some (s', id, new) ∧ Untouched cmp s s' k ∧ UsedByTree s') ∧
      ∀ k, ((BoundedMap.empty : BoundedMap cmp V s₀.maxSize).exec ops).1.has k →
        ∃ s', s.erase cmp k = some (s', 1) ∧ Untouched cmp s s' k ∧ UsedByTree s' := by
  obtain ⟨s, t, hexec, h⟩ := (refines_createFrom hfit hc).exec junk hops
  refine ⟨s, _, hexec, h.owned.usedByTree, h.owned.insert_untouched, ?_⟩
  intro k hk
  obtain ⟨x, hx, heq, -⟩ := h.present hk
  exact h.owned.erase_untouched hx heq

/-- From the keys 1 and 3 on: the key 2 goes in between them, and the key 3 goes. -/
theorem untouched_threeKeys : ∃ s₀ s s' s'' answers id new,
    createFrom 4096 176 24 (fun _ => 0) blank = some (some s₀) ∧ s₀.exec natural 0 threeKeys = some (s, answers) ∧
      s.insert natural 2 20 = some (s', id, new) ∧ Untouched natural s s' 2 ∧ UsedByTree s' ∧
      s.erase natural 3 = some (s'', 1) ∧ Untouched natural s s'' 3 ∧ UsedByTree s'' := by
  obtain ⟨s₀, hc, hmax⟩ := createFrom_threeNodes
  obtain ⟨s, answers, hexec, -, hins, herase⟩ := untouched_of_exec (by decide) hc 0 (erasesPresent_threeKeys hmax)
  rw [hmax] at herase
  obtain ⟨s', id, new, hins', huntouched, hused⟩ := hins 2 20
  obtain ⟨s'', herase', huntouched', hused'⟩ := herase 3 (by decide)
  exact ⟨s₀, s, s', s'', answers, id, new, hc, hexec, hins', huntouched, hused, herase', huntouched', hused'⟩

end Created

end RBTree
end Snippets
