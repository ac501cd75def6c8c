import Snippets.PointerTree.Owned

/-!
# `PointerTree.Walk` — `min`, `max`, `successor` and `predecessor`

A walk to one side meets the elements in the order in which they are read from the other side: it starts at the
outermost node there (`outermost_eq`), and each step leads to the next element (`neighbour_eq`), which is the outermost
one of the child, if there is one, and else the first ancestor that the climb reaches from the side it started from.
-/

namespace Snippets

open Lib

namespace PointerTree

open ColorTree (nodeAt plug Frame inorder rest)

variable {K V : Type} {cmp : Comparator K} {s : PointerTree K V} {t near far : ColorTree (Elem K V)} {x : Elem K V}
  {fs : List (Frame (Elem K V))} {p : Ptr} {c : Color} {d : Side} {fuel a : Nat}

/-- The address of the first of a list. -/
def firstPtr (xs : List (Elem K V)) : Ptr := xs.head?.map Prod.fst

theorem firstPtr_cons (xs : List (Elem K V)) : firstPtr (x :: xs) = some x.1 := rfl

/-- The first of a list that is not empty stays the first. -/
theorem firstPtr_append {xs ys : List (Elem K V)} (h : xs ≠ []) : firstPtr (xs ++ ys) = firstPtr xs := by
  obtain ⟨x, xs, rfl⟩ := List.exists_cons_of_ne_nil h
  rfl

/-- A tree with a node has an element, from either side. -/
theorem inorder_ne_nil (h : t ≠ .nil) : inorder d t ≠ [] := by
  obtain ⟨c, near, x, far, rfl⟩ := ColorTree.exists_nodeAt d h
  rw [ColorTree.inorder_nodeAt]
  simp

/-- A tree with a node has a root. -/
theorem rootPtr_isSome (h : t ≠ .nil) : (rootPtr t).isSome = true := by
  cases t with
  | nil => exact absurd rfl h
  | node c l x r => rfl

/-- Both orders have the same length. -/
theorem length_nodeAt : (nodeAt d c near x far).toList.length = near.toList.length + far.toList.length + 1 := by
  cases d with
  | left =>
      simp only [nodeAt, ColorTree.toList_node, List.length_append, List.length_cons]
      omega
  | right =>
      simp only [nodeAt, ColorTree.toList_node, List.length_append, List.length_cons]
      omega

/-- **The outermost node** is the first one in order. -/
theorem extreme_eq (ht : Rep s.heap t p) (hne : t ≠ .nil) (hfuel : t.toList.length ≤ fuel) :
    s.extreme d fuel (rootPtr t) = some (firstPtr (inorder d t)) := by
  induction fuel generalizing t p with
  | zero =>
      obtain ⟨c, near, x, far, rfl⟩ := ColorTree.exists_nodeAt d hne
      rw [length_nodeAt] at hfuel
      omega
  | succ fuel ih =>
      obtain ⟨c, near, x, far, rfl⟩ := ColorTree.exists_nodeAt d hne
      obtain ⟨hx, hnear, -⟩ := rep_nodeAt.mp ht
      rw [length_nodeAt] at hfuel
      simp only [extreme, rootPtr_nodeAt, deref_eq hx, child_cellAt]
      -- the node itself, or the outermost one of its child
      by_cases hnil : near = .nil
      · subst hnil
        rw [ColorTree.inorder_nodeAt, ColorTree.inorder_nil]
        rfl
      · rw [if_pos (rootPtr_isSome hnil), ih hnear hnil (by omega), ColorTree.inorder_nodeAt,
          firstPtr_append (inorder_ne_nil hnil)]

/-- **The climb** ends at the first ancestor whose hole is on the side the tree is read from. -/
theorem climb_eq (hs : Held s (plug fs t)) (ha : rootPtr t = some a) (hfuel : fs.length < fuel) :
    s.climb d.other fuel (some a) (parentPtr fs) = some (firstPtr (rest d fs)) := by
  induction fs generalizing t a fuel with
  | nil =>
      obtain ⟨fuel, rfl⟩ : ∃ n, fuel = n + 1 := ⟨fuel - 1, by omega⟩
      cases d <;> rfl
  | cons f fs ih =>
      obtain ⟨fuel, rfl⟩ : ∃ n, fuel = n + 1 := ⟨fuel - 1, by omega⟩
      obtain ⟨side, c, y, b⟩ := f
      have hy : Held s (plug fs (nodeAt side c t y b)) := hs
      have hcell := hy.cell
      rw [ha] at hcell
      simp only [climb, parentPtr, hcell]
      rcases Side.eq_or_other d side with rfl | rfl
      · -- the hole is on this side
        have hne : rootPtr b ≠ some a := by
          intro h
          exact hs.nodup_focus.2.2 a (rootPtr_mem ha) (List.mem_cons_of_mem _ (List.mem_append_left _ (rootPtr_mem h)))
        rw [child_cellAt_other, if_neg hne, ColorTree.rest_same, firstPtr_cons]
      -- the hole is on the other side: the climb goes on
      · rw [child_cellAt, if_pos rfl, p_cellAt, ColorTree.rest_other]
        simp only [List.length_cons] at hfuel
        exact ih hy rootPtr_nodeAt (by omega)

/-- **The neighbour** is the next element in order. -/
theorem neighbour_eq (hs : Held s (plug fs (nodeAt d c near x far))) :
    s.neighbour d.other (some x.1) = some (firstPtr (inorder d far ++ rest d fs)) := by
  have hle := hs.frames_le
  rw [length_nodeAt] at hle
  unfold neighbour
  simp only [deref_eq hs.cell, Option.bind_eq_bind, Option.bind_some, child_cellAt_other, Side.other_other, p_cellAt]
  -- without a child on that side the walk climbs
  by_cases hnil : far = .nil
  · subst hnil
    rw [ColorTree.inorder_nil, List.nil_append]
    exact climb_eq hs rootPtr_nodeAt (by unfold limit; omega)
  · have hfar := (rep_nodeAt.mp hs.focus.2).2.2
    rw [if_pos (rootPtr_isSome hnil), extreme_eq hfar hnil (by unfold limit; omega), firstPtr_append (inorder_ne_nil hnil)]

/-- From any element on, the walk meets what comes behind it. -/
theorem walkFrom_eq {as bs : List (Elem K V)} (hs : Held s t) (h : inorder d t = as ++ bs) (hfuel : bs.length < fuel) :
    s.walkFrom d.other fuel (firstPtr bs) = some (bs.map Prod.snd) := by
  induction bs generalizing as fuel with
  | nil =>
      obtain ⟨fuel, rfl⟩ : ∃ n, fuel = n + 1 := ⟨fuel - 1, by omega⟩
      rfl
  | cons x bs ih =>
      obtain ⟨fuel, rfl⟩ : ∃ n, fuel = n + 1 := ⟨fuel - 1, by omega⟩
      simp only [List.length_cons] at hfuel
      have hrest : inorder d t = (as ++ [x]) ++ bs := by
        rw [h, List.append_assoc]
        rfl
      have hwalk : s.walkFrom d.other fuel (firstPtr bs) = some (bs.map Prod.snd) := ih hrest (by omega)
      obtain ⟨fs, c, near, far, rfl, hbs⟩ := ColorTree.exists_plug_inorder h
      simp only [walkFrom, firstPtr_cons, Option.isNone_some, Bool.false_eq_true, if_false, Option.bind_eq_bind,
        deref_eq hs.cell, Option.bind_some, neighbour_eq hs, v_cellAt]
      rw [← hbs, hwalk]
      rfl

/-- `min` and `max`: the first element in order, or none. -/
theorem outermost_eq (hs : Held s t) (d : Side) : s.outermost d = some (firstPtr (inorder d t)) := by
  have hle := hs.length_le
  unfold outermost
  rw [hs.root]
  by_cases hnil : t = .nil
  · subst hnil
    rw [ColorTree.inorder_nil]
    rfl
  · rw [if_pos (rootPtr_isSome hnil)]
    exact extreme_eq hs.rep hnil (by unfold limit; omega)

/-- **A walk meets every element once, in order.** -/
theorem walk_eq (hs : Held s t) (d : Side) : s.walk d.other = some ((inorder d t).map Prod.snd) := by
  have hle := hs.length_le
  have hlen : (inorder d t).length < s.limit := by
    have heq : (inorder d t).length = t.toList.length := by
      cases d with
      | left => rfl
      | right => exact List.length_reverse
    unfold limit
    omega
  unfold walk
  rw [Side.other_other, outermost_eq hs]
  exact walkFrom_eq hs (List.nil_append _).symm hlen

/-! ## Distinct keys

What the container promises can be read off the tree that the heap holds, and the other way round. -/

/-- The state holds a red-black search tree, and every `p` names the parent. -/
structure RedBlackTree (cmp : Comparator K) (s : PointerTree K V) (t : ColorTree (Elem K V)) : Prop where
  represents : Rep s.heap t none
  distinct : (ids t).Nodup
  root : s.root = rootPtr t
  rootBlack : t.isRed = false
  ordered : ColorTree.Ordered cmp keyOf t.toList
  redChildren : ∀ u ∈ t.subtrees, u.isRed = true → u.left.isRed = false ∧ u.right.isRed = false
  blackHeight : ∀ a ∈ t.blackCounts, ∀ b ∈ t.blackCounts, a = b
  size : s.size = t.toList.length

/-- The rules, from the invariant. -/
theorem Owned.redBlackTree (h : Owned cmp s t) : RedBlackTree cmp s t := by
  obtain ⟨m, hm⟩ := h.redBlack
  refine ⟨h.held.rep, h.held.nodup, h.held.root, h.black, h.ordered, hm.subtrees, ?_, h.size⟩
  intro a ha b hb
  rw [hm.blackCounts a ha, hm.blackCounts b hb]

/-- And the invariant, from the rules. -/
theorem RedBlackTree.owned (h : RedBlackTree cmp s t) : Owned cmp s t := by
  obtain ⟨b, hb⟩ := ColorTree.blackCounts_ne_nil t
  have hrb : ColorTree.RedBlack t b := ColorTree.redBlack_of_rules h.redChildren fun a ha => h.blackHeight a ha b hb
  exact ⟨⟨h.represents, h.root, h.distinct⟩, h.ordered, ⟨b, hrb⟩, h.rootBlack, h.size⟩

/-- `insert` calls in order. -/
def inserts (cmp : Comparator K) : PointerTree K V → List (K × V) → Option (PointerTree K V)
  | s, [] => some s
  | s, p :: ps =>
      match s.insert cmp p with
      | none => none
      | some (s, _, _) => inserts cmp s ps

/-- Insertions of new keys into a tree that has some. -/
theorem Owned.inserts {ps : List (K × V)} (h : Owned cmp s t)
    (hnew : ∀ p ∈ ps, ∀ x ∈ t.toList, cmp.equiv p.1 (keyOf x) = false)
    (hps : ps.Pairwise fun p q => cmp.equiv p.1 q.1 = false) :
    ∃ s' t', s.inserts cmp ps = some s' ∧ Owned cmp s' t' ∧
      (t'.toList.map Prod.snd).Perm (t.toList.map Prod.snd ++ ps) := by
  induction ps generalizing s t with
  | nil =>
      refine ⟨s, t, rfl, h, ?_⟩
      rw [List.append_nil]
  | cons p ps ih =>
      obtain ⟨hp, hps⟩ := List.pairwise_cons.mp hps
      obtain ⟨s₁, t₁, as, bs, hins, h₁, hlist, hlist₁⟩ := h.insert_new (hnew p List.mem_cons_self) p.2
      have hnew₁ : ∀ q ∈ ps, ∀ x ∈ t₁.toList, cmp.equiv q.1 (keyOf x) = false := by
        intro q hq x hx
        rw [hlist₁] at hx
        rcases List.mem_append.mp hx with hx | hx
        · exact hnew q (List.mem_cons_of_mem _ hq) x (by rw [hlist]; exact List.mem_append_left _ hx)
        · rcases List.mem_cons.mp hx with rfl | hx
          · rw [Bool.eq_false_iff]
            intro heq
            have hpq : cmp.equiv p.1 q.1 = true := Comparator.equiv_symm heq
            rw [hp q hq] at hpq
            cases hpq
          · exact hnew q (List.mem_cons_of_mem _ hq) x (by rw [hlist]; exact List.mem_append_right _ hx)
      obtain ⟨s', t', hrest, h', hperm⟩ := ih h₁ hnew₁ hps
      refine ⟨s', t', ?_, h', hperm.trans ?_⟩
      · unfold PointerTree.inserts
        rw [hins]
        exact hrest
      · rw [hlist₁, hlist]
        simp only [List.map_append, List.map_cons, List.append_assoc, List.cons_append]
        refine (List.Perm.append_left _ ?_)
        exact List.perm_middle.symm

/-- **Insertions of distinct keys keep a red-black search tree.** It holds the inserted pairs, and both walks meet them
    in order. -/
theorem redBlackTree_of_inserts {ps : List (K × V)} (hps : ps.Pairwise fun p q => cmp.equiv p.1 q.1 = false) :
    ∃ s t, (empty : PointerTree K V).inserts cmp ps = some s ∧ RedBlackTree cmp s t ∧
      (t.toList.map Prod.snd).Perm ps ∧ s.size = ps.length ∧
      (t.toList.map Prod.snd).Pairwise (fun p q => cmp.less p.1 q.1 = true) ∧
      s.walk .right = some (t.toList.map Prod.snd) ∧ s.walk .left = some (t.toList.map Prod.snd).reverse := by
  obtain ⟨s, t, hins, h, hperm⟩ := owned_empty.inserts (fun p _ x hx => (nomatch hx)) hps
  have hsize := h.size
  have hlen := hperm.length_eq
  simp only [ColorTree.toList_nil, List.map_nil, List.nil_append, List.length_map] at hlen hperm
  refine ⟨s, t, hins, h.redBlackTree, hperm, hsize.trans hlen, ?_, walk_eq h.held .left, ?_⟩
  · exact List.pairwise_map.mpr h.ordered
  · have hwalk := walk_eq h.held .right
    rw [← List.map_reverse]
    exact hwalk

/-- The keys 2, 1, 3, in this order. -/
theorem redBlackTree_of_inserts_three : ∃ (s : PointerTree Nat Nat) (t : ColorTree (Elem Nat Nat)),
    (empty : PointerTree Nat Nat).inserts Comparator.nat [(2, 20), (1, 10), (3, 30)] = some s ∧
      RedBlackTree Comparator.nat s t ∧ s.size = 3 := by
  obtain ⟨s, t, hins, htree, -, hsize, -⟩ :=
    redBlackTree_of_inserts (show List.Pairwise (fun p q => Comparator.nat.equiv p.1 q.1 = false) [(2, 20), (1, 10), (3, 30)] by decide)
  exact ⟨s, t, hins, htree, hsize⟩

end PointerTree
end Snippets
