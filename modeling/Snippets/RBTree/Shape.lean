import Snippets.RBTree.Model

/-!
# `RBTree.Shape` — the tree a heap represents

`Rep h t p` says that the nodes of `h` spell out the tree `t`, whose elements are node ids with their pairs, and
that every `p` field names the parent (`p` for the root). `Held` adds that the ids are distinct and valid. Each
function of the source that works on nodes alone turns a held tree into the tree that its counterpart in
`Lib.LeftLeaning` gives, and touches no other node (`Becomes`).
-/

namespace Snippets

open Lib

namespace RBTree

variable {K V : Type}

/-- A node id and the pair stored there. -/
abbrev Elem (K V : Type) := NodeId × (K × V)

/-- The key of an element. -/
def keyOf (x : Elem K V) : K := x.2.1

/-- The id a link to the tree holds. -/
def rootId : ColorTree (Elem K V) → NodeId
  | .nil => kInvalidNodeId
  | .node _ _ x _ => x.1

/-- The ids of the nodes of the tree, in order. -/
def ids (t : ColorTree (Elem K V)) : List NodeId := t.toList.map Prod.fst

/-- The heap spells out the tree, with `p` as the parent of its root. -/
def Rep (h : Heap K V) : ColorTree (Elem K V) → NodeId → Prop
  | .nil, _ => True
  | .node c l x r, p => h x.1 = ⟨c, p, rootId l, rootId r, x.2⟩ ∧ Rep h l x.1 ∧ Rep h r x.1

/-- The heap holds the tree in distinct, valid nodes. -/
structure Held (h : Heap K V) (t : ColorTree (Elem K V)) (p : NodeId) : Prop where
  rep : Rep h t p
  nodup : (ids t).Nodup
  pos : ∀ i ∈ ids t, 0 ≤ i

variable {h h' : Heap K V} {t t' l m r : ColorTree (Elem K V)} {x y : Elem K V} {c : Color} {p q i j k : NodeId}

/-! ## Ids

Where the ids of a tree are, and how a held tree comes apart into its root and its two subtrees (`held_node`). -/

/-- No node, no id. -/
@[simp] theorem rootId_nil : rootId (.nil : ColorTree (Elem K V)) = kInvalidNodeId := rfl

/-- The root's id is that of its element. -/
@[simp] theorem rootId_node : rootId (.node c l x r) = x.1 := rfl

/-- The empty tree has no ids. -/
@[simp] theorem ids_nil : ids (.nil : ColorTree (Elem K V)) = [] := rfl

/-- An id of a tree is the root's or one of the two subtrees'. -/
theorem mem_ids_node : i ∈ ids (.node c l x r) ↔ i ∈ ids l ∨ i = x.1 ∨ i ∈ ids r := by
  unfold ids
  rw [ColorTree.toList_node, List.map_append, List.map_cons, List.mem_append, List.mem_cons]

/-- Trees with the same elements have the same ids. -/
theorem ids_congr (ht : t'.toList = t.toList) : ids t' = ids t := by
  unfold ids
  rw [ht]

/-- The root of a tree is one of its nodes, if there is one. -/
theorem rootId_cases (t : ColorTree (Elem K V)) : t = .nil ∨ rootId t ∈ ids t := by
  cases t with
  | nil => exact Or.inl rfl
  | node c l x r => exact Or.inr (mem_ids_node.mpr (Or.inr (Or.inl rfl)))

/-- A held node: its record, its subtrees, and that the three are apart. -/
structure Split (h : Heap K V) (c : Color) (l : ColorTree (Elem K V)) (x : Elem K V) (r : ColorTree (Elem K V)) (p : NodeId) :
    Prop where
  here : h x.1 = ⟨c, p, rootId l, rootId r, x.2⟩
  valid : 0 ≤ x.1
  left : Held h l x.1
  right : Held h r x.1
  not_left : x.1 ∉ ids l
  not_right : x.1 ∉ ids r
  apart : ∀ i ∈ ids l, i ∉ ids r

/-- A held tree with a root is a root whose links lead to two held trees, apart from each other and from it. -/
theorem held_node : Held h (.node c l x r) p ↔ Split h c l x r p := by
  have hids : ids (.node c l x r) = ids l ++ x.1 :: ids r := by
    unfold ids
    rw [ColorTree.toList_node, List.map_append, List.map_cons]
  -- both ways, the order of the elements is left subtree, root, right subtree
  constructor
  · rintro ⟨⟨hx, hl, hr⟩, hnodup, hpos⟩
    rw [hids, List.nodup_append] at hnodup
    obtain ⟨hnl, hnxr, hdis⟩ := hnodup
    obtain ⟨hxr, hnr⟩ := List.nodup_cons.mp hnxr
    refine ⟨hx, hpos _ (mem_ids_node.mpr (Or.inr (Or.inl rfl))), ⟨hl, hnl, ?_⟩, ⟨hr, hnr, ?_⟩, ?_, hxr, ?_⟩
    · exact fun i hi => hpos i (mem_ids_node.mpr (Or.inl hi))
    · exact fun i hi => hpos i (mem_ids_node.mpr (Or.inr (Or.inr hi)))
    · exact fun hxl => hdis _ hxl _ List.mem_cons_self rfl
    · exact fun i hil hir => hdis i hil i (List.mem_cons_of_mem _ hir) rfl
  · intro s
    refine ⟨⟨s.here, s.left.rep, s.right.rep⟩, ?_, ?_⟩
    · rw [hids, List.nodup_append]
      refine ⟨s.left.nodup, List.nodup_cons.mpr ⟨s.not_right, s.right.nodup⟩, ?_⟩
      rintro i hi j hj rfl
      rcases List.mem_cons.mp hj with rfl | hj
      · exact s.not_left hi
      · exact s.apart i hi hj
    · intro i hi
      rcases mem_ids_node.mp hi with hi | rfl | hi
      · exact s.left.pos i hi
      · exact s.valid
      · exact s.right.pos i hi

/-- Every heap holds the empty tree. -/
theorem held_nil : Held h .nil p := ⟨trivial, List.nodup_nil, fun _ hi => nomatch hi⟩

/-- The root id is invalid only for the empty tree. -/
theorem Held.rootId_eq (ht : Held h t p) : rootId t = kInvalidNodeId ↔ t.isNil = true := by
  cases t with
  | nil => exact iff_of_true rfl rfl
  | node c l x r =>
      refine iff_of_false (fun heq => ?_) (by simp)
      have h0 := ht.pos x.1 (mem_ids_node.mpr (Or.inr (Or.inl rfl)))
      rw [rootId_node] at heq
      rw [heq] at h0
      exact absurd h0 (by decide)

/-! ## Frames -/

/-- Only the nodes of the tree matter. -/
theorem Rep.congr (ht : Rep h t p) (hframe : ∀ k ∈ ids t, h' k = h k) : Rep h' t p := by
  induction t generalizing p with
  | nil => trivial
  | node c l x r ihl ihr =>
      obtain ⟨hx, hl, hr⟩ := ht
      refine ⟨?_, ihl hl fun k hk => ?_, ihr hr fun k hk => ?_⟩
      · rw [hframe _ (mem_ids_node.mpr (Or.inr (Or.inl rfl))), hx]
      · exact hframe k (mem_ids_node.mpr (Or.inl hk))
      · exact hframe k (mem_ids_node.mpr (Or.inr (Or.inr hk)))

/-- Only the nodes of a tree matter to it. -/
theorem Held.congr (ht : Held h t p) (hframe : ∀ k ∈ ids t, h' k = h k) : Held h' t p :=
  ⟨ht.rep.congr hframe, ht.nodup, ht.pos⟩

/-- A new parent is written into the root alone. -/
theorem Held.reparent (ht : Held h t p) (hframe : ∀ k ∈ ids t, k ≠ rootId t → h' k = h k)
    (hroot : rootId t ≠ kInvalidNodeId → h' (rootId t) = { h (rootId t) with p := q }) : Held h' t q := by
  cases t with
  | nil => exact held_nil
  | node c l x r =>
      have s := held_node.mp ht
      have hne : x.1 ≠ kInvalidNodeId := fun heq => absurd (ht.rootId_eq.mp heq) (by simp)
      refine held_node.mpr ⟨?_, s.valid, s.left.congr fun k hk => ?_, s.right.congr fun k hk => ?_, s.not_left,
        s.not_right, s.apart⟩
      · rw [← rootId_node (c := c) (l := l) (x := x) (r := r), hroot hne, rootId_node, s.here]
      · exact hframe k (mem_ids_node.mpr (Or.inl hk)) (by rintro rfl; exact s.not_left hk)
      · exact hframe k (mem_ids_node.mpr (Or.inr (Or.inr hk))) (by rintro rfl; exact s.not_right hk)

/-! ## Reading

`node` and `getPointer` of the ids of a held tree. `write` and `store` change one node, and every reading lemma
is for that node or for another. -/

/-- A written node is what was written, -/
@[simp] theorem write_self (n : RBNode K V) : (h.write i n) i = n := if_pos rfl

/-- and any other is as before. -/
theorem write_of_ne (n : RBNode K V) (hne : k ≠ i) : (h.write i n) k = h k := if_neg hne

/-- A changed node is the change of what it was, -/
@[simp] theorem store_self (f : RBNode K V → RBNode K V) : (h.store i f) i = f (h i) := if_pos rfl

/-- and any other is as before. -/
theorem store_of_ne (f : RBNode K V → RBNode K V) (hne : k ≠ i) : (h.store i f) k = h k := if_neg hne

/-- A valid id is not the invalid one. -/
theorem ne_invalid (hi : 0 ≤ i) : i ≠ kInvalidNodeId := by
  rintro rfl
  exact absurd hi (by decide)

/-- `GetPointer` of a valid id, -/
theorem getPointer_of_pos (hi : 0 ≤ i) : h.getPointer i = some (some (h i)) := by
  unfold Heap.getPointer
  rw [if_neg (ne_invalid hi), if_pos hi]

/-- the same when it is followed, -/
theorem node_of_pos (hi : 0 ≤ i) : h.node i = some (h i) := by
  unfold Heap.node
  rw [getPointer_of_pos hi]
  rfl

/-- and of the invalid one. -/
@[simp] theorem getPointer_invalid : h.getPointer kInvalidNodeId = some none := if_pos rfl

/-- The root of a held tree, read from the heap. -/
theorem Held.node_eq (ht : Held h (.node c l x r) p) : h.node x.1 = some ⟨c, p, rootId l, rootId r, x.2⟩ := by
  rw [node_of_pos (held_node.mp ht).valid, (held_node.mp ht).here]

/-- `IsRed` of its id is the colour of the tree; the empty tree is black, as in the source. -/
theorem Held.isRed_eq (ht : Held h t p) : h.isRed (rootId t) = some t.isRed := by
  unfold Heap.isRed
  cases t with
  | nil => rfl
  | node c l x r =>
      rw [rootId_node, getPointer_of_pos (held_node.mp ht).valid, (held_node.mp ht).here]
      cases c <;> rfl

/-- `SetParent` of no node does nothing, -/
@[simp] theorem setParent_invalid : h.setParent kInvalidNodeId q = some h := rfl

/-- and of a node stores the parent. -/
theorem setParent_of_pos (hi : 0 ≤ i) : h.setParent i q = some (h.store i fun n => { n with p := q }) := by
  unfold Heap.setParent
  rw [getPointer_of_pos hi]
  rfl

/-- `if (node) node->p = p` on the root of a held tree. -/
theorem Held.setParent_eq (ht : Held h t p) (q : NodeId) :
    ∃ h', h.setParent (rootId t) q = some h' ∧ Held h' t q ∧
      (rootId t ≠ kInvalidNodeId → h' (rootId t) = { h (rootId t) with p := q }) ∧ ∀ k, k ≠ rootId t → h' k = h k := by
  cases t with
  | nil => exact ⟨h, rfl, held_nil, fun hne => absurd rfl hne, fun k _ => rfl⟩
  | node c l x r =>
      have hs := held_node.mp ht
      rw [rootId_node, setParent_of_pos hs.valid]
      refine ⟨h.store x.1 fun n => { n with p := q }, rfl, ?_, fun _ => store_self _, fun k hk => store_of_ne _ hk⟩
      exact ht.reparent (fun k _ hk => store_of_ne _ hk) fun _ => store_self _

/-! ## Rotations

The two rotations are one function of a side. It is followed write by write once (`rotate_eq`); after that a
rotation is known by the tree it leaves. -/

/-- Setting a child keeps the colour, -/
@[simp] theorem setChild_c (n : RBNode K V) (side : Side) : (n.setChild side i).c = n.c := by cases side <;> rfl

/-- and the parent. -/
@[simp] theorem setChild_p (n : RBNode K V) (side : Side) : (n.setChild side i).p = n.p := by cases side <;> rfl

/-- What a rotation writes: the node, its child, and the subtree that changes hands. -/
theorem rotate_eq (side : Side) {j m : NodeId} (hi : 0 ≤ i) (hj : (h i).child side.other = j) (hj₀ : 0 ≤ j)
    (hred : (h j).c = .red) (hij : i ≠ j) (hm : (h j).child side = m) (hm₀ : m = kInvalidNodeId ∨ 0 ≤ m) (hmi : m ≠ i)
    (hmj : m ≠ j) :
    ∃ h', h.rotate side i = some (h', j) ∧
      h' i = { (h i).setChild side.other m with p := j, c := .red } ∧
      h' j = { (h j).setChild side i with p := (h i).p, c := (h i).c } ∧
      (m ≠ kInvalidNodeId → h' m = { h m with p := i }) ∧
      ∀ k, k ≠ i → k ≠ j → (m ≠ kInvalidNodeId → k ≠ m) → h' k = h k := by
  subst hj hm
  generalize hj : (h i).child side.other = j at *
  generalize hm : (h j).child side = m at *
  have hsp : ∃ h₁, (h.store i fun n => n.setChild side.other m).setParent m i = some h₁ ∧
      h₁ i = (h i).setChild side.other m ∧ h₁ j = h j ∧ (m ≠ kInvalidNodeId → h₁ m = { h m with p := i }) ∧
      ∀ k, k ≠ i → k ≠ j → (m ≠ kInvalidNodeId → k ≠ m) → h₁ k = h k := by
    -- hm₀ | the inner grandchild, whose parent changes if it is there
    rcases hm₀ with rfl | hm₀
    · rw [setParent_invalid]
      refine ⟨_, rfl, store_self _, store_of_ne _ (Ne.symm hij), fun hne => absurd rfl hne, ?_⟩
      intro k hk _ _
      exact store_of_ne _ hk
    · rw [setParent_of_pos hm₀]
      refine ⟨_, rfl, ?_, ?_, fun _ => ?_, ?_⟩
      · exact (store_of_ne _ (Ne.symm hmi)).trans (store_self _)
      · exact (store_of_ne _ (Ne.symm hmj)).trans (store_of_ne _ (Ne.symm hij))
      · exact (store_self _).trans (by rw [store_of_ne _ hmi])
      · intro k hk _ hkm
        exact (store_of_ne _ (hkm (ne_invalid hm₀))).trans (store_of_ne _ hk)
  obtain ⟨h₁, hset, hi₁, hj₁, hm₁, hrest⟩ := hsp
  have hji : j ≠ i := Ne.symm hij
  refine ⟨_, by
    unfold Heap.rotate
    rw [node_of_pos hi]
    simp only [Option.bind_eq_bind, Option.bind_some, hj, node_of_pos hj₀, hred, guard, if_true, hm, hset]
    rfl, ?_, ?_, ?_, ?_⟩
  · simp [store_of_ne, hij, hi₁]
  · simp [store_of_ne, hij, hji, hi₁, hj₁]
  · intro hne
    simp [store_of_ne, hmi, hmj, hm₁ hne]
  · intro k hk hkj hkm
    simp [store_of_ne, hk, hkj, hrest k hk hkj hkm]

/-- The function turned `t` into `t'`, in place: same parent, and no other node changed. -/
def Becomes (h : Heap K V) (t : ColorTree (Elem K V)) (p : NodeId) (res : Option (Heap K V × NodeId))
    (t' : ColorTree (Elem K V)) : Prop :=
  ∃ h', res = some (h', rootId t') ∧ Held h' t' p ∧ ∀ k, k ∉ ids t → h' k = h k

/-- A call that does nothing leaves the tree. -/
theorem Held.becomes_self (ht : Held h t p) : Becomes h t p (some (h, rootId t)) t := ⟨h, rfl, ht, fun _ _ => rfl⟩

/-- The root of a held subtree is invalid or one of its nodes, and valid then. -/
theorem Held.rootId_or (ht : Held h t p) : rootId t = kInvalidNodeId ∨ 0 ≤ rootId t := by
  rcases rootId_cases t with rfl | hmem
  · exact Or.inl rfl
  · exact Or.inr (ht.pos _ hmem)

/-- The invalid id is not one of the tree's. -/
theorem Held.invalid_not_mem (ht : Held h t p) : kInvalidNodeId ∉ ids t :=
  fun hmem => absurd (ht.pos _ hmem) (by decide)

/-- The root of a subtree is not among the nodes of a tree that is apart from it. -/
theorem Held.rootId_not_mem (hl : Held h l p) (hap : ∀ i ∈ ids m, i ∉ ids l) : rootId m ∉ ids l := by
  rcases rootId_cases m with rfl | hmem
  · exact hl.invalid_not_mem
  · exact hap _ hmem

/-- A node off the tree is not its root. -/
theorem rootId_ne (hi : 0 ≤ i) (hnot : i ∉ ids t) : rootId t ≠ i := by
  rintro rfl
  rcases rootId_cases t with rfl | hmem
  · exact ne_invalid hi rfl
  · exact hnot hmem

/-- A tree of the same elements is held as soon as it is spelled out. -/
theorem Held.of_rep (ht : Held h t p) (hlist : t'.toList = t.toList) (hrep : Rep h' t' q) : Held h' t' q := by
  refine ⟨hrep, ?_, ?_⟩
  · rw [ids_congr hlist]; exact ht.nodup
  · rw [ids_congr hlist]; exact ht.pos

/-- A tree away from the three nodes a rotation writes. -/
theorem Held.away {a b d : NodeId} (ht : Held h t p)
    (hframe : ∀ k, k ≠ a → k ≠ b → (d ≠ kInvalidNodeId → k ≠ d) → h' k = h k)
    (ha : a ∉ ids t) (hb : b ∉ ids t) (hd : d ∉ ids t) : Held h' t p := by
  apply ht.congr
  intro k hk
  apply hframe
  · rintro rfl; exact ha hk
  · rintro rfl; exact hb hk
  · rintro _ rfl; exact hd hk

/-- `RotateLeft` of a node with a red right child. -/
theorem Held.rotateLeft (ht : Held h (.node c l x (.node .red m y r)) p) :
    Becomes h (.node c l x (.node .red m y r)) p (h.rotateLeft x.1) (.node c (.node .red l x m) y r) := by
  have sx := held_node.mp ht
  have sy := held_node.mp sx.right
  have hy : y.1 ∈ ids (.node .red m y r) := mem_ids_node.mpr (Or.inr (Or.inl rfl))
  have hxy : x.1 ≠ y.1 := fun heq => sx.not_right (heq ▸ hy)
  have hxm : x.1 ∉ ids m := fun hmem => sx.not_right (mem_ids_node.mpr (Or.inl hmem))
  have hxr : x.1 ∉ ids r := fun hmem => sx.not_right (mem_ids_node.mpr (Or.inr (Or.inr hmem)))
  have hml : rootId m ∉ ids l :=
    sx.left.rootId_not_mem fun i hi hil => sx.apart i hil (mem_ids_node.mpr (Or.inl hi))
  obtain ⟨h', hrot, hx', hy', hm', hframe⟩ := rotate_eq (h := h) (i := x.1) (j := y.1) (m := rootId m) .left
    sx.valid (by rw [sx.here]; rfl) sy.valid (by rw [sy.here]) hxy (by rw [sy.here]; rfl) sy.left.rootId_or
    (rootId_ne sx.valid hxm) (rootId_ne sy.valid sy.not_left)
  have hl := sx.left.away hframe sx.not_left (fun hmem => sx.apart _ hmem hy) hml
  have hr := sy.right.away hframe hxr sy.not_right (sy.right.rootId_not_mem sy.apart)
  have hm : Held h' m x.1 := by
    apply sy.left.reparent _ hm'
    intro k hk hne
    apply hframe k _ _ fun _ => hne
    · rintro rfl; exact hxm hk
    · rintro rfl; exact sy.not_left hk
  refine ⟨h', hrot, ht.of_rep (ColorTree.toList_rotateLeft (.node c l x (.node .red m y r))) ?_, ?_⟩
  · refine ⟨?_, ⟨?_, hl.rep, hm.rep⟩, hr.rep⟩
    · rw [hy', sx.here, sy.here]; rfl
    · rw [hx', sx.here]; rfl
  · intro k hk
    rw [mem_ids_node, mem_ids_node] at hk
    push Not at hk
    apply hframe k hk.2.1 hk.2.2.2.1
    rintro hne rfl
    rcases rootId_cases m with rfl | hmem
    · exact hne rfl
    · exact hk.2.2.1 hmem

/-- `RotateRight` of a node with a red left child. -/
theorem Held.rotateRight (ht : Held h (.node c (.node .red l x m) y r) p) :
    Becomes h (.node c (.node .red l x m) y r) p (h.rotateRight y.1) (.node c l x (.node .red m y r)) := by
  have sy := held_node.mp ht
  have sx := held_node.mp sy.left
  have hx : x.1 ∈ ids (.node .red l x m) := mem_ids_node.mpr (Or.inr (Or.inl rfl))
  have hyx : y.1 ≠ x.1 := fun heq => sy.not_left (heq ▸ hx)
  have hym : y.1 ∉ ids m := fun hmem => sy.not_left (mem_ids_node.mpr (Or.inr (Or.inr hmem)))
  have hyl : y.1 ∉ ids l := fun hmem => sy.not_left (mem_ids_node.mpr (Or.inl hmem))
  have hmr : rootId m ∉ ids r :=
    sy.right.rootId_not_mem fun i hi hir => sy.apart i (mem_ids_node.mpr (Or.inr (Or.inr hi))) hir
  obtain ⟨h', hrot, hy', hx', hm', hframe⟩ := rotate_eq (h := h) (i := y.1) (j := x.1) (m := rootId m) .right
    sy.valid (by rw [sy.here]; rfl) sx.valid (by rw [sx.here]) hyx (by rw [sx.here]; rfl) sx.right.rootId_or
    (rootId_ne sy.valid hym) (rootId_ne sx.valid sx.not_right)
  have hr := sy.right.away hframe sy.not_right (fun hmem => sy.apart _ hx hmem) hmr
  have hl := sx.left.away hframe hyl sx.not_left (sx.left.rootId_not_mem fun i hi hil => sx.apart i hil hi)
  have hm : Held h' m y.1 := by
    apply sx.right.reparent _ hm'
    intro k hk hne
    apply hframe k _ _ fun _ => hne
    · rintro rfl; exact hym hk
    · rintro rfl; exact sx.not_right hk
  refine ⟨h', hrot, ht.of_rep (ColorTree.toList_rotateRight (.node c (.node .red l x m) y r)) ?_, ?_⟩
  · refine ⟨?_, hl.rep, ?_, hm.rep, hr.rep⟩
    · rw [hx', sy.here, sx.here]; rfl
    · rw [hy', sy.here]; rfl
  · intro k hk
    rw [mem_ids_node, mem_ids_node] at hk
    push Not at hk
    apply hframe k hk.2.1 hk.1.2.1
    rintro hne rfl
    rcases rootId_cases m with rfl | hmem
    · exact hne rfl
    · exact hk.1.2.2 hmem

/-! ## Colours

`FlipColor` and its three calls in `FlipColors`. Colours are not links, so the ids and the shape stay. -/

/-- Setting the colour of the root. -/
theorem Held.recolor (ht : Held h (.node c l x r) p) (d : Color) :
    Held (h.store x.1 fun n => { n with c := d }) (.node d l x r) p := by
  have s := held_node.mp ht
  refine held_node.mpr ⟨?_, s.valid, s.left.congr fun k hk => ?_, s.right.congr fun k hk => ?_, s.not_left, s.not_right,
    s.apart⟩
  · rw [store_self, s.here]
  · exact store_of_ne _ (by rintro rfl; exact s.not_left hk)
  · exact store_of_ne _ (by rintro rfl; exact s.not_right hk)

/-- Turning it over. -/
theorem Held.flipColor (ht : Held h t p) (hne : t ≠ .nil) : Held (h.flipColor (rootId t)) t.flip p := by
  cases t with
  | nil => exact absurd rfl hne
  | node c l x r =>
      have h' := ht.recolor c.flip
      have heq : h.flipColor x.1 = h.store x.1 fun n => { n with c := c.flip } := by
        unfold Heap.flipColor Heap.store
        rw [(held_node.mp ht).here]
      rw [rootId_node, heq]
      exact h'

/-- The same ids, -/
theorem ids_flip (t : ColorTree (Elem K V)) : ids t.flip = ids t := ids_congr (ColorTree.toList_flip t)

/-- and the same root. -/
theorem rootId_flip (t : ColorTree (Elem K V)) : rootId t.flip = rootId t := by cases t <;> rfl

/-- A subtree changed in place, seen from its parent; the parent's link may have been changed on the way. -/
theorem Split.graftLeft {l' : ColorTree (Elem K V)} (s : Split h c l x r p) (hx : ∃ q, h' x.1 = { h x.1 with l := q })
    (hr : ∀ k ∈ ids r, h' k = h k) (hl : Held h' l' x.1) (hnot : x.1 ∉ ids l') (hap : ∀ i ∈ ids l', i ∉ ids r) :
    Held (h'.store x.1 fun n => { n with l := rootId l' }) (.node c l' x r) p := by
  obtain ⟨q, hq⟩ := hx
  refine held_node.mpr ⟨?_, s.valid, hl.congr fun k hk => ?_, s.right.congr fun k hk => ?_, hnot, s.not_right, hap⟩
  · rw [store_self, hq, s.here]
  · exact store_of_ne _ (by rintro rfl; exact hnot hk)
  · rw [store_of_ne _ (by rintro rfl; exact s.not_right hk), hr k hk]

/-- A root whose right link was replaced by the root of another held tree. -/
theorem Split.graftRight {r' : ColorTree (Elem K V)} (s : Split h c l x r p)
    (hx : ∃ q, h' x.1 = { h x.1 with r := q }) (hl : ∀ k ∈ ids l, h' k = h k) (hr : Held h' r' x.1)
    (hnot : x.1 ∉ ids r') (hap : ∀ i ∈ ids l, i ∉ ids r') :
    Held (h'.store x.1 fun n => { n with r := rootId r' }) (.node c l x r') p := by
  obtain ⟨q, hq⟩ := hx
  refine held_node.mpr ⟨?_, s.valid, s.left.congr fun k hk => ?_, hr.congr fun k hk => ?_, s.not_left, hnot, hap⟩
  · rw [store_self, hq, s.here]
  · rw [store_of_ne _ (by rintro rfl; exact s.not_left hk), hl k hk]
  · exact store_of_ne _ (by rintro rfl; exact hnot hk)

/-- `FlipColors`, when both children are there. -/
theorem Held.flipColors (ht : Held h (.node c l x r) p) (hl : l ≠ .nil) (hr : r ≠ .nil) :
    ∃ h', h.flipColors x.1 = some h' ∧ Held h' (.node c.flip l.flip x r.flip) p ∧
      ∀ k, k ∉ ids (.node c l x r) → h' k = h k := by
  have s := held_node.mp ht
  have hlmem : rootId l ∈ ids l := (rootId_cases l).resolve_left hl
  have hrmem : rootId r ∈ ids r := (rootId_cases r).resolve_left hr
  have hxl : x.1 ≠ rootId l := fun heq => s.not_left (heq ▸ hlmem)
  have hxr : x.1 ≠ rootId r := fun heq => s.not_right (heq ▸ hrmem)
  have hlr : rootId l ≠ rootId r := fun heq => s.apart _ hlmem (heq ▸ hrmem)
  have h₁ : h.flipColors x.1 = some (((h.flipColor x.1).flipColor (rootId l)).flipColor (rootId r)) := by
    unfold Heap.flipColors
    rw [ht.node_eq]
    simp only [Option.bind_eq_bind, Option.bind_some, node_of_pos (s.left.pos _ hlmem),
      node_of_pos (s.right.pos _ hrmem)]
    rfl
  -- only these three nodes are written
  have hother : ∀ k, k ≠ x.1 → k ≠ rootId l → k ≠ rootId r →
      (((h.flipColor x.1).flipColor (rootId l)).flipColor (rootId r)) k = h k := by
    intro k hkx hkl hkr
    unfold Heap.flipColor
    rw [store_of_ne _ hkr, store_of_ne _ hkl, store_of_ne _ hkx]
  refine ⟨_, h₁, held_node.mpr ⟨?_, s.valid, ?_, ?_, ?_, ?_, ?_⟩, ?_⟩
  · unfold Heap.flipColor
    rw [store_of_ne _ hxr, store_of_ne _ hxl, store_self, s.here, rootId_flip, rootId_flip]
  -- the left child is not the root and not the right child
  · have hl₁ : Held (h.flipColor x.1) l x.1 := s.left.congr fun k hk => store_of_ne _ (by rintro rfl; exact s.not_left hk)
    refine (hl₁.flipColor hl).congr fun k hk => store_of_ne _ ?_
    rintro rfl
    rw [ids_flip] at hk
    exact s.apart _ hk hrmem
  · have hr₁ : Held ((h.flipColor x.1).flipColor (rootId l)) r x.1 := by
      apply s.right.congr
      intro k hk
      unfold Heap.flipColor
      rw [store_of_ne _ (by rintro rfl; exact s.apart _ hlmem hk), store_of_ne _ (by rintro rfl; exact s.not_right hk)]
    exact hr₁.flipColor hr
  · rw [ids_flip]; exact s.not_left
  · rw [ids_flip]; exact s.not_right
  · rw [ids_flip, ids_flip]; exact s.apart
  · intro k hk
    rw [mem_ids_node] at hk
    push Not at hk
    apply hother k hk.2.1
    · rintro rfl; exact hk.1 hlmem
    · rintro rfl; exact hk.2.2 hrmem

/-! ## `KeepBalance`

Its three steps one after the other; each one either does nothing or is a rotation or a flip, and leaves a tree
with the same elements. -/

/-- One step after another. -/
theorem Becomes.trans {h₁ : Heap K V} {res : Option (Heap K V × NodeId)} {t₁ t₂ : ColorTree (Elem K V)}
    (hb : Becomes h t p (some (h₁, i)) t₁) (hlist : t₁.toList = t.toList) (hb' : Becomes h₁ t₁ p res t₂) :
    Becomes h t p res t₂ := by
  obtain ⟨g₁, hres₁, -, hframe₁⟩ := hb
  obtain ⟨h₂, hres₂, ht₂, hframe₂⟩ := hb'
  obtain ⟨rfl, -⟩ := Prod.mk.inj (Option.some.inj hres₁)
  refine ⟨h₂, hres₂, ht₂, fun k hk => ?_⟩
  rw [hframe₂ k (by rw [ids_congr hlist]; exact hk), hframe₁ k hk]

/-- Two steps one after the other. -/
theorem Becomes.bind {res : Option (Heap K V × NodeId)} {t₁ t₂ : ColorTree (Elem K V)}
    {f : Heap K V × NodeId → Option (Heap K V × NodeId)} (hb : Becomes h t p res t₁) (hlist : t₁.toList = t.toList)
    (hf : ∀ h₁, Held h₁ t₁ p → Becomes h₁ t₁ p (f (h₁, rootId t₁)) t₂) : Becomes h t p (res >>= f) t₂ := by
  obtain ⟨h₁, rfl, ht₁, hframe₁⟩ := hb
  exact Becomes.trans ⟨h₁, rfl, ht₁, hframe₁⟩ hlist (hf h₁ ht₁)

/-- The first step turns a red right child to the left. -/
theorem Held.fixRight (ht : Held h t p) (hne : t ≠ .nil) : Becomes h t p (h.fixRight (rootId t)) t.fixRight := by
  cases t with
  | nil => exact absurd rfl hne
  | node c l x r =>
      unfold Heap.fixRight ColorTree.fixRight
      simp only [rootId_node, ht.node_eq, Option.bind_eq_bind, Option.bind_some, (held_node.mp ht).right.isRed_eq,
        ColorTree.right_node]
      rcases r with _ | ⟨_ | _, m, y, r⟩
      · exact ht.becomes_self
      · exact ht.rotateLeft
      · exact ht.becomes_self

/-- The second turns up the first of two red nodes in a row. -/
theorem Held.fixLeft (ht : Held h t p) (hne : t ≠ .nil) : Becomes h t p (h.fixLeft (rootId t)) t.fixLeft := by
  cases t with
  | nil => exact absurd rfl hne
  | node c l x r =>
      have s := held_node.mp ht
      unfold Heap.fixLeft ColorTree.fixLeft
      simp only [rootId_node, ht.node_eq, Option.bind_eq_bind, Option.bind_some, s.left.isRed_eq, ColorTree.left_node]
      rcases l with _ | ⟨_ | _, a, y, m⟩
      · exact ht.becomes_self
      · simp only [rootId_node, s.left.node_eq, Option.bind_some, (held_node.mp s.left).left.isRed_eq,
          ColorTree.isRed_red, ColorTree.left_node, Bool.true_and, if_true]
        cases a.isRed with
        | true => exact ht.rotateRight
        | false => exact ht.becomes_self
      · exact ht.becomes_self

/-- The third gives the redness of two red children to their parent. -/
theorem Held.fixBoth (ht : Held h t p) (hne : t ≠ .nil) : Becomes h t p (h.fixBoth (rootId t)) t.fixBoth := by
  cases t with
  | nil => exact absurd rfl hne
  | node c l x r =>
      have s := held_node.mp ht
      have hrun : h.fixBoth x.1 = if l.isRed && r.isRed then h.flipColors x.1 >>= fun h => some (h, x.1)
          else some (h, x.1) := by
        unfold Heap.fixBoth
        simp only [ht.node_eq, Option.bind_eq_bind, Option.bind_some, s.left.isRed_eq, s.right.isRed_eq, Option.pure_def]
      have hpure : (ColorTree.node c l x r).fixBoth = if l.isRed && r.isRed then (ColorTree.node c l x r).flipColors
          else ColorTree.node c l x r := rfl
      rw [rootId_node, hrun, hpure]
      by_cases hred : (l.isRed && r.isRed) = true
      · rw [if_pos hred, if_pos hred]
        rw [Bool.and_eq_true] at hred
        have hl : l ≠ .nil := by rintro rfl; cases hred.1
        have hr : r ≠ .nil := by rintro rfl; cases hred.2
        obtain ⟨h', hflip, ht', hframe⟩ := ht.flipColors hl hr
        exact ⟨h', by rw [hflip]; rfl, ht', hframe⟩
      · rw [if_neg hred, if_neg hred]
        exact ht.becomes_self

/-- A tree with the elements of a tree that is not empty is not empty. -/
theorem ne_nil_of_toList (hlist : t'.toList = t.toList) (hne : t ≠ .nil) : t' ≠ .nil := by
  rintro rfl
  cases t with
  | nil => exact hne rfl
  | node c l x r =>
      have hlen := congrArg List.length hlist
      simp at hlen

/-- **`KeepBalance`** does on the heap what `keepBalance` does on the tree. -/
theorem Held.keepBalance (ht : Held h t p) (hne : t ≠ .nil) :
    Becomes h t p (h.keepBalance (rootId t)) t.keepBalance := by
  have h₁ : t.fixRight.toList = t.toList := ColorTree.toList_fixRight t
  have h₂ : t.fixRight.fixLeft.toList = t.fixRight.toList := ColorTree.toList_fixLeft _
  have hne₁ := ne_nil_of_toList h₁ hne
  apply (ht.fixRight hne).bind h₁
  intro g₁ ht₁
  apply (ht₁.fixLeft hne₁).bind h₂
  intro g₂ ht₂
  exact ht₂.fixBoth (ne_nil_of_toList h₂ hne₁)

/-! ## Lending a node

On its way down `Delete` lends a red node to the child it goes into, from the other child or from the parent.
These are the steps that do so. -/

/-- `return (← flipColors id, id)`. -/
theorem Held.flipColors_becomes (ht : Held h (.node c l x r) p) (hl : l ≠ .nil) (hr : r ≠ .nil) :
    Becomes h (.node c l x r) p (h.flipColors x.1 >>= fun h => some (h, x.1)) (.node c.flip l.flip x r.flip) := by
  obtain ⟨h', hflip, ht', hframe⟩ := ht.flipColors hl hr
  exact ⟨h', by rw [hflip]; rfl, ht', hframe⟩

/-- `MoveRedRight`, where its asserts and that of its rotation hold. -/
theorem Held.moveRedRight {ll lr rl rr : ColorTree (Elem K V)} {z : Elem K V}
    (ht : Held h (.node c (.node .black ll y lr) x (.node .black rl z rr)) p) (hrr : rr.isRed = false) :
    Becomes h (.node c (.node .black ll y lr) x (.node .black rl z rr)) p (h.moveRedRight x.1)
      (ColorTree.moveRedRight (.node c (.node .black ll y lr) x (.node .black rl z rr))) := by
  have s := held_node.mp ht
  obtain ⟨h₁, hflip, ht₁, hframe₁⟩ := ht.flipColors (by simp) (by simp)
  simp only [ColorTree.flip_node, Color.flip_black] at ht₁
  have hb : Becomes h (.node c (.node .black ll y lr) x (.node .black rl z rr)) p (some (h₁, x.1))
      (.node c.flip (.node .red ll y lr) x (.node .red rl z rr)) := ⟨h₁, rfl, ht₁, hframe₁⟩
  have hll := (held_node.mp (held_node.mp ht₁).left).left.isRed_eq
  have hrun : h.moveRedRight x.1 = if ll.isRed then
      h₁.rotateRight x.1 >>= fun a => a.1.flipColors a.2 >>= fun h => some (h, a.2) else some (h₁, x.1) := by
    unfold Heap.moveRedRight
    simp only [rootId_node, ht.node_eq, s.left.node_eq, s.right.node_eq, Option.bind_eq_bind, Option.bind_some,
      (held_node.mp s.right).right.isRed_eq, hrr, guard, if_true, Bool.not_false, Option.pure_def, hflip, hll]
  rw [hrun]
  by_cases hred : ll.isRed = true
  · have hpure : ColorTree.moveRedRight (.node c (.node .black ll y lr) x (.node .black rl z rr)) =
        .node c ll.flip y (.node .black lr x (.node .red rl z rr)) := by
      simp [ColorTree.moveRedRight_node, hred]
    rw [if_pos hred, hpure]
    apply hb.trans (by simp)
    apply ht₁.rotateRight.bind (by simp)
    intro g' hg'
    have hne : ll ≠ .nil := by rintro rfl; cases hred
    have hlast := hg'.flipColors_becomes hne (by simp)
    rw [Color.flip_flip] at hlast
    exact hlast
  · have hpure : ColorTree.moveRedRight (.node c (.node .black ll y lr) x (.node .black rl z rr)) =
        .node c.flip (.node .red ll y lr) x (.node .red rl z rr) := by
      simp [ColorTree.moveRedRight_node, hred]
    rw [if_neg hred, hpure]
    exact hb

/-- `MoveRedLeft`, where its asserts and those of its rotations hold. -/
theorem Held.moveRedLeft {ll lr rl rr : ColorTree (Elem K V)} {z : Elem K V}
    (ht : Held h (.node .red (.node .black ll y lr) x (.node .black rl z rr)) p) (hll : ll.isRed = false) :
    Becomes h (.node .red (.node .black ll y lr) x (.node .black rl z rr)) p (h.moveRedLeft x.1)
      (ColorTree.moveRedLeft (.node .red (.node .black ll y lr) x (.node .black rl z rr))) := by
  have s := held_node.mp ht
  obtain ⟨h₁, hflip, ht₁, hframe₁⟩ := ht.flipColors (by simp) (by simp)
  simp only [ColorTree.flip_node, Color.flip_black, Color.flip_red] at ht₁
  have hb : Becomes h (.node .red (.node .black ll y lr) x (.node .black rl z rr)) p (some (h₁, x.1))
      (.node .black (.node .red ll y lr) x (.node .red rl z rr)) := ⟨h₁, rfl, ht₁, hframe₁⟩
  have s₁ := held_node.mp ht₁
  have hrl := (held_node.mp s₁.right).left.isRed_eq
  -- what the source runs, once the asserts are checked
  have hrun : h.moveRedLeft x.1 = if rl.isRed then
      h₁.rotateRight z.1 >>= fun a => (a.1.store x.1 fun n => { n with r := a.2 }).rotateLeft x.1 >>= fun b =>
        b.1.flipColors b.2 >>= fun h => some (h, b.2) else some (h₁, x.1) := by
    unfold Heap.moveRedLeft
    have hnode : h₁.node z.1 = some ⟨.red, x.1, rootId rl, rootId rr, z.2⟩ := s₁.right.node_eq
    simp only [rootId_node, ht.node_eq, s.left.node_eq, Option.bind_eq_bind, Option.bind_some,
      (held_node.mp s.left).left.isRed_eq, hll, guard, if_true, Bool.not_false, Option.pure_def, hflip, hnode, hrl]
  rw [hrun]
  rcases rl with _ | ⟨_ | _, a, w, b⟩
  · exact hb
  · -- the right sibling turns its first node up, which then comes to the left
    have hpure : ColorTree.moveRedLeft (.node .red (.node .black ll y lr) x (.node .black (.node .red a w b) z rr)) =
        .node .red (.node .black (.node .red ll y lr) x a) w (.node .black b z rr) := by
      simp [ColorTree.moveRedLeft_node]
    rw [if_pos ColorTree.isRed_red, hpure]
    obtain ⟨h₂, hrot, ht₂, hframe₂⟩ := s₁.right.rotateRight
    have hids : ids (.node .red a w (.node .red b z rr)) = ids (.node .red (.node .red a w b) z rr) :=
      ids_congr (by simp)
    have hgraft := s₁.graftRight ⟨_, hframe₂ _ s₁.not_right⟩ (fun k hk => hframe₂ k (s₁.apart k hk)) ht₂
      (by rw [hids]; exact s₁.not_right) (by rw [hids]; exact s₁.apart)
    have hb₂ : Becomes h₁ (.node .black (.node .red ll y lr) x (.node .red (.node .red a w b) z rr)) p
        (some (h₂.store x.1 fun n => { n with r := w.1 }, x.1))
        (.node .black (.node .red ll y lr) x (.node .red a w (.node .red b z rr))) := by
      refine ⟨_, rfl, hgraft, fun k hk => ?_⟩
      rw [mem_ids_node] at hk
      push Not at hk
      rw [store_of_ne _ hk.2.1, hframe₂ k hk.2.2]
    apply hb.trans (by simp)
    rw [hrot]
    apply hb₂.trans (by simp)
    apply hgraft.rotateLeft.bind (by simp)
    intro g hg
    exact hg.flipColors_becomes (by simp) (by simp)
  · exact hb

/-- Turning a red left child to the right, as `Delete` does before it goes right. -/
theorem Held.leanRight (ht : Held h t p) (hne : t ≠ .nil) : Becomes h t p (h.leanRight (rootId t)) t.leanRight := by
  cases t with
  | nil => exact absurd rfl hne
  | node c l x r =>
      have s := held_node.mp ht
      unfold Heap.leanRight ColorTree.leanRight
      simp only [rootId_node, ht.node_eq, Option.bind_eq_bind, Option.bind_some, s.left.isRed_eq, ColorTree.left_node]
      rcases l with _ | ⟨_ | _, a, y, m⟩
      · exact ht.becomes_self
      · exact ht.rotateRight
      · exact ht.becomes_self

/-- Before going left; a null left child fails an assert. -/
theorem Held.spareLeft (ht : Held h t p) (hnil : t.left.isNil = false) (hspare : t.spareLeft = some t') :
    Becomes h t p (h.spareLeft (rootId t)) t' := by
  rcases t with _ | ⟨c, _ | ⟨lc, ll, y, lr⟩, x, r⟩
  · cases hspare
  · cases hnil
  · have s := held_node.mp ht
    have hrun : h.spareLeft x.1 = if lc = .black then if !ll.isRed then h.moveRedLeft x.1 else some (h, x.1)
        else some (h, x.1) := by
      unfold Heap.spareLeft
      simp only [rootId_node, ht.node_eq, s.left.node_eq, (held_node.mp s.left).left.isRed_eq, Option.bind_eq_bind,
        Option.bind_some, Option.pure_def]
    rw [rootId_node, hrun]
    cases lc with
    | red =>
        obtain rfl : ColorTree.node c (.node .red ll y lr) x r = t' := by simpa [ColorTree.spareLeft] using hspare
        exact ht.becomes_self
    | black =>
        rw [if_pos rfl]
        cases hll : ll.isRed with
        | true =>
            obtain rfl : ColorTree.node c (.node .black ll y lr) x r = t' := by
              simpa [ColorTree.spareLeft, hll] using hspare
            exact ht.becomes_self
        | false =>
            -- the asserts of `MoveRedLeft` hold where the pure function has a result
            rcases r with _ | ⟨rc, rl, z, rr⟩
            · simp [ColorTree.spareLeft, hll] at hspare
            · cases rc with
              | red => simp [ColorTree.spareLeft, hll] at hspare
              | black =>
                  cases c with
                  | black => simp [ColorTree.spareLeft, hll] at hspare
                  | red =>
                      simp only [ColorTree.spareLeft, hll, ColorTree.isRed_black, ColorTree.left_node,
                        ColorTree.isNil_node] at hspare
                      rw [← Option.some.inj hspare]
                      exact ht.moveRedLeft hll

/-- The step into the right child: it lends a red node when the child and its left child are black. -/
theorem Held.spareRight (ht : Held h t p) (hspare : t.spareRight = some t') :
    Becomes h t p (h.spareRight (rootId t)) t' := by
  rcases t with _ | ⟨c, l, x, _ | ⟨rc, rl, z, rr⟩⟩
  · cases hspare
  · obtain rfl : ColorTree.node c l x .nil = t' := by simpa [ColorTree.spareRight] using hspare
    refine ⟨h, ?_, ht, fun _ _ => rfl⟩
    unfold Heap.spareRight
    rw [rootId_node, ht.node_eq]
    rfl
  · have s := held_node.mp ht
    -- what the source runs for a right child that is there
    have hrun : h.spareRight x.1 = if rc = .black then if !rl.isRed then h.moveRedRight x.1 else some (h, x.1)
        else some (h, x.1) := by
      have hptr : h.getPointer z.1 = some (some ⟨rc, x.1, rootId rl, rootId rr, z.2⟩) := by
        rw [getPointer_of_pos (held_node.mp s.right).valid, (held_node.mp s.right).here]
      unfold Heap.spareRight
      simp only [rootId_node, ht.node_eq, hptr, (held_node.mp s.right).left.isRed_eq, Option.bind_eq_bind,
        Option.bind_some, Option.pure_def]
    rw [rootId_node, hrun]
    cases rc with
    -- a red child needs nothing
    | red =>
        obtain rfl : ColorTree.node c l x (.node .red rl z rr) = t' := by simpa [ColorTree.spareRight] using hspare
        exact ht.becomes_self
    | black =>
        rw [if_pos rfl]
        cases hrl : rl.isRed with
        | true =>
            obtain rfl : ColorTree.node c l x (.node .black rl z rr) = t' := by
              simpa [ColorTree.spareRight, hrl] using hspare
            exact ht.becomes_self
        | false =>
            -- the asserts of `MoveRedRight` fail for any other left child, and so does `spareRight`
            rcases l with _ | ⟨lc, ll, y, lr⟩
            · simp [ColorTree.spareRight, hrl] at hspare
            · cases lc with
              | red => simp [ColorTree.spareRight, hrl] at hspare
              | black =>
                  cases hrr : rr.isRed with
                  | true => simp [ColorTree.spareRight, hrl, hrr] at hspare
                  | false =>
                      simp only [ColorTree.spareRight, hrl, hrr, ColorTree.isRed_black, ColorTree.left_node,
                        ColorTree.right_node, ColorTree.isNil_node] at hspare
                      rw [← Option.some.inj hspare]
                      exact ht.moveRedRight hrr

end RBTree
end Snippets
