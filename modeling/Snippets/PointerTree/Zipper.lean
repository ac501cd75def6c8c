import Snippets.PointerTree.Model

/-!
# `PointerTree.Zipper` — the heap around a node

`Held s t`: the nodes of the heap that hang from `root_` make up the tree `t`, whose elements carry their addresses, and
every `p` names the parent. The algorithms work at a node in the middle of it: `Held.focus` splits the tree there, into
what the frames say of the heap (`RepFrames`) and what the subtree says (`Rep`), and each primitive operation is one
rule about the tree around the node.
-/

namespace Snippets

open Lib

namespace PointerTree

open ColorTree (nodeAt plug Frame)

variable {K V : Type}

/-- A node's address and its pair. -/
abbrev Elem (K V : Type) := Nat × (K × V)

/-- The address a link to the tree holds. -/
def rootPtr : ColorTree (Elem K V) → Ptr
  | .nil => none
  | .node _ _ x _ => some x.1

/-- The addresses of its nodes, in order. -/
def ids (t : ColorTree (Elem K V)) : List Nat := t.toList.map Prod.fst

/-- The node of an element, with its children seen from a side. -/
def cellAt (side : Side) (x : Elem K V) (p near far : Ptr) (c : Color) : RBNode K V :=
  match side with
  | .left => ⟨x.2, p, near, far, c⟩
  | .right => ⟨x.2, p, far, near, c⟩

/-- The heap holds the tree, below `p`. -/
def Rep (h : Heap K V) : ColorTree (Elem K V) → Ptr → Prop
  | .nil, _ => True
  | .node c l x r, p =>
      h.cells x.1 = some ⟨x.2, p, rootPtr l, rootPtr r, c⟩ ∧ Rep h l (some x.1) ∧ Rep h r (some x.1)

/-- The parent of a hole. -/
def parentPtr : List (Frame (Elem K V)) → Ptr
  | [] => none
  | f :: _ => some f.x.1

/-- The heap holds the frames around a hole where `hole` hangs. -/
def RepFrames (h : Heap K V) : List (Frame (Elem K V)) → Ptr → Prop
  | [], _ => True
  | f :: fs, hole =>
      h.cells f.x.1 = some (cellAt f.side f.x (parentPtr fs) hole (rootPtr f.sib) f.c) ∧ Rep h f.sib (some f.x.1) ∧
        RepFrames h fs (some f.x.1)

/-- The addresses of the frames and of what hangs beside them. -/
def frameIds : List (Frame (Elem K V)) → List Nat
  | [] => []
  | f :: fs => f.x.1 :: (ids f.sib ++ frameIds fs)

/-- The tree that hangs from `root_`. -/
structure Held (s : PointerTree K V) (t : ColorTree (Elem K V)) : Prop where
  rep : Rep s.heap t none
  root : s.root = rootPtr t
  nodup : (ids t).Nodup

variable {s s' : PointerTree K V} {h h' : Heap K V} {t l r near far : ColorTree (Elem K V)} {x y : Elem K V}
  {c c' : Color} {side : Side} {p q : Ptr} {a b : Nat} {fs : List (Frame (Elem K V))} {f : Frame (Elem K V)}

/-! ## Cells

A store changes one cell; what a cell holds is written from the side the algorithm works on (`cellAt`), near
child first. -/

/-- The changed cell -/
theorem cells_modify_self (f : RBNode K V → RBNode K V) : (h.modify a f).cells a = (h.cells a).map f :=
  Function.update_self ..

/-- and any other. -/
theorem cells_modify_ne (hne : b ≠ a) (f : RBNode K V → RBNode K V) : (h.modify a f).cells b = h.cells b :=
  Function.update_of_ne hne _ _

/-- A store through a pointer to a node, -/
theorem write_eq {n : RBNode K V} (hn : s.heap.cells a = some n) (f : RBNode K V → RBNode K V) :
    s.write (some a) f = some { s with heap := s.heap.modify a f } := by
  show (if (s.heap.cells a).isSome = true then some { s with heap := s.heap.modify a f } else none) = _
  rw [hn]
  rfl

/-- and a load. -/
theorem deref_eq {n : RBNode K V} (hn : s.heap.cells a = some n) : s.deref (some a) = some n := hn

section CellAt

variable {n m d : Ptr}

/-- The near child, -/
@[simp] theorem child_cellAt : (cellAt side x p n m c).child side = n := by cases side <;> rfl

/-- the far one, -/
@[simp] theorem child_cellAt_other : (cellAt side x p n m c).child side.other = m := by cases side <;> rfl

/-- the parent, -/
@[simp] theorem p_cellAt : (cellAt side x p n m c).p = p := by cases side <;> rfl

/-- the colour -/
@[simp] theorem c_cellAt : (cellAt side x p n m c).c = c := by cases side <;> rfl

/-- and the pair of a cell. -/
@[simp] theorem v_cellAt : (cellAt side x p n m c).v = x.2 := by cases side <;> rfl

/-- Setting the near child, -/
@[simp] theorem setChild_cellAt : (cellAt side x p n m c).setChild side d = cellAt side x p d m c := by
  cases side <;> rfl

/-- the far one, -/
@[simp] theorem setChild_cellAt_other : (cellAt side x p n m c).setChild side.other d = cellAt side x p n d c := by
  cases side <;> rfl

/-- the parent, -/
@[simp] theorem setParent_cellAt : (cellAt side x p n m c).setParent d = cellAt side x d n m c := by
  cases side <;> rfl

/-- and the colour. -/
@[simp] theorem paint_cellAt : (cellAt side x p n m c).paint c' = cellAt side x p n m c' := by cases side <;> rfl

end CellAt

/-! ## Trees on the heap

A tree and the frames around a place in it. What one of them needs of the heap is only the cells of its own
nodes. -/

/-- The root is the node, -/
@[simp] theorem rootPtr_nodeAt : rootPtr (nodeAt side c near x far) = some x.1 := by cases side <;> rfl

/-- and there is none of the empty tree. -/
@[simp] theorem rootPtr_nil : rootPtr (.nil : ColorTree (Elem K V)) = none := rfl

/-- A node with its two subtrees, -/
theorem rep_nodeAt : Rep h (nodeAt side c near x far) p ↔
    h.cells x.1 = some (cellAt side x p (rootPtr near) (rootPtr far) c) ∧ Rep h near (some x.1) ∧ Rep h far (some x.1) := by
  cases side with
  | left => exact Iff.rfl
  | right =>
      constructor
      · rintro ⟨hx, hl, hr⟩
        exact ⟨hx, hr, hl⟩
      · rintro ⟨hx, hl, hr⟩
        exact ⟨hx, hr, hl⟩

/-- and the addresses in it, -/
theorem ids_nodeAt : (ids (nodeAt side c near x far)).Perm (x.1 :: (ids near ++ ids far)) := by
  cases side with
  | left =>
      show (List.map Prod.fst (near.toList ++ x :: far.toList)).Perm _
      rw [List.map_append, List.map_cons]
      exact List.perm_middle
  | right =>
      show (List.map Prod.fst (far.toList ++ x :: near.toList)).Perm _
      rw [List.map_append, List.map_cons]
      exact List.perm_middle.trans ((List.perm_append_comm).cons _)

/-- in whatever order. -/
theorem ids_node : (ids (.node c l x r)).Perm (x.1 :: (ids l ++ ids r)) := by
  show (ids (nodeAt .left c l x r)).Perm _
  exact ids_nodeAt

/-- A tree depends only on its own nodes. -/
theorem Rep.congr (ht : Rep h t p) (hagree : ∀ i ∈ ids t, h'.cells i = h.cells i) : Rep h' t p := by
  induction t generalizing p with
  | nil => trivial
  | node c l x r ihl ihr =>
      have hperm : (ids (.node c l x r)).Perm (x.1 :: (ids l ++ ids r)) := ids_node
      obtain ⟨hx, hl, hr⟩ := ht
      refine ⟨?_, ihl hl ?_, ihr hr ?_⟩
      · rw [hagree x.1 (hperm.mem_iff.mpr List.mem_cons_self)]
        exact hx
      · intro i hi
        exact hagree i (hperm.mem_iff.mpr (List.mem_cons_of_mem _ (List.mem_append_left _ hi)))
      · intro i hi
        exact hagree i (hperm.mem_iff.mpr (List.mem_cons_of_mem _ (List.mem_append_right _ hi)))

/-- The nodes of a tree are allocated. -/
theorem Rep.live (ht : Rep h t p) (hi : a ∈ ids t) : ∃ n, h.cells a = some n := by
  induction t generalizing p with
  | nil => cases hi
  | node c l x r ihl ihr =>
      have hperm : (ids (.node c l x r)).Perm (x.1 :: (ids l ++ ids r)) := ids_node
      obtain ⟨hx, hl, hr⟩ := ht
      rcases List.mem_cons.mp (hperm.mem_iff.mp hi) with rfl | hi
      · exact ⟨_, hx⟩
      · rcases List.mem_append.mp hi with hi | hi
        · exact ihl hl hi
        · exact ihr hr hi

/-- Only the nodes of the frames matter to them. -/
theorem RepFrames.congr {hole : Ptr} (hfs : RepFrames h fs hole) (hagree : ∀ i ∈ frameIds fs, h'.cells i = h.cells i) :
    RepFrames h' fs hole := by
  induction fs generalizing hole with
  | nil => trivial
  | cons f fs ih =>
      obtain ⟨hx, hsib, hrest⟩ := hfs
      refine ⟨?_, hsib.congr ?_, ih hrest ?_⟩
      · rw [hagree _ List.mem_cons_self]
        exact hx
      · intro i hi
        exact hagree i (List.mem_cons_of_mem _ (List.mem_append_left _ hi))
      · intro i hi
        exact hagree i (List.mem_cons_of_mem _ (List.mem_append_right _ hi))

/-- The whole tree on the heap: its frames and its subtree. -/
theorem rep_plug : Rep h (plug fs t) none ↔ RepFrames h fs (rootPtr t) ∧ Rep h t (parentPtr fs) := by
  induction fs generalizing t with
  | nil => simp [plug, RepFrames, parentPtr]
  | cons f fs ih =>
      show Rep h (plug fs (f.fill t)) none ↔ _
      rw [ih, Frame.fill, rootPtr_nodeAt, rep_nodeAt]
      show _ ↔ (_ ∧ _ ∧ _) ∧ Rep h t (some f.x.1)
      constructor
      · rintro ⟨hfs, hx, ht, hsib⟩
        exact ⟨⟨hx, hsib, hfs⟩, ht⟩
      · rintro ⟨⟨hx, hsib, hfs⟩, ht⟩
        exact ⟨hfs, hx, ht, hsib⟩

/-- The nodes of a tree are those below a place and those around it. -/
theorem ids_plug : (ids (plug fs t)).Perm (ids t ++ frameIds fs) := by
  induction fs generalizing t with
  | nil => simp [plug, frameIds]
  | cons f fs ih =>
      show (ids (plug fs (f.fill t))).Perm (ids t ++ f.x.1 :: (ids f.sib ++ frameIds fs))
      refine ih.trans ?_
      have hfill : (ids (f.fill t)).Perm (f.x.1 :: (ids t ++ ids f.sib)) := ids_nodeAt
      refine (hfill.append_right _).trans ?_
      rw [List.cons_append, List.append_assoc]
      exact List.perm_middle.symm

/-- With a frame around it the root is above the place. -/
theorem rootPtr_plug_cons : rootPtr (plug (f :: fs) t) = rootPtr (plug (f :: fs) l) := by
  induction fs generalizing f t l with
  | nil => simp [plug, Frame.fill]
  | cons g fs ih => exact ih

/-! ## The place of a node

Whatever hangs at a place, the link to it is in the parent or in `root_`; `repoint` sets that link. -/

/-- The hole of the frames now leads to `q`. -/
def repoint (s : PointerTree K V) (fs : List (Frame (Elem K V))) (q : Ptr) : PointerTree K V :=
  match fs with
  | [] => { s with root := q }
  | f :: _ => { s with heap := s.heap.modify f.x.1 fun n => n.setChild f.side q }

/-- It writes a node of the frames only, -/
theorem repoint_cells (hb : b ∉ frameIds fs) : (s.repoint fs q).heap.cells b = s.heap.cells b := by
  cases fs with
  | nil => rfl
  | cons f fs =>
      apply cells_modify_ne
      rintro rfl
      exact hb List.mem_cons_self

/-- makes no node -/
theorem repoint_next : (s.repoint fs q).heap.next = s.heap.next := by
  cases fs <;> rfl

/-- and counts none. -/
theorem repoint_size : (s.repoint fs q).size = s.size := by
  cases fs <;> rfl

/-- The frames lead to the new node, -/
theorem repoint_frames {hole : Ptr} (hfs : RepFrames s.heap fs hole) (hnd : (frameIds fs).Nodup) :
    RepFrames (s.repoint fs q).heap fs q := by
  cases fs with
  | nil => trivial
  | cons f fs =>
      obtain ⟨hx, hsib, hrest⟩ := hfs
      obtain ⟨hnot, -⟩ := List.nodup_cons.mp hnd
      refine ⟨?_, hsib.congr ?_, hrest.congr ?_⟩
      · show (s.heap.modify f.x.1 _).cells f.x.1 = _
        rw [cells_modify_self, hx, Option.map_some, setChild_cellAt]
      · intro i hi
        apply cells_modify_ne
        rintro rfl
        exact hnot (List.mem_append_left _ hi)
      · intro i hi
        apply cells_modify_ne
        rintro rfl
        exact hnot (List.mem_append_right _ hi)

/-- from the root when there are none. -/
theorem repoint_root (hroot : s.root = rootPtr (plug fs t)) (hl : q = rootPtr l) :
    (s.repoint fs q).root = rootPtr (plug fs l) := by
  cases fs with
  | nil => exact hl
  | cons f fs => exact hroot.trans rootPtr_plug_cons

/-- `if (p->l == node) p->l = q; else p->r = q`. -/
theorem redirect_eq (hfs : RepFrames s.heap (f :: fs) (some a)) (ha : a ∉ ids f.sib) :
    s.redirect (some f.x.1) (some a) q = some (s.repoint (f :: fs) q) := by
  obtain ⟨hx, -, -⟩ := hfs
  have hsib : rootPtr f.sib ≠ some a := by
    intro h
    cases ht : f.sib with
    | nil =>
        rw [ht] at h
        cases h
    | node c l x r =>
        rw [ht] at h ha
        obtain rfl : x.1 = a := Option.some.inj h
        exact ha (List.mem_map_of_mem (by simp))
  unfold redirect
  rw [deref_eq hx]
  obtain ⟨side, c, x, sib⟩ := f
  cases side with
  | left =>
      show (if some a = some a then s.write (some x.1) _ else _) = _
      rw [if_pos rfl, write_eq hx]
      rfl
  | right =>
      show (if rootPtr sib = some a then _ else s.write (some x.1) _) = _
      rw [if_neg hsib, write_eq hx]
      rfl

/-- A node that is not in the frames is not in the sibling. -/
theorem not_mem_sib (ha : a ∉ frameIds (f :: fs)) : a ∉ ids f.sib := fun h =>
  ha (List.mem_cons_of_mem _ (List.mem_append_left _ h))

/-- The source's test which child it was has one answer. -/
theorem replaceChild_eq (hfs : RepFrames s.heap fs (some a)) (ha : a ∉ frameIds fs) :
    s.replaceChild (parentPtr fs) (some a) q = some (s.repoint fs q) := by
  cases fs with
  | nil => rfl
  | cons f fs => exact redirect_eq hfs (not_mem_sib ha)

/-! ## The parent of a subtree

The other half of hanging a tree somewhere: the parent of its root. -/

/-- `if (child) child->p = q`. -/
def adopt (s : PointerTree K V) (t : ColorTree (Elem K V)) (q : Ptr) : PointerTree K V :=
  match t with
  | .nil => s
  | .node _ _ x _ => { s with heap := s.heap.modify x.1 fun n => n.setParent q }

/-- It writes the root of the tree only, -/
theorem adopt_cells (hb : b ∉ ids t) : (s.adopt t q).heap.cells b = s.heap.cells b := by
  cases t with
  | nil => rfl
  | node c l x r =>
      apply cells_modify_ne
      rintro rfl
      exact hb (List.mem_map_of_mem (by simp))

/-- leaves `root_` -/
theorem adopt_root : (s.adopt t q).root = s.root := by
  cases t <;> rfl

/-- and makes no node -/
theorem adopt_next : (s.adopt t q).heap.next = s.heap.next := by
  cases t <;> rfl

/-- and counts none. -/
theorem adopt_size : (s.adopt t q).size = s.size := by
  cases t <;> rfl

/-- The tree hangs from the new parent then. -/
theorem adopt_rep (ht : Rep s.heap t p) (hnd : (ids t).Nodup) : Rep (s.adopt t q).heap t q := by
  cases t with
  | nil => trivial
  | node c l x r =>
      have hperm : (ids (.node c l x r)).Perm (x.1 :: (ids l ++ ids r)) := ids_node
      obtain ⟨hnot, -⟩ := List.nodup_cons.mp (hperm.nodup_iff.mp hnd)
      obtain ⟨hx, hl, hr⟩ := ht
      refine ⟨?_, hl.congr ?_, hr.congr ?_⟩
      · show (s.heap.modify x.1 _).cells x.1 = _
        rw [cells_modify_self, hx]
        rfl
      · intro i hi
        apply cells_modify_ne
        rintro rfl
        exact hnot (List.mem_append_left _ hi)
      · intro i hi
        apply cells_modify_ne
        rintro rfl
        exact hnot (List.mem_append_right _ hi)

/-- The source does so when there is a root. -/
theorem setParent_eq (ht : Rep s.heap t p) : s.setParent (rootPtr t) q = some (s.adopt t q) := by
  cases t with
  | nil => rfl
  | node c l x r =>
      show s.write (some x.1) _ = _
      rw [write_eq ht.1]
      rfl

/-! ## Rules

What the algorithms use: a held tree at a place, one store in the node there, and what the calls leave alone. -/

/-- A held tree, split at a place, -/
theorem Held.focus (hs : Held s (plug fs t)) : RepFrames s.heap fs (rootPtr t) ∧ Rep s.heap t (parentPtr fs) :=
  rep_plug.mp hs.rep

/-- with no node on both sides of it. -/
theorem Held.nodup_focus (hs : Held s (plug fs t)) :
    (ids t).Nodup ∧ (frameIds fs).Nodup ∧ ∀ i ∈ ids t, i ∉ frameIds fs := by
  obtain ⟨h₁, h₂, h₃⟩ := List.nodup_append.mp (ids_plug.nodup_iff.mp hs.nodup)
  exact ⟨h₁, h₂, fun i hi hj => h₃ i hi i hj rfl⟩

/-- Put together again, with another subtree of the same addresses. -/
theorem Held.refocus (hs : Held s (plug fs t)) (hperm : (ids l).Perm (ids t)) (hfs : RepFrames s'.heap fs (rootPtr l))
    (hl : Rep s'.heap l (parentPtr fs)) (hroot : s'.root = rootPtr (plug fs l)) : Held s' (plug fs l) := by
  refine ⟨rep_plug.mpr ⟨hfs, hl⟩, hroot, ?_⟩
  have hids : (ids (plug fs l)).Perm (ids (plug fs t)) :=
    ids_plug.trans ((hperm.append_right _).trans ids_plug.symm)
  exact hids.nodup_iff.mpr hs.nodup

/-- What an operation on the nodes leaves alone. -/
structure Same (s s' : PointerTree K V) : Prop where
  size : s'.size = s.size
  next : s'.heap.next = s.heap.next

/-- Nothing happened to the nodes made and counted, -/
theorem Same.refl (s : PointerTree K V) : Same s s := ⟨rfl, rfl⟩

/-- one step after another, -/
theorem Same.trans {s₁ s₂ s₃ : PointerTree K V} (h₁ : Same s₁ s₂) (h₂ : Same s₂ s₃) : Same s₁ s₃ :=
  ⟨h₂.size.trans h₁.size, h₂.next.trans h₁.next⟩

/-- so the loops have the same bound. -/
theorem Same.limit (h : Same s s') : s'.limit = s.limit := by
  unfold PointerTree.limit
  rw [h.next]

/-- The node in focus. -/
theorem Held.cell (hs : Held s (plug fs (nodeAt side c near x far))) :
    s.heap.cells x.1 = some (cellAt side x (parentPtr fs) (rootPtr near) (rootPtr far) c) :=
  (rep_nodeAt.mp hs.focus.2).1

/-- Apart from `x`, the parts of a focused node do not hold its address. -/
theorem Held.apart (hs : Held s (plug fs (nodeAt side c near x far))) :
    x.1 ∉ ids near ∧ x.1 ∉ ids far ∧ x.1 ∉ frameIds fs := by
  obtain ⟨h₁, -, h₃⟩ := hs.nodup_focus
  obtain ⟨hnot, -⟩ := List.nodup_cons.mp (ids_nodeAt.nodup_iff.mp h₁)
  refine ⟨fun h => hnot (List.mem_append_left _ h), fun h => hnot (List.mem_append_right _ h), ?_⟩
  exact h₃ _ (ids_nodeAt.mem_iff.mpr List.mem_cons_self)

/-- **A store into the node in focus** that changes its colour or its value. -/
theorem Held.store (hs : Held s (plug fs (nodeAt side c near x far))) (x' : Elem K V) (c' : Color)
    (f : RBNode K V → RBNode K V) (hx : x'.1 = x.1) (hf : ∀ p n m, f (cellAt side x p n m c) = cellAt side x' p n m c') :
    ∃ s', s.write (some x.1) f = some s' ∧ Held s' (plug fs (nodeAt side c' near x' far)) ∧ Same s s' := by
  obtain ⟨hfs, hrep⟩ := hs.focus
  obtain ⟨hcell, hnear, hfar⟩ := rep_nodeAt.mp hrep
  obtain ⟨h₁, h₂, h₃⟩ := hs.apart
  have hne : ∀ (S : List Nat), x.1 ∉ S → ∀ i ∈ S, (s.heap.modify x.1 f).cells i = s.heap.cells i := by
    intro S hS i hi
    apply cells_modify_ne
    rintro rfl
    exact hS hi
  refine ⟨_, write_eq hcell f, ?_, rfl, rfl⟩
  apply hs.refocus
  · refine ids_nodeAt.trans ?_
    rw [hx]
    exact ids_nodeAt.symm
  · rw [rootPtr_nodeAt] at hfs ⊢
    rw [hx]
    exact hfs.congr (hne _ h₃)
  · rw [rep_nodeAt, hx]
    refine ⟨?_, hnear.congr (hne _ h₁), hfar.congr (hne _ h₂)⟩
    show (s.heap.modify x.1 f).cells x.1 = _
    rw [cells_modify_self, hcell, Option.map_some, hf]
  · show s.root = _
    rw [hs.root]
    cases fs with
    | nil => simp [plug, hx]
    | cons g fs => exact rootPtr_plug_cons

/-- Setting the colour of the node at a place. -/
theorem Held.paint (hs : Held s (plug fs (nodeAt side c near x far))) (c' : Color) :
    ∃ s', s.write (some x.1) (fun n => n.paint c') = some s' ∧ Held s' (plug fs (nodeAt side c' near x far)) ∧ Same s s' :=
  hs.store x c' _ rfl fun _ _ _ => paint_cellAt

/-! ## Rotations

One rule for both sides. -/

section Rotate

variable {inner outer : ColorTree (Elem K V)}

/-- The addresses of a rotation: the two nodes, the three subtrees and the frames do not overlap. -/
structure Distinct (fs : List (Frame (Elem K V))) (near : ColorTree (Elem K V)) (x : Elem K V)
    (inner : ColorTree (Elem K V)) (y : Elem K V) (outer : ColorTree (Elem K V)) : Prop where
  ne : x.1 ≠ y.1
  x_near : x.1 ∉ ids near
  x_inner : x.1 ∉ ids inner
  x_outer : x.1 ∉ ids outer
  x_fs : x.1 ∉ frameIds fs
  y_near : y.1 ∉ ids near
  y_inner : y.1 ∉ ids inner
  y_outer : y.1 ∉ ids outer
  y_fs : y.1 ∉ frameIds fs
  near_inner : ∀ i ∈ ids near, i ∉ ids inner
  outer_inner : ∀ i ∈ ids outer, i ∉ ids inner
  near_fs : ∀ i ∈ ids near, i ∉ frameIds fs
  inner_fs : ∀ i ∈ ids inner, i ∉ frameIds fs
  outer_fs : ∀ i ∈ ids outer, i ∉ frameIds fs
  inner_nodup : (ids inner).Nodup

/-- The nodes of a rotation are apart from each other. -/
theorem Held.distinct (hs : Held s (plug fs (nodeAt side c near x (nodeAt side c' inner y outer)))) :
    Distinct fs near x inner y outer := by
  obtain ⟨h₁, -, h₃⟩ := hs.nodup_focus
  -- the addresses in the order of the parts
  have hperm : (ids (nodeAt side c near x (nodeAt side c' inner y outer))).Perm
      (x.1 :: (ids near ++ y.1 :: (ids inner ++ ids outer))) :=
    ids_nodeAt.trans ((ids_nodeAt.append_left _).cons _)
  have hmem : ∀ i, i ∈ x.1 :: (ids near ++ y.1 :: (ids inner ++ ids outer)) → i ∉ frameIds fs := fun i hi =>
    h₃ i (hperm.mem_iff.mpr hi)
  have hnd := hperm.nodup_iff.mp h₁
  obtain ⟨hx, hrest⟩ := List.nodup_cons.mp hnd
  obtain ⟨-, hyrest, hnear⟩ := List.nodup_append.mp hrest
  obtain ⟨hy, hparts⟩ := List.nodup_cons.mp hyrest
  obtain ⟨hinner, -, hio⟩ := List.nodup_append.mp hparts
  simp only [List.mem_append, List.mem_cons, not_or] at hx hy
  constructor
  · exact hx.2.1
  · exact hx.1
  · exact hx.2.2.1
  · exact hx.2.2.2
  · exact hmem _ (by simp)
  · exact fun h => hnear _ h _ List.mem_cons_self rfl
  · exact hy.1
  · exact hy.2
  · exact hmem _ (by simp)
  · exact fun i hi hj => hnear i hi i (List.mem_cons_of_mem _ (List.mem_append_left _ hj)) rfl
  · exact fun i hi hj => hio i hj i hi rfl
  · exact fun i hi => hmem i (by simp [hi])
  · exact fun i hi => hmem i (by simp [hi])
  · exact fun i hi => hmem i (by simp [hi])
  · exact hinner

/-- **A rotation** brings the child on the other side up, with the subtree between the two nodes changing hands. -/
theorem Held.rotate (hs : Held s (plug fs (nodeAt side c near x (nodeAt side c' inner y outer)))) :
    ∃ s', s.rotate side (some x.1) = some s' ∧
      Held s' (plug fs (nodeAt side c' (nodeAt side c near x inner) y outer)) ∧ Same s s' := by
  obtain ⟨hfs, hrep⟩ := hs.focus
  obtain ⟨hx, hnear, hfar⟩ := rep_nodeAt.mp hrep
  obtain ⟨hy, hinner, houter⟩ := rep_nodeAt.mp hfar
  rw [rootPtr_nodeAt] at hx hfs
  have d := hs.distinct
  let s₁ := s.repoint fs (some y.1)
  let s₂ : PointerTree K V := { s₁ with heap := s₁.heap.modify y.1 fun u => u.setParent (parentPtr fs) }
  let s₃ : PointerTree K V := { s₂ with heap := s₂.heap.modify x.1 fun n => n.setParent (some y.1) }
  let s₄ := s₃.adopt inner (some x.1)
  let s₅ : PointerTree K V := { s₄ with heap := s₄.heap.modify x.1 fun n => n.setChild side.other (rootPtr inner) }
  let s₆ : PointerTree K V := { s₅ with heap := s₅.heap.modify y.1 fun u => u.setChild side (some x.1) }
  -- the two nodes, store by store
  have hx₁ : s₁.heap.cells x.1 = some (cellAt side x (parentPtr fs) (rootPtr near) (some y.1) c) :=
    (repoint_cells d.x_fs).trans hx
  have hy₁ : s₁.heap.cells y.1 = some (cellAt side y (some x.1) (rootPtr inner) (rootPtr outer) c') :=
    (repoint_cells d.y_fs).trans hy
  have hy₂ : s₂.heap.cells y.1 = some (cellAt side y (parentPtr fs) (rootPtr inner) (rootPtr outer) c') := by
    rw [cells_modify_self, hy₁, Option.map_some, setParent_cellAt]
  have hx₂ : s₂.heap.cells x.1 = some (cellAt side x (parentPtr fs) (rootPtr near) (some y.1) c) := by
    rw [cells_modify_ne d.ne, hx₁]
  have hx₃ : s₃.heap.cells x.1 = some (cellAt side x (some y.1) (rootPtr near) (some y.1) c) := by
    rw [cells_modify_self, hx₂, Option.map_some, setParent_cellAt]
  have hy₃ : s₃.heap.cells y.1 = some (cellAt side y (parentPtr fs) (rootPtr inner) (rootPtr outer) c') := by
    rw [cells_modify_ne d.ne.symm, hy₂]
  have hx₄ : s₄.heap.cells x.1 = some (cellAt side x (some y.1) (rootPtr near) (some y.1) c) :=
    (adopt_cells d.x_inner).trans hx₃
  have hy₄ : s₄.heap.cells y.1 = some (cellAt side y (parentPtr fs) (rootPtr inner) (rootPtr outer) c') :=
    (adopt_cells d.y_inner).trans hy₃
  have hx₅ : s₅.heap.cells x.1 = some (cellAt side x (some y.1) (rootPtr near) (rootPtr inner) c) := by
    rw [cells_modify_self, hx₄, Option.map_some, setChild_cellAt_other]
  have hy₅ : s₅.heap.cells y.1 = some (cellAt side y (parentPtr fs) (rootPtr inner) (rootPtr outer) c') := by
    rw [cells_modify_ne d.ne.symm, hy₄]
  have hx₆ : s₆.heap.cells x.1 = some (cellAt side x (some y.1) (rootPtr near) (rootPtr inner) c) := by
    rw [cells_modify_ne d.ne, hx₅]
  have hy₆ : s₆.heap.cells y.1 = some (cellAt side y (parentPtr fs) (some x.1) (rootPtr outer) c') := by
    rw [cells_modify_self, hy₅, Option.map_some, setChild_cellAt]
  -- the other nodes
  have hold : ∀ i, i ≠ x.1 → i ≠ y.1 → s₆.heap.cells i = s₄.heap.cells i := by
    intro i hix hiy
    rw [cells_modify_ne hiy, cells_modify_ne hix]
  have hold' : ∀ i, i ≠ x.1 → i ≠ y.1 → s₃.heap.cells i = s₁.heap.cells i := by
    intro i hix hiy
    rw [cells_modify_ne hix, cells_modify_ne hiy]
  have hsame : ∀ S : List Nat, x.1 ∉ S → y.1 ∉ S → (∀ i ∈ S, i ∉ ids inner) → (∀ i ∈ S, i ∉ frameIds fs) →
      ∀ i ∈ S, s₆.heap.cells i = s.heap.cells i := by
    intro S hxS hyS hin hfsS i hi
    have hix : i ≠ x.1 := fun h => hxS (h ▸ hi)
    have hiy : i ≠ y.1 := fun h => hyS (h ▸ hi)
    rw [hold i hix hiy, adopt_cells (hin i hi), hold' i hix hiy, repoint_cells (hfsS i hi)]
  have hrotate : s.rotate side (some x.1) = some s₆ := by
    have hadopt : s₃.setParent (rootPtr inner) (some x.1) = some s₄ := by
      apply setParent_eq (p := some y.1)
      apply hinner.congr
      intro i hi
      have hix : i ≠ x.1 := fun h => d.x_inner (h ▸ hi)
      have hiy : i ≠ y.1 := fun h => d.y_inner (h ▸ hi)
      rw [hold' i hix hiy, repoint_cells (d.inner_fs i hi)]
    unfold PointerTree.rotate
    simp only [deref_eq hx, Option.bind_eq_bind, Option.bind_some, child_cellAt_other, p_cellAt, deref_eq hy,
      replaceChild_eq hfs d.x_fs]
    rw [write_eq hy₁]
    simp only [Option.bind_some]
    rw [write_eq hx₂]
    simp only [Option.bind_some]
    rw [deref_eq hy₃]
    simp only [Option.bind_some, child_cellAt]
    rw [hadopt]
    simp only [Option.bind_some]
    rw [write_eq hx₄]
    simp only [Option.bind_some]
    rw [write_eq hy₅]
  refine ⟨s₆, hrotate, ?_, ?_⟩
  · apply hs.refocus
    · refine ids_nodeAt.trans ?_
      refine ((ids_nodeAt.append_right _).cons _).trans ?_
      refine List.Perm.trans ?_ ids_nodeAt.symm
      refine List.Perm.trans ?_ ((ids_nodeAt.append_left _).cons _).symm
      rw [List.cons_append, List.append_assoc]
      exact (List.Perm.swap _ _ _).trans (List.perm_middle.symm.cons _)
    · rw [rootPtr_nodeAt]
      apply (repoint_frames hfs hs.nodup_focus.2.1).congr
      intro i hi
      have hix : i ≠ x.1 := fun h => d.x_fs (h ▸ hi)
      have hiy : i ≠ y.1 := fun h => d.y_fs (h ▸ hi)
      rw [hold i hix hiy, adopt_cells (fun hin => d.inner_fs i hin hi), hold' i hix hiy]
    · rw [rep_nodeAt, rep_nodeAt, rootPtr_nodeAt]
      refine ⟨hy₆, ⟨hx₆, ?_, ?_⟩, ?_⟩
      · exact hnear.congr (hsame _ d.x_near d.y_near d.near_inner d.near_fs)
      · have hinner₃ : Rep s₃.heap inner (some y.1) := by
          apply hinner.congr
          intro i hi
          have hix : i ≠ x.1 := fun h => d.x_inner (h ▸ hi)
          have hiy : i ≠ y.1 := fun h => d.y_inner (h ▸ hi)
          rw [hold' i hix hiy, repoint_cells (d.inner_fs i hi)]
        apply (adopt_rep hinner₃ d.inner_nodup).congr
        intro i hi
        exact hold i (fun h => d.x_inner (h ▸ hi)) (fun h => d.y_inner (h ▸ hi))
      · exact houter.congr (hsame _ d.x_outer d.y_outer d.outer_inner d.outer_fs)
    · have hroot : s₆.root = s₁.root := adopt_root
      rw [hroot]
      exact repoint_root hs.root rootPtr_nodeAt.symm
  · constructor
    · exact adopt_size.trans repoint_size
    · exact adopt_next.trans repoint_next

/-- The rotation to the other side. -/
theorem Held.rotate_other (hs : Held s (plug fs (nodeAt side c (nodeAt side c' outer y inner) x far))) :
    ∃ s', s.rotate side.other (some x.1) = some s' ∧
      Held s' (plug fs (nodeAt side c' outer y (nodeAt side c inner x far))) ∧ Same s s' := by
  have hother : Held s (plug fs (nodeAt side.other c far x (nodeAt side.other c' inner y outer))) := by
    rw [ColorTree.nodeAt_other, ColorTree.nodeAt_other]
    exact hs
  obtain ⟨s', hrot, hs', hsame⟩ := hother.rotate
  rw [ColorTree.nodeAt_other, ColorTree.nodeAt_other] at hs'
  exact ⟨s', hrot, hs', hsame⟩

end Rotate

/-! ## Looking around

Colours and roots as the algorithms read them. -/

/-- The same tree, seen from the child on the other side. -/
theorem plug_far : plug fs (nodeAt side c near x far) = plug (⟨side.other, c, x, near⟩ :: fs) far := by
  show _ = plug fs (nodeAt side.other c far x near)
  rw [ColorTree.nodeAt_other]

/-- `is_red` is the colour of the tree, and the empty one is black. -/
theorem isRed_eq (ht : Rep s.heap t p) : s.isRed (rootPtr t) = some t.isRed := by
  cases t with
  | nil => rfl
  | node c l x r =>
      show (s.heap.cells x.1).map _ = _
      rw [ht.1]
      cases c <;> rfl

/-- `is_black` is the other one. -/
theorem isBlack_eq (ht : Rep s.heap t p) : s.isBlack (rootPtr t) = some (!t.isRed) := by
  unfold isBlack
  rw [isRed_eq ht]
  rfl

/-- The root is a node of the tree, -/
theorem rootPtr_mem (h : rootPtr t = some a) : a ∈ ids t := by
  cases t with
  | nil => cases h
  | node c l x r =>
      obtain rfl : x.1 = a := Option.some.inj h
      exact List.mem_map_of_mem (by simp)

/-- The child of a node that is not the one at hand. -/
theorem sibling_eq (side : Side) (x : Elem K V) (p : Ptr) (c : Color) (ha : a ∉ ids t) : (if (cellAt side x p (some a) (rootPtr t) c).l = some a then
    (cellAt side x p (some a) (rootPtr t) c).r else (cellAt side x p (some a) (rootPtr t) c).l) = rootPtr t := by
  cases side with
  | left =>
      show (if some a = some a then rootPtr t else some a) = rootPtr t
      rw [if_pos rfl]
  | right =>
      show (if rootPtr t = some a then some a else rootPtr t) = rootPtr t
      rw [if_neg (fun h => ha (rootPtr_mem h))]

/-- with a frame around it one of the frames. -/
theorem rootPtr_plug_mem (f : Frame (Elem K V)) (fs : List (Frame (Elem K V))) (t : ColorTree (Elem K V)) : ∃ a ∈ frameIds (f :: fs), rootPtr (plug (f :: fs) t) = some a := by
  induction fs generalizing f t with
  | nil =>
      refine ⟨f.x.1, List.mem_cons_self, ?_⟩
      show rootPtr (nodeAt f.side f.c t f.x f.sib) = _
      rw [rootPtr_nodeAt]
  | cons g fs ih =>
      obtain ⟨a, ha, hroot⟩ := ih g (f.fill t)
      exact ⟨a, List.mem_cons_of_mem _ (List.mem_append_right _ ha), hroot⟩

/-- A node with a parent is not the root. -/
theorem Held.ne_root (hs : Held s (plug (f :: fs) t)) (ha : a ∈ ids t) : some a ≠ s.root := by
  obtain ⟨b, hb, hroot⟩ := rootPtr_plug_mem f fs t
  rw [hs.root, hroot]
  intro h
  obtain rfl : a = b := Option.some.inj h
  exact hs.nodup_focus.2.2 _ ha hb

/-- `root_->c = kBlack`. -/
theorem Held.blackenRoot (hs : Held s t) (hne : t ≠ .nil) :
    ∃ s', s.blackenRoot = some s' ∧ Held s' (t.paint .black) ∧ Same s s' := by
  obtain ⟨c, l, x, r, rfl⟩ := ColorTree.exists_nodeAt .left hne
  have hplug : Held s (plug [] (nodeAt .left c l x r)) := hs
  obtain ⟨s', hwrite, hs', hsame⟩ := hplug.paint .black
  refine ⟨s', ?_, hs', hsame⟩
  unfold PointerTree.blackenRoot
  rw [hs.root]
  exact hwrite

/-- A black tree painted black is the same. -/
theorem paint_of_black (h : t.isRed = false) : t.paint .black = t := by
  cases t with
  | nil => rfl
  | node c l x r =>
      cases c with
      | red => cases h
      | black => rfl

/-- A tree with a frame in it is not empty. -/
theorem plug_ne_nil : plug (f :: fs) t ≠ .nil := by
  obtain ⟨a, -, hroot⟩ := rootPtr_plug_mem f fs t
  intro h
  rw [h] at hroot
  cases hroot

/-- A node is one of the tree's. -/
theorem mem_ids_nodeAt : x.1 ∈ ids (nodeAt side c near x far) := ids_nodeAt.mem_iff.mpr List.mem_cons_self

end PointerTree
end Snippets
