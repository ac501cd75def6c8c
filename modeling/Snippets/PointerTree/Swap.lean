import Snippets.PointerTree.Erase

/-!
# `PointerTree.Swap` — an internal node changes places with its successor

The successor `y` of a node `x` with two children is the first node of its right subtree `r`, which is
`plug hs (node c .nil y w)` for frames `hs` that go left all the way (`exists_first`). The swap relinks the two nodes and
their neighbours and keeps every node's colour: `x` hangs where `y` was, in `x`'s colour, and the other way round
(`Held.swapFar`). When `y` is the right child itself, `root_` is left as it was, which is right only below another node
(`Held.swapNear_rep`).
-/

namespace Snippets

open Lib

namespace PointerTree

open ColorTree (nodeAt plug Frame)

variable {K V : Type} {s : PointerTree K V} {h h' : Heap K V} {fs hs : List (Frame (Elem K V))} {f : Frame (Elem K V)}
  {x y : Elem K V} {t l r w : ColorTree (Elem K V)} {c c' : Color} {p q hole : Ptr}

/-! ## Frames below a node

The successor lies below the node it trades places with, so the frames between the two hang from a node instead
of from the root. -/

/-- The parent of a hole, when the frames hang below `p`. -/
def above (p : Ptr) : List (Frame (Elem K V)) → Ptr
  | [] => p
  | f :: _ => some f.x.1

/-- The heap holds the frames, below `p`, around a hole where `hole` hangs. -/
def RepSegment (h : Heap K V) (p : Ptr) : List (Frame (Elem K V)) → Ptr → Prop
  | [], _ => True
  | f :: fs, hole =>
      h.cells f.x.1 = some (cellAt f.side f.x (above p fs) hole (rootPtr f.sib) f.c) ∧ Rep h f.sib (some f.x.1) ∧
        RepSegment h p fs (some f.x.1)

/-- A tree below a node, split at a place in it. -/
theorem rep_plug_below : Rep h (plug fs t) p ↔ RepSegment h p fs (rootPtr t) ∧ Rep h t (above p fs) := by
  induction fs generalizing t with
  | nil => simp [plug, RepSegment, above]
  | cons f fs ih =>
      show Rep h (plug fs (f.fill t)) p ↔ _
      rw [ih, Frame.fill, rootPtr_nodeAt, rep_nodeAt]
      show _ ↔ (_ ∧ _ ∧ _) ∧ Rep h t (some f.x.1)
      constructor
      · rintro ⟨hfs, hx, ht, hsib⟩
        exact ⟨⟨hx, hsib, hfs⟩, ht⟩
      · rintro ⟨⟨hx, hsib, hfs⟩, ht⟩
        exact ⟨hfs, hx, ht, hsib⟩

/-- Only the nodes on the way matter. -/
theorem RepSegment.congr (hfs : RepSegment h p fs hole) (hagree : ∀ i ∈ frameIds fs, h'.cells i = h.cells i) :
    RepSegment h' p fs hole := by
  induction fs generalizing hole with
  | nil => trivial
  | cons f fs ih =>
      obtain ⟨hx, hsib, hrest⟩ := hfs
      refine ⟨?_, hsib.congr ?_, ih hrest ?_⟩
      · rw [hagree _ List.mem_cons_self]
        exact hx
      · intro i hi
        exact hagree i (List.mem_cons_of_mem _ (List.mem_append_left _ hi))
      · intro i hi
        exact hagree i (List.mem_cons_of_mem _ (List.mem_append_right _ hi))

/-- The hole leads to another node. -/
theorem RepSegment.repoint (hfs : RepSegment s.heap p (f :: fs) hole) (hnd : (frameIds (f :: fs)).Nodup) :
    RepSegment (s.repoint (f :: fs) q).heap p (f :: fs) q := by
  obtain ⟨hx, hsib, hrest⟩ := hfs
  obtain ⟨hnot, -⟩ := List.nodup_cons.mp hnd
  refine ⟨?_, hsib.congr ?_, hrest.congr ?_⟩
  · show (s.heap.modify f.x.1 _).cells f.x.1 = _
    rw [cells_modify_self, hx, Option.map_some, setChild_cellAt]
  · intro i hi
    apply cells_modify_ne
    rintro rfl
    exact hnot (List.mem_append_left _ hi)
  · intro i hi
    apply cells_modify_ne
    rintro rfl
    exact hnot (List.mem_append_right _ hi)

/-- The first node of a tree, at the end of a way that goes left. -/
theorem exists_first (hr : r ≠ .nil) : ∃ hs c y w, r = plug hs (.node c .nil y w) ∧ ∀ f ∈ hs, f.side = .left := by
  induction r with
  | nil => exact absurd rfl hr
  | node c l x r ihl _ =>
      cases l with
      | nil => exact ⟨[], c, x, r, rfl, fun f hf => (nomatch hf)⟩
      | node c' l' x' r' =>
          obtain ⟨hs, c₁, y, w, hl, hleft⟩ := ihl (fun h => nomatch h)
          refine ⟨hs ++ [⟨.left, c, x, r⟩], c₁, y, w, ?_, ?_⟩
          · rw [ColorTree.plug_append, ← hl]
            rfl
          · intro f hf
            rcases List.mem_append.mp hf with hf | hf
            · exact hleft f hf
            · rw [List.mem_singleton.mp hf]

/-- A way that only goes left has nothing before it. -/
theorem before_of_left (hleft : ∀ f ∈ hs, f.side = .left) : ColorTree.before hs = [] := by
  induction hs with
  | nil => rfl
  | cons f hs ih =>
      obtain ⟨d, c, x, sib⟩ := f
      obtain rfl : d = .left := hleft _ List.mem_cons_self
      show ColorTree.before hs ++ [] = []
      rw [List.append_nil]
      exact ih fun f hf => hleft f (List.mem_cons_of_mem _ hf)

/-! ## The addresses of a swap

The two nodes, the three subtrees and the frames are apart from each other, which is what lets each store be
followed by itself. -/

/-- The two nodes, the subtrees and the frames do not overlap. -/
structure Separate (fs : List (Frame (Elem K V))) (l : ColorTree (Elem K V)) (x : Elem K V)
    (hs : List (Frame (Elem K V))) (y : Elem K V) (w : ColorTree (Elem K V)) : Prop where
  ne : x.1 ≠ y.1
  x_not : x.1 ∉ ids l ++ (ids w ++ (frameIds hs ++ frameIds fs))
  y_not : y.1 ∉ ids l ++ (ids w ++ (frameIds hs ++ frameIds fs))
  parts : (ids l ++ (ids w ++ (frameIds hs ++ frameIds fs))).Nodup

/-- All the nodes there are, -/
theorem ids_swap : (ids (plug fs (.node c l x (plug hs (.node c' .nil y w))))).Perm
    (x.1 :: y.1 :: (ids l ++ (ids w ++ (frameIds hs ++ frameIds fs)))) := by
  have hr : (ids (plug hs (.node c' .nil y w))).Perm (y.1 :: (ids w ++ frameIds hs)) :=
    ids_plug.trans (ids_node.append_right _)
  have hnode : (ids (.node c l x (plug hs (.node c' .nil y w)))).Perm (x.1 :: y.1 :: (ids l ++ (ids w ++ frameIds hs))) :=
    ids_node.trans (((hr.append_left _).trans List.perm_middle).cons _)
  refine ids_plug.trans ((hnode.append_right _).trans ?_)
  simp

/-- and that none is there twice. -/
theorem Held.separate (hs' : Held s (plug fs (.node c l x (plug hs (.node c' .nil y w))))) : Separate fs l x hs y w := by
  have hnd := ids_swap.nodup_iff.mp hs'.nodup
  obtain ⟨hx, hnd⟩ := List.nodup_cons.mp hnd
  obtain ⟨hy, hnd⟩ := List.nodup_cons.mp hnd
  obtain ⟨hne, hx⟩ := not_or.mp (fun h => hx (List.mem_cons.mpr h))
  exact ⟨hne, hx, hy, hnd⟩

/-- `child->p = q`, for a child that is there. -/
theorem write_adopt (ht : Rep s.heap t p) (hne : t ≠ .nil) :
    s.write (rootPtr t) (fun n => n.setParent q) = some (s.adopt t q) := by
  cases t with
  | nil => exact absurd rfl hne
  | node c l x r => exact write_eq ht.1 _

/-- The parent's link, with `root_` as it was. -/
def relink (s : PointerTree K V) (fs : List (Frame (Elem K V))) (q : Ptr) : PointerTree K V :=
  { s.repoint fs q with root := s.root }

/-- The link from above is set to the other node. -/
theorem redirectParent_eq {a : Nat} (hfs : RepFrames s.heap fs (some a)) (ha : a ∉ frameIds fs) :
    s.redirectParent (parentPtr fs) (some a) q = some (s.relink fs q) := by
  cases fs with
  | nil => rfl
  | cons f fs => exact redirect_eq hfs (not_mem_sib ha)

/-- **The swap with a right child.** `root_` does not change. -/
theorem Held.swapNear_rep (hheld : Held s (plug fs (.node c l x (.node c' .nil y w)))) (hl : l ≠ .nil) :
    ∃ s', s.swapNear (some x.1) (some y.1) = some s' ∧ RepFrames s'.heap fs (some y.1) ∧
      Rep s'.heap (.node c' l y (.node c .nil x w)) (parentPtr fs) ∧ s'.root = s.root ∧ Same s s' := by
  obtain ⟨hfs, hx, hlrep, hy, -, hw⟩ := hheld.focus
  have hsep : Separate fs l x [] y w := hheld.separate
  obtain ⟨hne, hxn, hyn, hparts⟩ := hsep
  simp only [frameIds, List.nil_append, List.mem_append, not_or] at hxn hyn
  simp only [frameIds, List.nil_append] at hparts
  obtain ⟨hndl, hndr, hdl⟩ := List.nodup_append.mp hparts
  obtain ⟨hndw, hndfs, hdw⟩ := List.nodup_append.mp hndr
  -- the two nodes, store by store
  let s₁ := s.relink fs (some y.1)
  let s₂ := s₁.adopt w (some x.1)
  let s₃ : PointerTree K V := { s₂ with heap := s₂.heap.modify x.1 fun n => n.setChild .right (rootPtr w) }
  let s₄ : PointerTree K V := { s₃ with heap := s₃.heap.modify y.1 fun n => n.setChild .right (some x.1) }
  let s₅ : PointerTree K V := { s₄ with heap := s₄.heap.modify y.1 fun n => n.setParent (parentPtr fs) }
  let s₆ : PointerTree K V := { s₅ with heap := s₅.heap.modify x.1 fun n => n.setParent (some y.1) }
  let s₇ := s₆.adopt l (some y.1)
  let s₈ : PointerTree K V := { s₇ with heap := s₇.heap.modify y.1 fun n => n.setChild .left (rootPtr l) }
  let s₉ : PointerTree K V := { s₈ with heap := s₈.heap.modify x.1 fun n => n.setChild .left none }
  have hx₂ : s₂.heap.cells x.1 = some ⟨x.2, parentPtr fs, rootPtr l, some y.1, c⟩ :=
    (adopt_cells hxn.2.1).trans ((repoint_cells hxn.2.2).trans hx)
  have hy₁ : s₁.heap.cells y.1 = some ⟨y.2, some x.1, none, rootPtr w, c'⟩ := (repoint_cells hyn.2.2).trans hy
  have hy₂ : s₂.heap.cells y.1 = some ⟨y.2, some x.1, none, rootPtr w, c'⟩ := (adopt_cells hyn.2.1).trans hy₁
  have hx₃ : s₃.heap.cells x.1 = some ⟨x.2, parentPtr fs, rootPtr l, rootPtr w, c⟩ := by
    rw [cells_modify_self, hx₂]
    rfl
  have hy₃ : s₃.heap.cells y.1 = some ⟨y.2, some x.1, none, rootPtr w, c'⟩ := by
    rw [cells_modify_ne hne.symm, hy₂]
  have hx₄ : s₄.heap.cells x.1 = some ⟨x.2, parentPtr fs, rootPtr l, rootPtr w, c⟩ := by
    rw [cells_modify_ne hne, hx₃]
  have hy₄ : s₄.heap.cells y.1 = some ⟨y.2, some x.1, none, some x.1, c'⟩ := by
    rw [cells_modify_self, hy₃]
    rfl
  have hx₅ : s₅.heap.cells x.1 = some ⟨x.2, parentPtr fs, rootPtr l, rootPtr w, c⟩ := by
    rw [cells_modify_ne hne, hx₄]
  have hy₅ : s₅.heap.cells y.1 = some ⟨y.2, parentPtr fs, none, some x.1, c'⟩ := by
    rw [cells_modify_self, hy₄]
    rfl
  have hx₇ : s₇.heap.cells x.1 = some ⟨x.2, some y.1, rootPtr l, rootPtr w, c⟩ := by
    rw [adopt_cells hxn.1, cells_modify_self, hx₅]
    rfl
  have hy₇ : s₇.heap.cells y.1 = some ⟨y.2, parentPtr fs, none, some x.1, c'⟩ := by
    rw [adopt_cells hyn.1, cells_modify_ne hne.symm, hy₅]
  have hx₈ : s₈.heap.cells x.1 = some ⟨x.2, some y.1, rootPtr l, rootPtr w, c⟩ := by
    rw [cells_modify_ne hne, hx₇]
  have hx₉ : s₉.heap.cells x.1 = some ⟨x.2, some y.1, none, rootPtr w, c⟩ := by
    rw [cells_modify_self, hx₈]
    rfl
  have hy₉ : s₉.heap.cells y.1 = some ⟨y.2, parentPtr fs, rootPtr l, some x.1, c'⟩ := by
    rw [cells_modify_ne hne.symm, cells_modify_self, hy₇]
    rfl
  -- the other nodes
  have hlate : ∀ i, i ≠ x.1 → i ≠ y.1 → s₉.heap.cells i = s₇.heap.cells i := by
    intro i hix hiy
    rw [cells_modify_ne hix, cells_modify_ne hiy]
  have hearly : ∀ i, i ≠ x.1 → i ≠ y.1 → s₆.heap.cells i = s₂.heap.cells i := by
    intro i hix hiy
    rw [cells_modify_ne hix, cells_modify_ne hiy, cells_modify_ne hiy, cells_modify_ne hix]
  have hnel : ∀ i ∈ ids l, i ≠ x.1 ∧ i ≠ y.1 := fun i hi => ⟨fun h => hxn.1 (h ▸ hi), fun h => hyn.1 (h ▸ hi)⟩
  have hnew : ∀ i ∈ ids w, i ≠ x.1 ∧ i ≠ y.1 := fun i hi => ⟨fun h => hxn.2.1 (h ▸ hi), fun h => hyn.2.1 (h ▸ hi)⟩
  have hnefs : ∀ i ∈ frameIds fs, i ≠ x.1 ∧ i ≠ y.1 := fun i hi =>
    ⟨fun h => hxn.2.2 (h ▸ hi), fun h => hyn.2.2 (h ▸ hi)⟩
  have hw₁ : Rep s₁.heap w (some y.1) := hw.congr fun i hi => repoint_cells fun hj => hdw i hi i hj rfl
  have hl₆ : Rep s₆.heap l (some x.1) := by
    apply hlrep.congr
    intro i hi
    obtain ⟨hix, hiy⟩ := hnel i hi
    have hiw : i ∉ ids w := fun hj => hdl i hi i (List.mem_append_left _ hj) rfl
    have hifs : i ∉ frameIds fs := fun hj => hdl i hi i (List.mem_append_right _ hj) rfl
    exact (hearly i hix hiy).trans ((adopt_cells hiw).trans (repoint_cells hifs))
  -- the code, then the frames, the two nodes with their subtrees, and the rest of the state
  refine ⟨s₉, ?_, ?_, ⟨hy₉, ?_, hx₉, trivial, ?_⟩, ?_, ?_, ?_⟩
  · unfold swapNear
    simp only [deref_eq hx, Option.bind_eq_bind, Option.bind_some, redirectParent_eq hfs hxn.2.2]
    rw [deref_eq hy₁]
    simp only [Option.bind_some, guard, if_true, Option.pure_def]
    rw [setParent_eq hw₁]
    simp only [Option.bind_some]
    rw [write_eq hx₂]
    simp only [Option.bind_some]
    rw [write_eq hy₃]
    simp only [Option.bind_some]
    rw [deref_eq hx₄]
    simp only [Option.bind_some]
    rw [write_eq hy₄]
    simp only [Option.bind_some]
    rw [write_eq hx₅]
    simp only [Option.bind_some]
    rw [write_adopt hl₆ hl]
    simp only [Option.bind_some]
    rw [deref_eq hy₇, deref_eq hx₇]
    simp only [Option.bind_some]
    rw [write_eq hy₇]
    exact write_eq hx₈ _
  · have hfs₁ : RepFrames s₁.heap fs (some y.1) := repoint_frames hfs hndfs
    apply hfs₁.congr
    intro i hi
    obtain ⟨hix, hiy⟩ := hnefs i hi
    have hil : i ∉ ids l := fun hj => hdl i hj i (List.mem_append_right _ hi) rfl
    have hiw : i ∉ ids w := fun hj => hdw i hj i hi rfl
    exact (hlate i hix hiy).trans ((adopt_cells hil).trans ((hearly i hix hiy).trans (adopt_cells hiw)))
  · apply (adopt_rep hl₆ hndl).congr
    intro i hi
    exact hlate i (hnel i hi).1 (hnel i hi).2
  · apply (adopt_rep hw₁ hndw).congr
    intro i hi
    obtain ⟨hix, hiy⟩ := hnew i hi
    have hil : i ∉ ids l := fun hj => hdl i hj i (List.mem_append_left _ hi) rfl
    exact (hlate i hix hiy).trans ((adopt_cells hil).trans (hearly i hix hiy))
  · have hroot : s₉.root = s₂.root := adopt_root
    rw [hroot, adopt_root]
    rfl
  · have hsize : s₉.size = s₂.size := adopt_size
    rw [hsize, adopt_size]
    exact repoint_size
  · have hnext : s₉.heap.next = s₂.heap.next := adopt_next
    rw [hnext, adopt_next]
    exact repoint_next

/-- Only the root of a subtree gets another parent. -/
theorem adopt_cells_root {b : Nat} (hb : rootPtr t ≠ some b) : (s.adopt t q).heap.cells b = s.heap.cells b := by
  cases t with
  | nil => rfl
  | node c l x r =>
      apply cells_modify_ne
      rintro rfl
      exact hb rfl

/-- One step of a computation that does not fail. -/
theorem bind_step {α β : Type} {o : Option α} {a : α} {k : α → Option β} {r : Option β} (h : o = some a) (hk : k a = r) :
    (o >>= k) = r := by
  rw [h]
  exact hk

/-- The stores of `swapFar`, one after the other, over the states between them. -/
theorem swapFar_steps {node successor : Ptr} {s s₁ s₂ s₃ s₄ s₅ s₆ s₇ s₈ s₉ s₁₀ s₁₁ : PointerTree K V}
    {b m n n₁ b₃ b₄ n₄ b₈ n₈ : RBNode K V} (hb : s.deref successor = some b) (hbl : b.l = none)
    (hm : s.deref b.p = some m) (hml : successor = m.l) (hn : s.deref node = some n)
    (h₁ : s.replaceChild n.p node successor = some s₁) (hn₁ : s₁.deref node = some n₁)
    (h₂ : (s₁.write n₁.l fun m => m.setParent successor) = some s₂)
    (h₃ : (s₂.write n₁.r fun m => m.setParent successor) = some s₃) (hb₃ : s₃.deref successor = some b₃)
    (h₄ : (s₃.write b₃.p fun m => m.setChild .left node) = some s₄) (hb₄ : s₄.deref successor = some b₄)
    (hn₄ : s₄.deref node = some n₄) (h₅ : (s₄.write successor fun b => b.setChild .left n₄.l) = some s₅)
    (h₆ : (s₅.write node fun n => n.setChild .left b₄.l) = some s₆)
    (h₇ : (s₆.write successor fun b => b.setParent n₄.p) = some s₇)
    (h₈ : (s₇.write node fun n => n.setParent b₄.p) = some s₈) (hb₈ : s₈.deref successor = some b₈)
    (hn₈ : s₈.deref node = some n₈) (hr : n₈.r.isSome = true) (h₉ : s₈.setParent b₈.r node = some s₉)
    (h₁₀ : (s₉.write successor fun b => b.setChild .right n₈.r) = some s₁₀)
    (h₁₁ : (s₁₀.write node fun n => n.setChild .right b₈.r) = some s₁₁) :
    s.swapFar node successor = some s₁₁ := by
  have hguard₁ : guard (b.l = none) = some () := if_pos hbl
  have hguard₂ : guard (successor = m.l) = some () := if_pos hml
  have hguard₃ : guard (n₈.r.isSome = true) = some () := if_pos hr
  -- what is checked before the first store
  refine bind_step hb (bind_step hguard₁ (bind_step hm (bind_step hguard₂ (bind_step hn ?_))))
  -- the three neighbours of the node
  refine bind_step h₁ (bind_step hn₁ (bind_step h₂ (bind_step h₃ ?_)))
  -- the parent of the successor, and the left links and the parents of both
  refine bind_step hb₃ (bind_step h₄ (bind_step hb₄ (bind_step hn₄ ?_)))
  refine bind_step h₅ (bind_step h₆ (bind_step h₇ (bind_step h₈ ?_)))
  -- the right links
  exact bind_step hb₈ (bind_step hn₈ (bind_step hguard₃ (bind_step h₉ (bind_step h₁₀ h₁₁))))

/-- **The swap with a node further down.** -/
theorem Held.swapFar (hheld : Held s (plug fs (.node c l x (plug (f :: hs) (.node c' .nil y w))))) (hl : l ≠ .nil)
    (hleft : f.side = .left) :
    ∃ s', s.swapFar (some x.1) (some y.1) = some s' ∧
      Held s' (plug fs (.node c' l y (plug (f :: hs) (.node c .nil x w)))) ∧ Same s s' := by
  obtain ⟨hfs, hx, hlrep, hr⟩ := hheld.focus
  have hsep : Separate fs l x (f :: hs) y w := hheld.separate
  obtain ⟨hne, hxn, hyn, hparts⟩ := hsep
  simp only [List.mem_append, not_or] at hxn hyn
  obtain ⟨hndl, hndr, hdl⟩ := List.nodup_append.mp hparts
  obtain ⟨hndw, hndr, hdw⟩ := List.nodup_append.mp hndr
  obtain ⟨hndhs, hndfs, hdhs⟩ := List.nodup_append.mp hndr
  -- the root of the right subtree is one of the frames
  obtain ⟨g, hg, hroot⟩ := rootPtr_plug_mem f hs (.node c' .nil y w)
  have hne_root : ∀ i, i ∉ frameIds (f :: hs) → rootPtr (plug (f :: hs) (.node c' .nil y w)) ≠ some i := by
    intro i hi h
    rw [hroot] at h
    obtain rfl := Option.some.inj h
    exact hi hg
  have hroot' : rootPtr (plug (f :: hs) (.node c .nil x w)) = rootPtr (plug (f :: hs) (.node c' .nil y w)) := rootPtr_plug_cons
  have hndids : (ids (plug (f :: hs) (.node c' .nil y w))).Nodup := by
    have hperm : (ids (plug (f :: hs) (.node c' .nil y w))).Perm (y.1 :: (ids w ++ frameIds (f :: hs))) :=
      ids_plug.trans (ids_node.append_right _)
    rw [hperm.nodup_iff, List.nodup_cons, List.mem_append, not_or]
    refine ⟨⟨hyn.2.1, hyn.2.2.1⟩, List.nodup_append.mpr ⟨hndw, hndhs, ?_⟩⟩
    intro i hi j hj
    exact hdw i hi j (List.mem_append_left _ hj)
  let s₁ := s.repoint fs (some y.1)
  let s₂ := s₁.adopt l (some y.1)
  let s₃ := s₂.adopt (plug (f :: hs) (.node c' .nil y w)) (some y.1)
  let s₄ := s₃.repoint (f :: hs) (some x.1)
  let s₅ : PointerTree K V := { s₄ with heap := s₄.heap.modify y.1 fun n => n.setChild .left (rootPtr l) }
  let s₆ : PointerTree K V := { s₅ with heap := s₅.heap.modify x.1 fun n => n.setChild .left none }
  let s₇ : PointerTree K V := { s₆ with heap := s₆.heap.modify y.1 fun n => n.setParent (parentPtr fs) }
  let s₈ : PointerTree K V := { s₇ with heap := s₇.heap.modify x.1 fun n => n.setParent (some f.x.1) }
  let s₉ := s₈.adopt w (some x.1)
  let s₁₀ : PointerTree K V := { s₉ with heap := s₉.heap.modify y.1 fun n => n.setChild .right (rootPtr (plug (f :: hs) (.node c' .nil y w))) }
  let s₁₁ : PointerTree K V := { s₁₀ with heap := s₁₀.heap.modify x.1 fun n => n.setChild .right (rootPtr w) }
  -- the subtrees
  have hl₁ : Rep s₁.heap l (some x.1) := by
    apply hlrep.congr
    intro i hi
    exact repoint_cells fun hj => hdl i hi i (List.mem_append_right _ (List.mem_append_right _ hj)) rfl
  have hr₂ : Rep s₂.heap (plug (f :: hs) (.node c' .nil y w)) (some x.1) := by
    apply hr.congr
    intro i hi
    have hi : i ∈ y.1 :: (ids w ++ frameIds (f :: hs)) := (ids_plug.trans (ids_node.append_right _)).mem_iff.mp hi
    simp only [List.mem_cons, List.mem_append] at hi
    have hil : i ∉ ids l := by
      intro hj
      rcases hi with rfl | hi | hi
      · exact hyn.1 hj
      · exact hdl i hj i (List.mem_append_left _ hi) rfl
      · exact hdl i hj i (List.mem_append_right _ (List.mem_append_left _ hi)) rfl
    have hifs : i ∉ frameIds fs := by
      intro hj
      rcases hi with rfl | hi | hi
      · exact hyn.2.2.2 hj
      · exact hdw i hi i (List.mem_append_right _ hj) rfl
      · exact hdhs i hi i hj rfl
    exact (adopt_cells hil).trans (repoint_cells hifs)
  obtain ⟨hseg₃, hy₃, -, hw₃⟩ := rep_plug_below.mp (adopt_rep (q := some y.1) hr₂ hndids)
  have hseg₄ : RepSegment s₄.heap (some y.1) (f :: hs) (some x.1) := hseg₃.repoint hndhs
  -- the two nodes, store by store
  have hx₃ : s₃.heap.cells x.1 = some ⟨x.2, parentPtr fs, rootPtr l, rootPtr (plug (f :: hs) (.node c' .nil y w)), c⟩ :=
    (adopt_cells_root (hne_root _ hxn.2.2.1)).trans ((adopt_cells hxn.1).trans ((repoint_cells hxn.2.2.2).trans hx))
  have hx₄ : s₄.heap.cells x.1 = some ⟨x.2, parentPtr fs, rootPtr l, rootPtr (plug (f :: hs) (.node c' .nil y w)), c⟩ :=
    (repoint_cells hxn.2.2.1).trans hx₃
  have hy₄ : s₄.heap.cells y.1 = some ⟨y.2, some f.x.1, none, rootPtr w, c'⟩ := (repoint_cells hyn.2.2.1).trans hy₃
  have hx₅ : s₅.heap.cells x.1 = some ⟨x.2, parentPtr fs, rootPtr l, rootPtr (plug (f :: hs) (.node c' .nil y w)), c⟩ := by
    rw [cells_modify_ne hne, hx₄]
  have hy₆ : s₆.heap.cells y.1 = some ⟨y.2, some f.x.1, rootPtr l, rootPtr w, c'⟩ := by
    rw [cells_modify_ne hne.symm, cells_modify_self, hy₄]
    rfl
  have hx₇ : s₇.heap.cells x.1 = some ⟨x.2, parentPtr fs, none, rootPtr (plug (f :: hs) (.node c' .nil y w)), c⟩ := by
    rw [cells_modify_ne hne, cells_modify_self, hx₅]
    rfl
  have hy₈ : s₈.heap.cells y.1 = some ⟨y.2, parentPtr fs, rootPtr l, rootPtr w, c'⟩ := by
    rw [cells_modify_ne hne.symm, cells_modify_self, hy₆]
    rfl
  have hx₈ : s₈.heap.cells x.1 = some ⟨x.2, some f.x.1, none, rootPtr (plug (f :: hs) (.node c' .nil y w)), c⟩ := by
    rw [cells_modify_self, hx₇]
    rfl
  have hy₉ : s₉.heap.cells y.1 = some ⟨y.2, parentPtr fs, rootPtr l, rootPtr w, c'⟩ := (adopt_cells hyn.2.1).trans hy₈
  have hx₁₀ : s₁₀.heap.cells x.1 = some ⟨x.2, some f.x.1, none, rootPtr (plug (f :: hs) (.node c' .nil y w)), c⟩ := by
    rw [cells_modify_ne hne, adopt_cells hxn.2.1, hx₈]
  have hx₁₁ : s₁₁.heap.cells x.1 = some ⟨x.2, some f.x.1, none, rootPtr w, c⟩ := by
    rw [cells_modify_self, hx₁₀]
    rfl
  have hy₁₁ : s₁₁.heap.cells y.1 =
      some ⟨y.2, parentPtr fs, rootPtr l, rootPtr (plug (f :: hs) (.node c' .nil y w)), c'⟩ := by
    rw [cells_modify_ne hne.symm, cells_modify_self, hy₉]
    rfl
  -- the other nodes
  have hlate : ∀ i, i ≠ x.1 → i ≠ y.1 → s₁₁.heap.cells i = s₉.heap.cells i := by
    intro i hix hiy
    rw [cells_modify_ne hix, cells_modify_ne hiy]
  have hearly : ∀ i, i ≠ x.1 → i ≠ y.1 → s₈.heap.cells i = s₄.heap.cells i := by
    intro i hix hiy
    rw [cells_modify_ne hix, cells_modify_ne hiy, cells_modify_ne hix, cells_modify_ne hiy]
  have hw₈ : Rep s₈.heap w (some y.1) := by
    apply hw₃.congr
    intro i hi
    have hifs : i ∉ frameIds (f :: hs) := fun hj => hdw i hi i (List.mem_append_left _ hj) rfl
    exact (hearly i (fun h => hxn.2.1 (h ▸ hi)) (fun h => hyn.2.1 (h ▸ hi))).trans (repoint_cells hifs)
  refine ⟨s₁₁, ?_, ⟨rep_plug.mpr ⟨?_, ?_, ?_, rep_plug_below.mpr ⟨?_, ?_, trivial, ?_⟩⟩, ?_, ?_⟩, ?_, ?_⟩
  · -- the code
    obtain ⟨hseg, hy, -, -⟩ := rep_plug_below.mp hr
    have hfl : ∀ q : Ptr, (cellAt f.side f.x (above (some x.1) hs) q (rootPtr f.sib) f.c).l = q := by
      intro q
      rw [hleft]
      rfl
    have hfcell₀ : s.heap.cells f.x.1 = some (cellAt f.side f.x (above (some x.1) hs) (some y.1) (rootPtr f.sib) f.c) := hseg.1
    have hfcell : s₃.heap.cells f.x.1 = some (cellAt f.side f.x (above (some y.1) hs) (some y.1) (rootPtr f.sib) f.c) := hseg₃.1
    have hparent : s₃.write (some f.x.1) (fun m => m.setChild .left (some x.1)) = some s₄ := by
      rw [write_eq hfcell, ← hleft]
      rfl
    have hl₂ : (s₁.write (rootPtr l) fun m => m.setParent (some y.1)) = some s₂ := write_adopt hl₁ hl
    have hr₃ : (s₂.write (rootPtr (plug (f :: hs) (.node c' .nil y w))) fun m => m.setParent (some y.1)) = some s₃ :=
      write_adopt hr₂ plug_ne_nil
    have hx₁ : s₁.heap.cells x.1 = some ⟨x.2, parentPtr fs, rootPtr l, rootPtr (plug (f :: hs) (.node c' .nil y w)), c⟩ :=
      (repoint_cells hxn.2.2.2).trans hx
    have hguard : some y.1 = (cellAt f.side f.x (above (some x.1) hs) (some y.1) (rootPtr f.sib) f.c).l := (hfl _).symm
    exact swapFar_steps (deref_eq hy) rfl (deref_eq hfcell₀) hguard (deref_eq hx) (replaceChild_eq hfs hxn.2.2.2)
      (deref_eq hx₁) hl₂ hr₃ (deref_eq hy₃) hparent (deref_eq hy₄) (deref_eq hx₄) (write_eq hy₄ _) (write_eq hx₅ _)
      (write_eq hy₆ _) (write_eq hx₇ _) (deref_eq hy₈) (deref_eq hx₈) (by rw [hroot]; rfl) (setParent_eq hw₈)
      (write_eq hy₉ _) (write_eq hx₁₀ _)
  · have hfs₁ : RepFrames s₁.heap fs (some y.1) := repoint_frames hfs hndfs
    apply hfs₁.congr
    intro i hi
    have hix : i ≠ x.1 := fun h => hxn.2.2.2 (h ▸ hi)
    have hiy : i ≠ y.1 := fun h => hyn.2.2.2 (h ▸ hi)
    have hiw : i ∉ ids w := fun hj => hdw i hj i (List.mem_append_right _ hi) rfl
    have hihs : i ∉ frameIds (f :: hs) := fun hj => hdhs i hj i hi rfl
    have hil : i ∉ ids l := fun hj => hdl i hj i (List.mem_append_right _ (List.mem_append_right _ hi)) rfl
    have h₁ : s₉.heap.cells i = s₄.heap.cells i := (adopt_cells hiw).trans (hearly i hix hiy)
    have h₂ : s₄.heap.cells i = s₂.heap.cells i := (repoint_cells hihs).trans (adopt_cells_root (hne_root i hihs))
    exact (hlate i hix hiy).trans (h₁.trans (h₂.trans (adopt_cells hil)))
  · rw [hroot']
    exact hy₁₁
  · have hl₂ : Rep s₂.heap l (some y.1) := adopt_rep hl₁ hndl
    apply hl₂.congr
    intro i hi
    have hix : i ≠ x.1 := fun h => hxn.1 (h ▸ hi)
    have hiy : i ≠ y.1 := fun h => hyn.1 (h ▸ hi)
    have hiw : i ∉ ids w := fun hj => hdl i hi i (List.mem_append_left _ hj) rfl
    have hihs : i ∉ frameIds (f :: hs) := fun hj => hdl i hi i (List.mem_append_right _ (List.mem_append_left _ hj)) rfl
    have h₁ : s₉.heap.cells i = s₄.heap.cells i := (adopt_cells hiw).trans (hearly i hix hiy)
    have h₂ : s₄.heap.cells i = s₂.heap.cells i := (repoint_cells hihs).trans (adopt_cells_root (hne_root i hihs))
    exact (hlate i hix hiy).trans (h₁.trans h₂)
  · apply hseg₄.congr
    intro i hi
    have hix : i ≠ x.1 := fun h => hxn.2.2.1 (h ▸ hi)
    have hiy : i ≠ y.1 := fun h => hyn.2.2.1 (h ▸ hi)
    have hiw : i ∉ ids w := fun hj => hdw i hj i (List.mem_append_left _ hi) rfl
    exact (hlate i hix hiy).trans ((adopt_cells hiw).trans (hearly i hix hiy))
  · exact hx₁₁
  · apply (adopt_rep hw₈ hndw).congr
    intro i hi
    exact hlate i (fun h => hxn.2.1 (h ▸ hi)) (fun h => hyn.2.1 (h ▸ hi))
  · have hroot₁ : s₁₁.root = s₈.root := adopt_root
    have hroot₃ : s₃.root = s₂.root := adopt_root
    have hroot₂ : s₂.root = s₁.root := adopt_root
    rw [hroot₁]
    show s₃.root = _
    rw [hroot₃, hroot₂]
    exact repoint_root hheld.root rfl
  · have hperm : (ids (plug fs (.node c' l y (plug (f :: hs) (.node c .nil x w))))).Perm
        (ids (plug fs (.node c l x (plug (f :: hs) (.node c' .nil y w))))) :=
      ids_swap.trans ((List.Perm.swap _ _ _).trans ids_swap.symm)
    exact hperm.nodup_iff.mpr hheld.nodup
  · have hsize₁ : s₁₁.size = s₃.size := adopt_size
    have hsize₃ : s₃.size = s₂.size := adopt_size
    rw [hsize₁, hsize₃]
    exact adopt_size.trans repoint_size
  · have hnext₁ : s₁₁.heap.next = s₃.heap.next := adopt_next
    have hnext₃ : s₃.heap.next = s₂.heap.next := adopt_next
    rw [hnext₁, hnext₃]
    exact adopt_next.trans repoint_next

/-! ## The swap

Near or far, the two nodes have changed places, colours and all. -/

/-- The successor is the first node of the right subtree. -/
theorem Held.successor_eq (hheld : Held s (plug fs (.node c l x (plug hs (.node c' .nil y w)))))
    (hleft : ∀ f ∈ hs, f.side = .left) : s.successor (some x.1) = some (some y.1) := by
  have hfocus : Held s (plug fs (nodeAt .left c l x (plug hs (.node c' .nil y w)))) := hheld
  have hlist : (plug hs (.node c' .nil y w)).toList = y :: (w.toList ++ ColorTree.after hs) := by
    rw [ColorTree.toList_plug, before_of_left hleft]
    simp
  have hnext : s.successor (some x.1) = some (firstPtr ((plug hs (.node c' .nil y w)).toList ++ ColorTree.after fs)) :=
    neighbour_eq hfocus
  rw [hnext, hlist]
  rfl

/-- The successor is the right child when no frame is between them. -/
theorem Held.right_eq_iff (hheld : Held s (plug fs (.node c l x (plug hs (.node c' .nil y w))))) :
    rootPtr (plug hs (.node c' .nil y w)) = some y.1 ↔ hs = [] := by
  constructor
  · intro h
    cases hs with
    | nil => rfl
    | cons f hs =>
        obtain ⟨g, hg, hroot⟩ := rootPtr_plug_mem f hs (.node c' .nil y w)
        rw [hroot] at h
        obtain rfl := Option.some.inj h
        have hy := hheld.separate.y_not
        exact absurd (List.mem_append_right _ (List.mem_append_right _ (List.mem_append_left _ hg))) hy
  · rintro rfl
    rfl

/-- The node is the root when there is nothing above. -/
theorem Held.root_eq_iff (hheld : Held s (plug fs (.node c l x r))) : s.root = some x.1 ↔ fs = [] := by
  constructor
  · intro h
    cases fs with
    | nil => rfl
    | cons f fs =>
        have hx : x.1 ∈ ids (.node c l x r) := ids_node.mem_iff.mpr List.mem_cons_self
        exact absurd h.symm (hheld.ne_root hx)
  · rintro rfl
    exact hheld.root

/-- The source asks whether the successor is the right child, which is whether there are frames between them. -/
theorem Held.swapSuccessor_eq (hheld : Held s (plug fs (.node c l x (plug hs (.node c' .nil y w)))))
    (hleft : ∀ f ∈ hs, f.side = .left) : s.swapSuccessor (some x.1) =
      if hs = [] then s.swapNear (some x.1) (some y.1) else s.swapFar (some x.1) (some y.1) := by
  have hcell := hheld.focus.2.1
  unfold swapSuccessor
  simp only [hheld.successor_eq hleft, Option.bind_eq_bind, Option.bind_some, deref_eq hcell, hheld.right_eq_iff]

/-- **The swap**, unless the node is the root and the successor its child. -/
theorem Held.swapSuccessor (hheld : Held s (plug fs (.node c l x (plug hs (.node c' .nil y w))))) (hl : l ≠ .nil)
    (hleft : ∀ f ∈ hs, f.side = .left) (hplace : ¬(fs = [] ∧ hs = [])) :
    ∃ s', s.swapSuccessor (some x.1) = some s' ∧
      Held s' (plug fs (.node c' l y (plug hs (.node c .nil x w)))) ∧ Same s s' := by
  rw [hheld.swapSuccessor_eq hleft]
  cases hs with
  | nil =>
      obtain ⟨s', hswap, hfs, hrep, hroot, hsame⟩ := hheld.swapNear_rep hl
      refine ⟨s', hswap, ⟨rep_plug.mpr ⟨hfs, hrep⟩, ?_, ?_⟩, hsame⟩
      · cases fs with
        | nil => exact absurd ⟨rfl, rfl⟩ hplace
        | cons f fs =>
            rw [hroot, hheld.root]
            exact rootPtr_plug_cons
      · have hperm : (ids (plug fs (.node c' l y (plug [] (.node c .nil x w))))).Perm
            (ids (plug fs (.node c l x (plug [] (.node c' .nil y w))))) :=
          ids_swap.trans ((List.Perm.swap _ _ _).trans ids_swap.symm)
        exact hperm.nodup_iff.mpr hheld.nodup
  | cons f hs =>
      rw [if_neg (List.cons_ne_nil _ _)]
      exact hheld.swapFar hl (hleft f List.mem_cons_self)

end PointerTree
end Snippets
