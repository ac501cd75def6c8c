import Snippets.RBTree.Swap
import Snippets.Lib.LeftLeaningBalance

/-!
# `RBTree.Delete` — `DeleteMin` and `Delete` on a held tree

On the way down the two functions do to the heap what `deleteMin` and `delete` do to the tree. On the way up the
new child is linked and `KeepBalance` runs (`Split.finishLeft`, `Split.finishRight`). A deletion that finds its key
gives the slice of the node back.
-/

namespace Snippets

open Lib

namespace RBTree

variable {K V : Type} {cmp : Comparator K} {s : RBTree K V} {h g : Heap K V} {t t' l r : ColorTree (Elem K V)}
  {x y : Elem K V} {c : Color} {p k : NodeId} {key : K} {fuel : Nat}

/-! ## The way up

`relink` stores what came back as the child and runs `KeepBalance`; on a node whose other subtree is held this is
one rule for each side. -/

/-- A smaller left subtree is linked, and `KeepBalance` runs. -/
theorem Split.finishLeft {l' : ColorTree (Elem K V)} (sp : Split h c l x r p) (hl : Held g l' x.1)
    (hsub : ∀ k ∈ ids l', k ∈ ids l) (hout : Outside h g l x.1 .left) :
    ∃ g', (g.store x.1 fun n => { n with l := rootId l' }).keepBalance x.1 =
        some (g', rootId (ColorTree.node c l' x r).keepBalance) ∧
      Held g' (ColorTree.node c l' x r).keepBalance p ∧ ∀ k, 0 ≤ k → k ∉ ids (.node c l x r) → g' k = h k := by
  have hgraft := sp.graftLeft (hout.2 sp.valid sp.not_left)
    (fun k hk => hout.1 k (sp.right.pos k hk) (fun hkl => sp.apart k hkl hk) (by rintro rfl; exact sp.not_right hk)) hl
    (fun hx => sp.not_left (hsub _ hx)) fun i hi => sp.apart i (hsub i hi)
  obtain ⟨g', hkeep, hheld, hframe⟩ := hgraft.keepBalance (by simp)
  refine ⟨g', hkeep, hheld, fun k hk₀ hk => ?_⟩
  rw [mem_ids_node] at hk
  push Not at hk
  rw [hframe k, store_of_ne _ hk.2.1, hout.1 k hk₀ hk.1 hk.2.1]
  rw [mem_ids_node]
  push Not
  exact ⟨fun hkl => hk.1 (hsub k hkl), hk.2⟩

/-- A smaller right subtree is linked, and `KeepBalance` runs. -/
theorem Split.finishRight {r' : ColorTree (Elem K V)} (sp : Split h c l x r p) (hr : Held g r' x.1)
    (hsub : ∀ k ∈ ids r', k ∈ ids r) (hout : Outside h g r x.1 .right) :
    ∃ g', (g.store x.1 fun n => { n with r := rootId r' }).keepBalance x.1 =
        some (g', rootId (ColorTree.node c l x r').keepBalance) ∧
      Held g' (ColorTree.node c l x r').keepBalance p ∧ ∀ k, 0 ≤ k → k ∉ ids (.node c l x r) → g' k = h k := by
  have hgraft := sp.graftRight (hout.2 sp.valid sp.not_right)
    (fun k hk => hout.1 k (sp.left.pos k hk) (sp.apart k hk) (by rintro rfl; exact sp.not_left hk)) hr
    (fun hx => sp.not_right (hsub _ hx)) fun i hi hir => sp.apart i hi (hsub i hir)
  obtain ⟨g', hkeep, hheld, hframe⟩ := hgraft.keepBalance (by simp)
  refine ⟨g', hkeep, hheld, fun k hk₀ hk => ?_⟩
  rw [mem_ids_node] at hk
  push Not at hk
  rw [hframe k, store_of_ne _ hk.2.1, hout.1 k hk₀ hk.2.2 hk.2.1]
  rw [mem_ids_node]
  push Not
  exact ⟨hk.1, hk.2.1, fun hkr => hk.2.2 (hsub k hkr)⟩

/-- The state after a slice was given back and the nodes changed to `g`. -/
def shrunk (s : RBTree K V) (ml : MemoryList) (g : Heap K V) : RBTree K V :=
  { s with ml := ml, nodes := g, size := toSize (s.size - 1) }

/-! ## `DeleteMin`

By induction on the descent, with the tree's own `deleteMin` giving the shape at each level. -/

/-- A red node without a left child is freed. -/
theorem deleteMin_leaf [Zero K] [Zero V] {ml' : MemoryList} (fuel : Nat) (hx : 0 ≤ x.1) (hl : (s.nodes x.1).l = kInvalidNodeId)
    (hc : (s.nodes x.1).c = .red) (hfree : s.ml.freeSlice x.1 = some ml') :
    s.deleteMin (fuel + 1) x.1 =
      some (s.shrunk ml' (s.nodes.store x.1 fun _ => ⟨.red, 0, 0, 0, (0, 0)⟩), kInvalidNodeId) := by
  unfold deleteMin freeNode
  simp only [node_of_pos hx, Option.bind_eq_bind, Option.bind_some, hl, hc, if_true, guard, Option.pure_def, store, hfree]
  rfl

/-- **`DeleteMin` follows `deleteMin`.** -/
theorem deleteMin_eq [Zero K] [Zero V] {ml' : MemoryList} (ht : Held s.nodes t p)
    (hdel : t.deleteMin fuel = some (t', x)) (hfree : s.ml.freeSlice x.1 = some ml') :
    ∃ g, s.deleteMin fuel (rootId t) = some (s.shrunk ml' g, rootId t') ∧ Held g t' p ∧
      ∀ k, 0 ≤ k → k ∉ ids t → g k = s.nodes k := by
  induction fuel generalizing s t t' p with
  | zero => cases hdel
  | succ fuel ih =>
      rcases t with _ | ⟨c, _ | ⟨d, a, z, b⟩, y, r⟩
      · cases hdel
      · simp only [ColorTree.deleteMin] at hdel
        split at hdel
        -- the node itself is the first: it is freed, and no node comes back
        next hc =>
          rw [Bool.and_eq_true, decide_eq_true_eq] at hc
          obtain ⟨rfl, rfl⟩ := Prod.mk.inj (Option.some.inj hdel)
          have sp := held_node.mp ht
          rw [rootId_node, deleteMin_leaf fuel sp.valid (by rw [sp.here]; rfl) (by rw [sp.here]; exact hc.1) hfree]
          refine ⟨_, rfl, held_nil, fun k _ hk => store_of_ne _ ?_⟩
          rintro rfl
          exact hk (mem_ids_node.mpr (Or.inr (Or.inl rfl)))
        next => cases hdel
      · simp only [ColorTree.deleteMin] at hdel
        split at hdel
        -- the first is in the left subtree, which has a red node lent
        next c₀ l₀ x₀ r₀ hspare =>
          obtain ⟨d', hd, heq⟩ := Option.map_eq_some_iff.mp hdel
          obtain ⟨rfl, rfl⟩ := Prod.mk.inj heq
          obtain ⟨h₁, hrun₁, ht₁, hframe₁⟩ := ht.spareLeft rfl hspare
          have sp := held_node.mp ht₁
          obtain ⟨g, hrec, hheld, hframe⟩ := ih (s := { s with nodes := h₁ }) sp.left hd hfree
          have hsub : ∀ k ∈ ids d'.1, k ∈ ids l₀ := by
            intro k hk
            unfold ids at hk ⊢
            rw [ColorTree.toList_deleteMin hd]
            exact List.mem_cons_of_mem _ hk
          obtain ⟨g', hkeep, hheld', hframe'⟩ := sp.finishLeft hheld hsub (Outside.of_frame hframe)
          refine ⟨g', ?_, hheld', fun k hk₀ hk => ?_⟩
          · have hleft : rootId (ColorTree.node d a z b) ≠ kInvalidNodeId := ne_invalid (held_node.mp (held_node.mp ht).left).valid
            rw [deleteMin]
            simp only [rootId_node] at hrun₁ hleft ⊢
            simp only [ht.node_eq, Option.bind_eq_bind, Option.bind_some, rootId_node, if_neg hleft, onNodes, hrun₁,
              Option.map_some, ht₁.node_eq, hrec, store]
            show (Option.map _ ((Heap.store g x₀.1 _).keepBalance x₀.1)) = _
            rw [hkeep]
            rfl
          · rw [hframe' k hk₀ (by rw [ids_congr (ColorTree.toList_spareLeft hspare)]; exact hk), hframe₁ k hk]
        next => cases hdel

/-! ## The node itself

A node with a right subtree trades places with its successor, which is then the minimum of that subtree;
`DeleteMin` takes it out. When the successor is the right child itself, the source
links the node to itself; `DeleteMin` frees it before that link is followed. -/

/-- What follows the swap: `DeleteMin` below the successor, and `KeepBalance` at it. -/
def unhook [Zero K] [Zero V] (fuel : Nat) (s : RBTree K V) (successorId : NodeId) : Option (RBTree K V × NodeId) := do
  let node ← s.nodes.node successorId
  let (s, child) ← deleteMin fuel s node.r
  let s := s.store successorId fun n => { n with r := child }
  s.onNodes fun h => h.keepBalance successorId

/-- What runs after the two have traded places. -/
theorem deleteHere_swap [Zero K] [Zero V] (ht : Held s.nodes (.node c l x r) p) (hy : r.first = some y)
    (hlen : r.toList.length ≤ s.limit) (hswap : (if y.1 ≠ rootId r then s.nodes.swapFar x.1 y.1
      else s.nodes.swapNear x.1 y.1) = some g) :
    s.deleteHere fuel x.1 = { s with nodes := g }.unhook fuel y.1 := by
  have sp := held_node.mp ht
  obtain ⟨hmem, hleft, -⟩ := sp.right.rep.first hy
  unfold deleteHere unhook
  simp only [ht.node_eq, Option.bind_eq_bind, Option.bind_some, sp.right.getMin_eq hy hlen,
    node_of_pos (sp.right.pos _ (mem_ids_of_mem hmem)), hleft, guard, if_true, Option.pure_def]
  by_cases hfar : y.1 ≠ rootId r
  · rw [if_pos hfar] at hswap ⊢
    rw [hswap]
    rfl
  · rw [if_neg hfar] at hswap ⊢
    rw [hswap]
    rfl

/-- Outside of a tree with the same nodes. -/
theorem Outside.trans {side : Side} (hout : Outside h g t p side) {g' : Heap K V}
    (hframe : ∀ k, 0 ≤ k → k ∉ ids t → g' k = g k) : Outside h g' t p side := by
  constructor
  · intro k hk₀ hk hkp
    rw [hframe k hk₀ hk, hout.1 k hk₀ hk hkp]
  · intro hp₀ hp
    rw [hframe p hp₀ hp]
    exact hout.2 hp₀ hp

/-- The first node is the root only when there is no left subtree. -/
theorem Held.first_root (ht : Held h (.node c l x r) p) (hy : (ColorTree.node c l x r).first = some y)
    (hroot : y.1 = x.1) : l = .nil ∧ y = x := by
  cases l with
  | nil => exact ⟨rfl, (Option.some.inj hy).symm⟩
  | node d a z b =>
      have sp := held_node.mp ht
      have hmem := mem_ids_of_mem (sp.left.rep.first (t := .node d a z b) hy).1
      exact absurd (hroot ▸ hmem) sp.not_left

/-- **The node that was found** changes places with its successor and is deleted there. -/
theorem deleteHere_eq [Zero K] [Zero V] {side : Side} {ml' : MemoryList} {r' : ColorTree (Elem K V)} {z : Elem K V}
    (ht : Held s.nodes (.node c l x r) p) (hlink : Linked s.nodes (.node c l x r) p side) (hy : r.first = some y)
    (hdel : (r.setFirst x).deleteMin fuel = some (r', z)) (hfree : s.ml.freeSlice z.1 = some ml')
    (hlen : r.toList.length ≤ s.limit) :
    ∃ g, s.deleteHere fuel x.1 = some (s.shrunk ml' g, rootId (ColorTree.node c l y r').keepBalance) ∧
      Held g (ColorTree.node c l y r').keepBalance p ∧ Outside s.nodes g (.node c l x r) p side := by
  by_cases hfar : y.1 = rootId r
  · -- the right child is the successor, a red leaf: `DeleteMin` frees the node before its wrong link is followed
    obtain ⟨rfl, rfl, rfl⟩ : r = .node .red .nil y .nil ∧ r' = .nil ∧ x = z := by
      rcases r with _ | ⟨d, a, w, b⟩
      · cases hy
      · obtain ⟨rfl, rfl⟩ := (held_node.mp ht).right.first_root hy hfar
        cases fuel with
        | zero => cases hdel
        | succ fuel =>
            simp only [ColorTree.setFirst, ColorTree.deleteMin] at hdel
            split at hdel
            next hc =>
              rw [Bool.and_eq_true, decide_eq_true_eq] at hc
              obtain ⟨rfl, rfl⟩ := Prod.mk.inj (Option.some.inj hdel)
              cases b with
              | nil => exact ⟨by rw [hc.1], rfl, rfl⟩
              | node _ _ _ _ => cases hc.2
            next => cases hdel
    have sp := held_node.mp ht
    have hyr : y.1 ∈ ids (.node .red .nil y .nil) := mem_ids_node.mpr (Or.inr (Or.inl rfl))
    have hxy : x.1 ≠ y.1 := fun heq => sp.not_right (heq ▸ hyr)
    have hyl : y.1 ∉ ids l := fun hmem => sp.apart _ hmem hyr
    have hy₀ := sp.right.pos _ hyr
    obtain ⟨g₁, hrun₁, hy₁, hx₁, hl₁, hout₁⟩ := ht.swapNear hlink
    obtain ⟨fuel, rfl⟩ : ∃ n, fuel = n + 1 := by
      cases fuel with
      | zero => cases hdel
      | succ n => exact ⟨n, rfl⟩
    have hleaf := deleteMin_leaf (s := { s with nodes := g₁ }) (x := x) fuel sp.valid (by rw [hx₁]) (by rw [hx₁])
      hfree
    have hheld : Held ((g₁.store x.1 fun _ => ⟨.red, 0, 0, 0, (0, 0)⟩).store y.1 fun n => { n with r := kInvalidNodeId })
        (.node c l y .nil) p := by
      refine held_node.mpr ⟨?_, hy₀, hl₁.congr fun k hk => ?_, held_nil, hyl, by simp, by simp⟩
      · rw [store_self, store_of_ne _ hxy.symm, hy₁, rootId_nil]
      · rw [store_of_ne _ (by rintro rfl; exact hyl hk), store_of_ne _ (by rintro rfl; exact sp.not_left hk)]
    obtain ⟨g₃, hkeep, hheld₃, hframe₃⟩ := hheld.keepBalance (by simp)
    refine ⟨g₃, ?_, hheld₃, hout₁.trans fun k hk₀ hk => ?_⟩
    · rw [deleteHere_swap ht hy hlen ((if_neg (not_not_intro hfar)).trans hrun₁)]
      unfold unhook
      rw [rootId_node] at hkeep
      simp only [node_of_pos hy₀, hy₁, Option.bind_eq_bind, Option.bind_some, hleaf, store, onNodes, shrunk, hkeep,
        Option.map_some]
    · rw [mem_ids_node, mem_ids_node] at hk
      push Not at hk
      rw [hframe₃ k, store_of_ne _ hk.2.2.2.1, store_of_ne _ hk.2.1]
      rw [mem_ids_node]
      push Not
      exact ⟨hk.1, hk.2.2.2.1, hk.2.2.2.2⟩
  -- the successor is further down, and the swap leaves a held tree
  · obtain ⟨g₁, hrun₁, ht₁, hout₁⟩ := ht.swapFar hlink hy hfar
    have sp := held_node.mp ht₁
    obtain ⟨g₂, hrun₂, hheld₂, hframe₂⟩ := deleteMin_eq (s := { s with nodes := g₁ }) sp.right hdel hfree
    have hsub : ∀ k ∈ ids r', k ∈ ids (r.setFirst x) := by
      intro k hk
      unfold ids at hk ⊢
      rw [ColorTree.toList_deleteMin hdel]
      exact List.mem_cons_of_mem _ hk
    obtain ⟨g₃, hkeep, hheld₃, hframe₃⟩ := sp.finishRight hheld₂ hsub (Outside.of_frame hframe₂)
    refine ⟨g₃, ?_, hheld₃, hout₁.trans fun k hk₀ hk => hframe₃ k hk₀ fun hmem => hk ((toList_swap hy).mem_iff.mp hmem)⟩
    rw [deleteHere_swap ht hy hlen ((if_pos hfar).trans hrun₁)]
    unfold unhook
    simp only [ht₁.node_eq, Option.bind_eq_bind, Option.bind_some, hrun₂, store, onNodes]
    show (Option.map _ ((Heap.store g₂ y.1 _).keepBalance y.1)) = _
    rw [hkeep]
    rfl

/-! ## `Delete`, one node at a time

The branches of the source as equations: to the left, to the right, or the node found. Each says what runs below
and what is linked on the way up. -/

/-- The way up: nothing after a `throw`, else the child is linked and `KeepBalance` runs. -/
def relink (side : Side) (nodeId : NodeId) : RBTree K V × Option NodeId → Option (RBTree K V × Option NodeId)
  | (s, none) => some (s, none)
  | (s, some child) =>
      ((s.store nodeId fun n => n.setChild side child).onNodes fun h => h.keepBalance nodeId).map fun r => (r.1, some r.2)

/-- The end of both branches of `Delete`, as its source has it. -/
theorem relink_eq (side : Side) (i : NodeId) (a : RBTree K V × Option NodeId) :
    relink side i a = (match a with
      | (s, none) => some (s, none)
      | (s, some child) => (((s.store i fun n => n.setChild side child).onNodes fun h => h.keepBalance i).bind fun r =>
          some (r.1, some r.2))) := by
  obtain ⟨s', _ | child⟩ := a
  · rfl
  · show Option.map _ _ = Option.bind _ _
    rw [Option.map_eq_bind]
    rfl

section Equations

variable [Zero K] [Zero V] {h₁ h₂ : Heap K V} {i j : NodeId}

/-- The key is less than all keys below, and there is nothing to the left. -/
theorem delete_none (hx : 0 ≤ i) (hk : cmp.less key (s.nodes i).v.1 = true) (hl : (s.nodes i).l = kInvalidNodeId) :
    s.delete cmp key (fuel + 1) i = some (s, none) := by
  rw [delete]
  simp only [node_of_pos hx, Option.bind_eq_bind, Option.bind_some, hk, if_true, hl, Option.pure_def]

/-- The descent to the left, after a red node was lent. -/
theorem delete_left (hx : 0 ≤ i) (hk : cmp.less key (s.nodes i).v.1 = true) (hl : (s.nodes i).l ≠ kInvalidNodeId)
    (hspare : s.nodes.spareLeft i = some (h₁, j)) (hj : 0 ≤ j) :
    s.delete cmp key (fuel + 1) i = ({ s with nodes := h₁ }.delete cmp key fuel (h₁ j).l).bind (relink .left j) := by
  rw [delete]
  simp only [node_of_pos hx, Option.bind_eq_bind, Option.bind_some, hk, if_true, if_neg hl, onNodes, hspare, Option.map_some,
    node_of_pos hj]
  apply congrArg
  funext a
  rw [relink_eq]
  obtain ⟨s', _ | child⟩ := a
  · rfl
  · rfl

/-- Going right, and the node has the key and no right child. -/
theorem delete_stop (hx : 0 ≤ i) (hk : cmp.less key (s.nodes i).v.1 = false)
    (hlean : s.nodes.leanRight i = some (h₁, j)) (hj : 0 ≤ j) (heq : cmp.equiv key (h₁ j).v.1 = true)
    (hr : (h₁ j).r = kInvalidNodeId) :
    s.delete cmp key (fuel + 1) i = ({ s with nodes := h₁ }.freeNode j).map fun s => (s, some kInvalidNodeId) := by
  have hstop : (cmp.equiv key (h₁ j).v.1 && decide ((h₁ j).r = kInvalidNodeId)) = true := by simp [heq, hr]
  rw [delete]
  simp only [node_of_pos hx, Option.bind_eq_bind, Option.bind_some, hk, Bool.false_eq_true, if_false, onNodes, hlean,
    Option.map_some, node_of_pos hj, hstop, if_true]
  rw [Option.map_eq_bind]
  rfl

/-- Going right, past that test. -/
theorem delete_right (hx : 0 ≤ i) (hk : cmp.less key (s.nodes i).v.1 = false)
    (hlean : s.nodes.leanRight i = some (h₁, j)) (hj : 0 ≤ j)
    (hgo : ¬ (cmp.equiv key (h₁ j).v.1 = true ∧ (h₁ j).r = kInvalidNodeId)) (hspare : h₁.spareRight j = some (h₂, k))
    (hk₀ : 0 ≤ k) :
    s.delete cmp key (fuel + 1) i =
      if cmp.equiv key (h₂ k).v.1 then
        (({ s with nodes := h₂ } : RBTree K V).deleteHere fuel k).map fun r => (r.1, some r.2)
      else if (h₂ k).r = kInvalidNodeId then some ({ s with nodes := h₂ }, none)
      else ({ s with nodes := h₂ }.delete cmp key fuel (h₂ k).r).bind (relink .right k) := by
  have hstop : (cmp.equiv key (h₁ j).v.1 && decide ((h₁ j).r = kInvalidNodeId)) = false := by
    rw [Bool.eq_false_iff, ne_eq, Bool.and_eq_true, decide_eq_true_eq]
    exact hgo
  rw [delete]
  simp only [node_of_pos hx, Option.bind_eq_bind, Option.bind_some, hk, Bool.false_eq_true, if_false, onNodes, hlean,
    Option.map_some, node_of_pos hj, hstop, hspare, node_of_pos hk₀]
  split
  · rw [Option.map_eq_bind]
    rfl
  · split
    · rfl
    · apply congrArg
      funext a
      rw [relink_eq]
      obtain ⟨s', _ | child⟩ := a
      · rfl
      · rfl

end Equations

/-- A left subtree hangs below its parent. -/
theorem Split.linkedLeft (sp : Split h c l x r p) : Linked h l x.1 .left := by
  refine Or.inr ⟨sp.valid, sp.not_left, ?_, fun hside => nomatch hside⟩
  rw [sp.here]
  rfl

/-- And so does a right one. -/
theorem Split.linkedRight (sp : Split h c l x r p) (hr : r ≠ .nil) : Linked h r x.1 .right := by
  refine Or.inr ⟨sp.valid, sp.not_right, ?_, ?_⟩
  · rw [sp.here]
    rfl
  · intro _ heq
    have heq : rootId l = rootId r := by
      rw [sp.here] at heq
      exact heq
    have hmem := (rootId_cases r).resolve_left hr
    have hl : l ≠ .nil := by
      rintro rfl
      rw [← heq] at hmem
      exact sp.right.invalid_not_mem hmem
    exact sp.apart _ ((rootId_cases l).resolve_left hl) (heq ▸ hmem)

/-- The link stays as long as the root does. -/
theorem Linked.congr {side : Side} (hlink : Linked h t p side) (hp : p ∉ ids t → g p = h p) (hids : ids t' = ids t)
    (hroot : rootId t' = rootId t) : Linked g t' p side := by
  rcases hlink with rfl | ⟨hp₀, hnot, hchild, hside⟩
  · exact Or.inl rfl
  · refine Or.inr ⟨hp₀, by rw [hids]; exact hnot, ?_, ?_⟩
    · rw [hp hnot, hroot]
      exact hchild
    · rw [hp hnot, hroot]
      exact hside

/-- The way up from a smaller left subtree. -/
theorem Split.relinkLeft {l' : ColorTree (Elem K V)} (sp : Split h c l x r p) (hg : s.nodes = g) (hl : Held g l' x.1)
    (hsub : ∀ k ∈ ids l', k ∈ ids l) (hout : Outside h g l x.1 .left) :
    ∃ g', relink .left x.1 (s, some (rootId l')) =
        some ({ s with nodes := g' }, some (rootId (ColorTree.node c l' x r).keepBalance)) ∧
      Held g' (ColorTree.node c l' x r).keepBalance p ∧ ∀ k, 0 ≤ k → k ∉ ids (.node c l x r) → g' k = h k := by
  obtain ⟨g', hkeep, hheld, hframe⟩ := sp.finishLeft hl hsub hout
  refine ⟨g', ?_, hheld, hframe⟩
  unfold relink onNodes store
  simp only [hg, RBNode.setChild, hkeep, Option.map_some]

/-- The way up from a smaller right subtree. -/
theorem Split.relinkRight {r' : ColorTree (Elem K V)} (sp : Split h c l x r p) (hg : s.nodes = g) (hr : Held g r' x.1)
    (hsub : ∀ k ∈ ids r', k ∈ ids r) (hout : Outside h g r x.1 .right) :
    ∃ g', relink .right x.1 (s, some (rootId r')) =
        some ({ s with nodes := g' }, some (rootId (ColorTree.node c l x r').keepBalance)) ∧
      Held g' (ColorTree.node c l x r').keepBalance p ∧ ∀ k, 0 ≤ k → k ∉ ids (.node c l x r) → g' k = h k := by
  obtain ⟨g', hkeep, hheld, hframe⟩ := sp.finishRight hr hsub hout
  refine ⟨g', ?_, hheld, hframe⟩
  unfold relink onNodes store
  simp only [hg, RBNode.setChild, hkeep, Option.map_some]

/-- A deletion removes ids only. -/
theorem ids_delete_sub (hdel : t.delete cmp keyOf key fuel = some (some (t', x))) : ∀ k ∈ ids t', k ∈ ids t := by
  obtain ⟨as, bs, h₁, h₂⟩ := ColorTree.toList_delete hdel
  intro k hk
  unfold ids at hk ⊢
  rw [h₂] at hk
  rw [h₁]
  simp only [List.map_append, List.map_cons, List.mem_append, List.mem_cons] at hk ⊢
  tauto

section Steps

variable [Zero K] [Zero V] {c₀ c₁ : Color} {l₀ r₀ l₁ r₁ : ColorTree (Elem K V)} {x₀ x₁ : Elem K V}

/-- A step to the left. -/
theorem Held.delete_left (fuel : Nat) (ht : Held s.nodes (.node c l y r) p) (hk : cmp.less key (keyOf y) = true)
    (hnil : l.isNil = false) (hspare : (ColorTree.node c l y r).spareLeft = some (.node c₀ l₀ x₀ r₀)) :
    ∃ h₁, s.delete cmp key (fuel + 1) y.1 = ({ s with nodes := h₁ }.delete cmp key fuel (rootId l₀)).bind (relink .left x₀.1) ∧
      Held h₁ (.node c₀ l₀ x₀ r₀) p ∧ ∀ k, k ∉ ids (.node c l y r) → h₁ k = s.nodes k := by
  have sy := held_node.mp ht
  obtain ⟨h₁, hrun, ht₁, hframe⟩ := ht.spareLeft hnil hspare
  have s₁ := held_node.mp ht₁
  have hval : (s.nodes y.1).v.1 = keyOf y := by rw [sy.here]; rfl
  have hl : (s.nodes y.1).l ≠ kInvalidNodeId := by
    rw [sy.here]
    exact fun heq => absurd (sy.left.rootId_eq.mp heq) (by simp [hnil])
  refine ⟨h₁, ?_, ht₁, hframe⟩
  rw [RBTree.delete_left sy.valid (by rw [hval]; exact hk) hl hrun s₁.valid, rootId_node, s₁.here]

/-- A step to the right. -/
theorem Held.delete_right (fuel : Nat) (ht : Held s.nodes (.node c l y r) p) (hk : cmp.less key (keyOf y) = false)
    (hlean : (ColorTree.node c l y r).leanRight = .node c₁ l₁ x₁ r₁)
    (hgo : ¬ (cmp.equiv key (keyOf x₁) = true ∧ r₁.isNil = true))
    (hspare : (ColorTree.node c₁ l₁ x₁ r₁).spareRight = some (.node c₀ l₀ x₀ r₀)) :
    ∃ h₂ : Heap K V, s.delete cmp key (fuel + 1) y.1 =
        (if cmp.equiv key (keyOf x₀) then
          (({ s with nodes := h₂ } : RBTree K V).deleteHere fuel x₀.1).map fun r => (r.1, some r.2)
        else if r₀.isNil then some ({ s with nodes := h₂ }, none)
        else ({ s with nodes := h₂ }.delete cmp key fuel (rootId r₀)).bind (relink .right x₀.1)) ∧
      Held h₂ (.node c₀ l₀ x₀ r₀) p ∧ ∀ k, k ∉ ids (.node c l y r) → h₂ k = s.nodes k := by
  have sy := held_node.mp ht
  have hval : (s.nodes y.1).v.1 = keyOf y := by rw [sy.here]; rfl
  obtain ⟨h₁, hrun₁, ht₁, hframe₁⟩ := ht.leanRight (by simp)
  rw [hlean] at hrun₁ ht₁
  have s₁ := held_node.mp ht₁
  obtain ⟨h₂, hrun₂, ht₂, hframe₂⟩ := ht₁.spareRight hspare
  have s₂ := held_node.mp ht₂
  have hlist₁ : (ColorTree.node c₁ l₁ x₁ r₁).toList = (ColorTree.node c l y r).toList := by
    rw [← hlean, ColorTree.toList_leanRight]
  have hgo' : ¬ (cmp.equiv key (h₁ x₁.1).v.1 = true ∧ (h₁ x₁.1).r = kInvalidNodeId) := by
    rw [s₁.here]
    rintro ⟨heq, hr⟩
    exact hgo ⟨heq, s₁.right.rootId_eq.mp hr⟩
  have hstop : (rootId r₀ = kInvalidNodeId) = (r₀.isNil = true) := propext s₂.right.rootId_eq
  refine ⟨h₂, ?_, ht₂, fun k hk => ?_⟩
  · rw [RBTree.delete_right sy.valid (by rw [hval]; exact hk) hrun₁ s₁.valid hgo' hrun₂ s₂.valid]
    simp only [rootId_node, s₂.here, hstop]
    rfl
  · rw [hframe₂ k (by rw [ids_congr hlist₁]; exact hk), hframe₁ k hk]

end Steps

/-- **`Delete` of a present key follows `delete`**, and gives the slice of the node back. -/
theorem delete_found [Zero K] [Zero V] {side : Side} {ml' : MemoryList} (ht : Held s.nodes t p)
    (hlink : Linked s.nodes t p side) (ho : ColorTree.Ordered cmp keyOf t.toList) (hlen : t.toList.length ≤ s.limit)
    (hdel : t.delete cmp keyOf key fuel = some (some (t', x))) (hfree : s.ml.freeSlice x.1 = some ml') :
    ∃ g, s.delete cmp key fuel (rootId t) = some (s.shrunk ml' g, some (rootId t')) ∧ Held g t' p ∧
      Outside s.nodes g t p side := by
  -- by induction on the descent; the tree's own `delete` has the same branches
  induction fuel generalizing s t t' p side with
  | zero => cases t <;> cases hdel
  | succ fuel ih =>
      cases t with
      | nil => cases hdel
      | node c l y r =>
          have sy := held_node.mp ht
          have hval : (s.nodes y.1).v.1 = keyOf y := by rw [sy.here]; rfl
          rw [rootId_node]
          rcases ColorTree.delete_cases hdel with ⟨-, -, hres⟩ | ⟨hk, hnil, c₀, l₀, x₀, r₀, d, hspare, hd, hres⟩ |
            ⟨hk, c₁, l₁, x₁, r₁, hlean, ⟨heq, hr₁, hl₁, hres⟩ | ⟨hgo, c₀, l₀, x₀, r₀, hspare, hcase⟩⟩
          · cases hres
          · -- to the left
            cases d with
            | none => cases hres
            | some d =>
                obtain ⟨rfl, rfl⟩ := Prod.mk.inj (Option.some.inj hres)
                obtain ⟨h₁, hrun, ht₁, hframe₁⟩ := ht.delete_left fuel hk hnil hspare
                have s₁ := held_node.mp ht₁
                have hlist := ColorTree.toList_spareLeft hspare
                rw [← hlist] at ho hlen
                have hlen₀ : l₀.toList.length ≤ s.limit := by
                  rw [ColorTree.toList_node, List.length_append] at hlen
                  omega
                obtain ⟨g, hrec, hheld, hout⟩ := ih (s := { s with nodes := h₁ }) s₁.left s₁.linkedLeft
                  (ColorTree.Ordered.node_iff.mp ho).1 hlen₀ hd hfree
                obtain ⟨g', hrel, hheld', hframe'⟩ := s₁.relinkLeft (s := s.shrunk ml' g) rfl hheld (ids_delete_sub hd) hout
                refine ⟨g', ?_, hheld', Outside.of_frame fun k hk₀ hk => ?_⟩
                · rw [hrun, hrec]
                  exact hrel
                · rw [hframe' k hk₀ (by rw [ids_congr hlist]; exact hk), hframe₁ k hk]
          · -- a leaf
            obtain ⟨rfl, rfl⟩ := Prod.mk.inj (Option.some.inj hres)
            obtain ⟨h₁, hrun₁, ht₁, hframe₁⟩ := ht.leanRight (by simp)
            rw [hlean] at hrun₁ ht₁
            have s₁ := held_node.mp ht₁
            have hids : ids (.node c₁ l₁ x r₁) = ids (.node c l y r) := ids_congr (by rw [← hlean, ColorTree.toList_leanRight])
            rw [delete_stop sy.valid (by rw [hval]; exact hk) hrun₁ s₁.valid (by rw [rootId_node, s₁.here]; exact heq)
              (by rw [rootId_node, s₁.here]; exact s₁.right.rootId_eq.mpr hr₁)]
            refine ⟨h₁.store x.1 fun _ => ⟨.red, 0, 0, 0, (0, 0)⟩, ?_, held_nil, Outside.of_frame fun k _ hk => ?_⟩
            · unfold freeNode
              simp only [store, rootId_node, hfree, Option.bind_eq_bind, Option.bind_some]
              rfl
            · have hkx : k ≠ x.1 := by
                rintro rfl
                rw [← hids] at hk
                exact hk (mem_ids_node.mpr (Or.inr (Or.inl rfl)))
              rw [store_of_ne _ hkx, hframe₁ k hk]
          · have hlist₁ : (ColorTree.node c₁ l₁ x₁ r₁).toList = (ColorTree.node c l y r).toList := by
              rw [← hlean, ColorTree.toList_leanRight]
            have hlist := (ColorTree.toList_spareRight hspare).trans hlist₁
            obtain ⟨h₂, hrun, ht₂, hframe₂⟩ := ht.delete_right fuel hk hlean hgo hspare
            have s₂ := held_node.mp ht₂
            have ho₀ := ho
            rw [← hlist] at ho₀ hlen
            have hlen₀ : r₀.toList.length ≤ s.limit := by
              rw [ColorTree.toList_node, List.length_append, List.length_cons] at hlen
              omega
            rw [hrun]
            rcases hcase with ⟨heq, z, d, hz, hd, hres⟩ | ⟨-, -, hres⟩ | ⟨hne, hnil, d, hd, hres⟩
            · -- here
              obtain ⟨rfl, rfl⟩ := Prod.mk.inj (Option.some.inj hres)
              have ho₁ := ho
              rw [← hlist₁] at ho₁
              have hk₁ := ho₁.not_less_root (ColorTree.leanRight_root hlean) hk
              have hroot₁ := ho₀.eq_root (ColorTree.spareRight_root hspare) hk₁ heq
              have hroot := ho₁.eq_root (ColorTree.leanRight_root hlean) hk (hroot₁ ▸ heq)
              have hlink₀ : Linked h₂ (.node c₀ l₀ x₀ r₀) p side :=
                hlink.congr (hframe₂ p) (ids_congr hlist) (by rw [rootId_node, rootId_node, hroot₁, hroot])
              obtain ⟨g, hrun', hheld, hout⟩ := deleteHere_eq (s := { s with nodes := h₂ }) ht₂ hlink₀ hz hd hfree hlen₀
              refine ⟨g, ?_, hheld, ?_⟩
              · rw [if_pos heq, hrun']
                rfl
              · constructor
                · intro k hk₀ hk hkp
                  rw [hout.1 k hk₀ (by rw [ids_congr hlist]; exact hk) hkp]
                  exact hframe₂ k hk
                · intro hp₀ hp
                  rw [← hframe₂ p hp]
                  exact hout.2 hp₀ (by rw [ids_congr hlist]; exact hp)
            · cases hres
            · -- to the right
              cases d with
              | none => cases hres
              | some d =>
                  obtain ⟨rfl, rfl⟩ := Prod.mk.inj (Option.some.inj hres)
                  have hr₀ : r₀ ≠ .nil := by rintro rfl; cases hnil
                  obtain ⟨g, hrec, hheld, hout⟩ := ih (s := { s with nodes := h₂ }) s₂.right (s₂.linkedRight hr₀)
                    (ColorTree.Ordered.node_iff.mp ho₀).2.1 hlen₀ hd hfree
                  obtain ⟨g', hrel, hheld', hframe'⟩ := s₂.relinkRight (s := s.shrunk ml' g) rfl hheld (ids_delete_sub hd) hout
                  refine ⟨g', ?_, hheld', Outside.of_frame fun k hk₀ hk => ?_⟩
                  · rw [if_neg (by simp [hne]), if_neg (by simp [hnil]), hrec]
                    exact hrel
                  · rw [hframe' k hk₀ (by rw [ids_congr hlist]; exact hk), hframe₂ k hk]

end RBTree
end Snippets
