import Snippets.PointerTree.Swap
import Snippets.PointerTree.Repeated

/-!
# `PointerTree.Internal` — `erase` of a node with two children

The node and its successor change places but keep their colours, and `root_` is not moved when the successor is the
root's own child. When the two have the same colour, and the node is not the parent of its successor at the root, what is
then removed is a node with at most one child of a red-black tree, and `erase` does what it should. In every other case it
does not (`eraseSpec_iff`):

* at the root, with its right child as the successor, `root_` points to the deleted node;
* a black node and a red successor: the node is a black leaf beside a red leaf or beside nothing, and `erase_fixup`
  fails an assert or follows a null pointer;
* a red node and a black successor: the place of the successor loses a black node and nothing is repaired.
-/

namespace Snippets

open Lib

namespace PointerTree

open ColorTree (nodeAt plug Frame RedBlack Around)

variable {K V : Type} {cmp : Comparator K} {s s' : PointerTree K V} {h : Heap K V} {fs hs gs : List (Frame (Elem K V))}
  {f : Frame (Elem K V)} {x y : Elem K V} {t u l r w : ColorTree (Elem K V)} {c c' : Color} {p q : Ptr} {k : K}
  {i fuel : Nat}

/-! ## The specification

What the erasure of a node should leave: a red-black tree without its key, and the other nodes where they were. -/

/-- The pair that `find` leads to. -/
def lookup (cmp : Comparator K) (s : PointerTree K V) (k : K) : Option (K × V) := (s.find cmp k).bind s.entry

/-- What `erase(key)` has to leave behind. -/
structure Erased (cmp : Comparator K) (s : PointerTree K V) (k : K) (s' : PointerTree K V) (t : ColorTree (Elem K V)) :
    Prop where
  live : ∃ n, s'.deref s'.root = some n
  gone : s'.find cmp k = some none
  others : ∀ j pair, cmp.equiv k j = false → s.lookup cmp j = some pair → s'.lookup cmp j = some pair
  represents : Rep s'.heap t none
  root : s'.root = rootPtr t
  rootBlack : t.isRed = false
  redChildren : ∀ u ∈ t.subtrees, u.isRed = true → u.left.isRed = false ∧ u.right.isRed = false
  blackHeight : ∀ a ∈ t.blackCounts, ∀ b ∈ t.blackCounts, a = b

/-- `erase` of the key does what it should. -/
def EraseSpec (cmp : Comparator K) (s : PointerTree K V) (k : K) : Prop :=
  ∃ s' t, s.erase cmp k = some (s', 1) ∧ Erased cmp s k s' t

/-- The node has the colour of its successor, and it is not the root with its right child as the successor. -/
def Swappable (s : PointerTree K V) (i : Nat) : Prop :=
  ∃ n j m, s.heap.cells i = some n ∧ s.successor (some i) = some (some j) ∧ s.heap.cells j = some m ∧ n.c = m.c ∧
    ¬(s.root = some i ∧ n.r = some j)

/-! ## What the swap leaves behind

The two nodes in each other's place, with the colours they had. -/

/-- The heap determines the tree. -/
theorem Rep.unique {p' : Ptr} (ht : Rep h t p) (hu : Rep h u p') (hroot : rootPtr t = rootPtr u) : t = u := by
  induction t generalizing u p p' with
  | nil =>
      cases u with
      | nil => rfl
      | node => cases hroot
  | node c l x r ihl ihr =>
      cases u with
      | nil => cases hroot
      | node c' l' x' r' =>
          obtain ⟨hx, hl, hr⟩ := ht
          obtain ⟨hx', hl', hr'⟩ := hu
          have haddr : x.1 = x'.1 := Option.some.inj hroot
          rw [← haddr, hx] at hx'
          obtain ⟨hv, -, hlp, hrp, hc⟩ := RBNode.mk.inj (Option.some.inj hx')
          rw [ihl hl hl' hlp, ihr hr hr' hrp, hc, Prod.ext haddr hv]

/-- A tree with its innermost frames and the rest apart. -/
theorem plug_between : plug fs (.node c l x (plug hs t)) = plug (hs ++ ⟨.right, c, x, l⟩ :: fs) t := by
  rw [ColorTree.plug_append]
  rfl

/-- `erase_impl` of a node with two children. -/
theorem Held.eraseImpl_two (hheld : Held s (plug fs (.node c l x r))) (hl : l ≠ .nil) (hr : r ≠ .nil) :
    s.eraseImpl (some x.1) = (s.swapSuccessor (some x.1)).bind fun s => s.remove (some x.1) := by
  have hcell := (show Held s (plug fs (nodeAt .left c l x r)) from hheld).cell
  obtain ⟨cl, ll, xl, rl, rfl⟩ := ColorTree.exists_nodeAt .left hl
  obtain ⟨cr, lr, xr, rr, rfl⟩ := ColorTree.exists_nodeAt .left hr
  unfold PointerTree.eraseImpl
  simp only [deref_eq hcell, Option.bind_eq_bind, Option.bind_some, c_cellAt, numOfChildren_cellAt]
  rw [if_neg (fun h => nomatch h.1), if_neg (fun h => nomatch h.2), if_neg (fun h => nomatch h.2),
    if_neg (fun h => nomatch h.2)]
  rfl

/-- What a successful `erase` has done. -/
theorem Owned.erase_some {n : Nat} (howned : Owned cmp s t) (hx : x ∈ t.toList) (heq : cmp.equiv k (keyOf x) = true)
    (herase : s.erase cmp k = some (s', n)) :
    ∃ s₁, s.eraseImpl (some x.1) = some s₁ ∧ s'.heap = s₁.heap ∧ s'.root = s₁.root := by
  rw [howned.erase_eq hx heq] at herase
  obtain ⟨s₁, himpl, hsize⟩ := Option.bind_eq_some_iff.mp herase
  refine ⟨s₁, himpl, ?_⟩
  split at hsize
  · obtain ⟨rfl, -⟩ := Prod.mk.inj (Option.some.inj hsize)
    exact ⟨rfl, rfl⟩
  · cases hsize

/-! ## The root with its right child as the successor

`root_` still names the node that was taken out. -/

/-- A store into a node leaves `root_`, -/
theorem write_root {g : RBNode K V → RBNode K V} (hwrite : s.write q g = some s') : s'.root = s.root := by
  cases q with
  | none => cases hwrite
  | some a =>
      simp only [write] at hwrite
      split at hwrite
      · cases hwrite
        rfl
      · cases hwrite

/-- and so does a link from a parent. -/
theorem redirect_root {node : Ptr} (hwrite : s.redirect p node q = some s') : s'.root = s.root := by
  obtain ⟨n, -, hwrite⟩ := Option.bind_eq_some_iff.mp hwrite
  split at hwrite
  · exact write_root hwrite
  · exact write_root hwrite

/-- A node that `root_` points to, but that has a parent, stays behind `root_`. -/
theorem detach_root {n : RBNode K V} (hroot : s.root = some i) (hcell : s.heap.cells i = some n) (hp : n.p.isSome = true)
    (hdetach : s.detach (some i) = some s') : s'.root = some i := by
  rw [← hroot]
  unfold detach at hdetach
  rw [deref_eq hcell] at hdetach
  simp only [Option.bind_eq_bind, Option.bind_some] at hdetach
  split at hdetach
  · -- `unlink_leaf` does nothing
    unfold unlinkLeaf at hdetach
    simp only [deref_eq hcell, Option.bind_eq_bind, Option.bind_some, if_pos hroot] at hdetach
    cases hdetach
    rfl
  · split at hdetach
    · -- the child is hung below the parent
      unfold spliceChild at hdetach
      simp only [deref_eq hcell, Option.bind_eq_bind, Option.bind_some, replaceChild, if_pos hp] at hdetach
      obtain ⟨_, -, hdetach⟩ := Option.bind_eq_some_iff.mp hdetach
      obtain ⟨_, -, hdetach⟩ := Option.bind_eq_some_iff.mp hdetach
      obtain ⟨_, -, hdetach⟩ := Option.bind_eq_some_iff.mp hdetach
      obtain ⟨_, -, hdetach⟩ := Option.bind_eq_some_iff.mp hdetach
      obtain ⟨s₁, hw₁, hdetach⟩ := Option.bind_eq_some_iff.mp hdetach
      obtain ⟨s₂, hw₂, hw₃⟩ := Option.bind_eq_some_iff.mp hdetach
      rw [write_root hw₃, redirect_root hw₂, write_root hw₁]
    · -- `erase_fixup` stops at once
      unfold dropLeaf at hdetach
      obtain ⟨s₁, hloop, hdetach⟩ := Option.bind_eq_some_iff.mp hdetach
      obtain ⟨_, -, hdetach⟩ := Option.bind_eq_some_iff.mp hdetach
      obtain ⟨_, -, hdetach⟩ := Option.bind_eq_some_iff.mp hdetach
      have hloop : s.blackenRoot = some s₁ := by
        unfold limit at hloop
        simp only [PointerTree.eraseFixup, deref_eq hcell, Option.bind_eq_bind, Option.bind_some, if_pos hroot.symm] at hloop
        exact hloop
      rw [redirect_root hdetach, write_root hloop]

/-- **`root_` is left pointing to the deleted node.** -/
theorem Held.eraseImpl_root (hheld : Held s (.node c l x (.node c' .nil y w))) (hl : l ≠ .nil) {s₁ : PointerTree K V}
    (himpl : s.eraseImpl (some x.1) = some s₁) : s₁.root = some x.1 ∧ s₁.heap.cells x.1 = none := by
  have hplug : Held s (plug [] (.node c l x (plug [] (.node c' .nil y w)))) := hheld
  rw [hplug.eraseImpl_two hl (fun h => nomatch h), hplug.swapSuccessor_eq (fun f hf => nomatch hf), if_pos rfl] at himpl
  obtain ⟨s₂, hswap, hremove⟩ := Option.bind_eq_some_iff.mp himpl
  obtain ⟨s₂', hswap', -, hrep, hroot, -⟩ := hplug.swapNear_rep hl
  obtain rfl : s₂ = s₂' := Option.some.inj (hswap.symm.trans hswap')
  obtain ⟨s₃, hdetach, hfree⟩ := Option.bind_eq_some_iff.mp hremove
  have hroot₃ := detach_root (hroot.trans hheld.root) hrep.2.2.1 rfl hdetach
  cases hfree
  exact ⟨hroot₃, Function.update_self ..⟩

/-! ## A black node and a red successor

The black node stands in the place of a red one now. It is taken out as a black leaf, and `erase_fixup` asks for a
sibling that a red leaf need not have. -/

/-- `erase_fixup` at a black node beside a red leaf, or beside nothing. -/
theorem Held.eraseFixup_none (hheld : Held s (plug (f :: fs) t)) (hx : rootPtr t = some x.1) (ht : t.isRed = false)
    (hsib : f.sib = .nil ∨ ∃ y, f.sib = .node .red .nil y .nil) : s.eraseFixup (fuel + 1) (some x.1) = none := by
  obtain ⟨d, c, z, sib⟩ := f
  -- without a sibling, or with one that has no children, an assert fails
  rcases hsib with rfl | ⟨y, rfl⟩
  · obtain ⟨n, hxcell, hxp⟩ := hheld.cell_of_rootPtr hx
    have hz : Held s (plug fs (nodeAt d c t z .nil)) := hheld
    have hzcell := hz.cell
    rw [hx] at hzcell
    have hxblack := hheld.isBlack
    rw [hx, ht] at hxblack
    have hsib := sibling_eq (t := (.nil : ColorTree (Elem K V))) d z (parentPtr fs) c (a := x.1) (fun h => nomatch h)
    have hxp : n.p = some z.1 := hxp
    simp only [PointerTree.eraseFixup, deref_eq hxcell, Option.bind_eq_bind, Option.bind_some,
      if_neg (hheld.ne_root (rootPtr_mem hx)), hxblack, Bool.not_false, if_true, hxp, deref_eq hzcell, hsib]
    rfl
  · have hleaf : (ColorTree.node .red .nil y .nil) = nodeAt d .red .nil y .nil := by cases d <;> rfl
    have hz : Held s (plug fs (nodeAt d c t z (nodeAt d .red .nil y .nil))) := by
      rw [← hleaf]
      exact hheld
    have hy : Held s (plug (⟨d.other, c, z, t⟩ :: fs) (nodeAt d .red .nil y .nil)) := by
      rw [← plug_far]
      exact hz
    have hnone : s.turnSibling (some z.1) (some y.1) = none := by
      have hchild : (cellAt d y (parentPtr (⟨d.other, c, z, t⟩ :: fs)) (rootPtr (.nil : ColorTree (Elem K V)))
          (rootPtr (.nil : ColorTree (Elem K V))) Color.red).l.isSome = false := by
        cases d <;> rfl
      unfold PointerTree.turnSibling
      simp only [deref_eq hy.cell, Option.bind_eq_bind, Option.bind_some, hchild, Bool.false_eq_true, guard, if_false]
      cases s.isBlack (some z.1) with
      | none => rfl
      | some b => cases b <;> rfl
    rw [hz.eraseFixup_round hx ht, if_pos rfl, hnone]
    rfl

/-- A black leaf in the place of a red one cannot be removed. -/
theorem Held.remove_none (hheld : Held s (plug (f :: fs) (.node .black .nil x .nil)))
    (hsib : f.sib = .nil ∨ ∃ y, f.sib = .node .red .nil y .nil) : s.remove (some x.1) = none := by
  have hdrop : s.dropLeaf (some x.1) = none := by
    unfold PointerTree.dropLeaf limit
    rw [hheld.eraseFixup_none rfl rfl hsib]
    rfl
  unfold PointerTree.remove PointerTree.detach
  rw [deref_eq hheld.focus.2.1]
  show (s.dropLeaf (some x.1)).bind _ = none
  rw [hdrop]
  rfl

/-! ## A red node and a black successor

The red node is taken out like a red leaf, and a black one is gone. -/

/-- A subtree is cut off. -/
theorem Held.prune (hheld : Held s (plug fs t)) : Held (s.repoint fs none) (plug fs .nil) := by
  obtain ⟨-, hnd, -⟩ := hheld.nodup_focus
  refine ⟨rep_plug.mpr ⟨repoint_frames hheld.focus.1 hnd, trivial⟩, repoint_root hheld.root rfl, ?_⟩
  rw [ids_plug.nodup_iff]
  exact hnd

/-- The colour of the root is that of a frame. -/
theorem isRed_plug_cons : (plug (f :: fs) t).isRed = (plug (f :: fs) u).isRed := by
  induction fs generalizing f t u with
  | nil =>
      obtain ⟨d, c, z, sib⟩ := f
      show (nodeAt d c t z sib).isRed = (nodeAt d c u z sib).isRed
      cases c <;> simp
  | cons g fs ih => exact ih

/-- A red node without a left child is cut off, whatever hangs on its right. -/
theorem Held.remove_red (hheld : Held s (plug (f :: fs) (.node .red .nil x w))) (hblack : (plug (f :: fs) t).isRed = false)
    {s₁ : PointerTree K V} (hremove : s.remove (some x.1) = some s₁) : Held s₁ (plug (f :: fs) .nil) := by
  have hfocus : Held s (plug (f :: fs) (nodeAt .left .red .nil x w)) := hheld
  have hcut : x.1 ∉ ids (plug (f :: fs) (.nil : ColorTree (Elem K V))) := by
    rw [ids_plug.mem_iff]
    exact hfocus.apart.2.2
  suffices ∃ s₂, s.detach (some x.1) = some s₂ ∧ Held s₂ (plug (f :: fs) .nil) by
    obtain ⟨s₂, hdetach, hs₂⟩ := this
    obtain ⟨s₃, hfree, hs₃, -⟩ := hs₂.destroyNode hcut
    have heq : s.remove (some x.1) = some s₃ := by
      unfold PointerTree.remove
      rw [hdetach]
      exact hfree
    obtain rfl : s₁ = s₃ := Option.some.inj (hremove.symm.trans heq)
    exact hs₃
  by_cases hw : w = .nil
  · -- a leaf is unlinked
    subst hw
    refine ⟨_, ?_, hheld.prune⟩
    unfold PointerTree.detach
    rw [deref_eq hheld.focus.2.1]
    exact hfocus.unlinkLeaf
  · -- otherwise `erase_fixup` has nothing to do, and the child is lost
    obtain ⟨s₁, hroot, hs₁, hsame⟩ := hheld.blackenRoot plug_ne_nil
    rw [paint_of_black (isRed_plug_cons.trans hblack)] at hs₁
    have hs₁ : Held s₁ (plug (f :: fs) (nodeAt .left .red .nil x w)) := hs₁
    have hcell := hheld.focus.2.1
    have hne := hheld.ne_root (rootPtr_mem rfl)
    have hred : s.isBlack (some x.1) = some false := hheld.isBlack
    have hfs := hs₁.focus.1
    rw [rootPtr_nodeAt] at hfs
    refine ⟨_, ?_, hs₁.prune⟩
    have hchildren : (cellAt .left x (parentPtr (f :: fs)) (rootPtr (.nil : ColorTree (Elem K V))) (rootPtr w) .red).numOfChildren ≠ 0 := by
      rw [numOfChildren_cellAt]
      cases w with
      | nil => exact absurd rfl hw
      | node => exact fun h => nomatch h
    unfold PointerTree.detach PointerTree.dropLeaf limit
    rw [deref_eq hfocus.cell]
    simp only [Option.bind_eq_bind, Option.bind_some, c_cellAt, hchildren, and_false, if_false, reduceCtorEq, false_and,
      PointerTree.eraseFixup, deref_eq hcell, if_neg hne, hred, Bool.false_eq_true, hroot, deref_eq hs₁.cell, p_cellAt]
    exact redirect_eq hfs (not_mem_sib hfocus.apart.2.2)

/-! ## Exactly when

Of the same colour, and not a root with its right child: then the swap and the removal leave what they should. -/

/-- Other elements at two places of the tree. -/
theorem RedBlack.exchange {m : Nat} (hrb : RedBlack (plug fs (.node c l x (plug hs (.node c .nil y w)))) m) :
    RedBlack (plug fs (.node c l y (plug hs (.node c .nil x w)))) m ∧
      (plug fs (.node c l y (plug hs (.node c .nil x w)))).isRed = (plug fs (.node c l x (plug hs (.node c .nil y w)))).isRed := by
  have hrelabel : ∀ (l : ColorTree (Elem K V)) (a b : Elem K V) (r : ColorTree (Elem K V)) (n : Nat),
      RedBlack (.node c l a r) n → RedBlack (.node c l b r) n := by
    intro l a b r n hn
    cases hn with
    | red h₁ h₂ h₃ h₄ => exact .red h₁ h₂ h₃ h₄
    | black h₁ h₂ => exact .black h₁ h₂
  obtain ⟨h₁, hc₁⟩ := RedBlack.plug_congr hs (hrelabel .nil y x w) (by cases c <;> rfl)
  have hsub : ∀ n, RedBlack (.node c l x (plug hs (.node c .nil y w))) n → RedBlack (.node c l y (plug hs (.node c .nil x w))) n := by
    intro n hn
    apply hrelabel l x y
    cases hn with
    | red h₂ h₃ h₄ h₅ => exact .red h₂ (h₁ _ h₃) h₄ (hc₁.trans h₅)
    | black h₂ h₃ => exact .black h₂ (h₁ _ h₃)
  obtain ⟨h₂, hc₂⟩ := RedBlack.plug_congr fs hsub (by cases c <;> rfl)
  exact ⟨h₂ m hrb, hc₂⟩

/-- The specification, from a red-black search tree without the element. -/
theorem Owned.erasedSpec {as bs : List (Elem K V)} (howned : Owned cmp s t) (howned' : Owned cmp s' u)
    (hlist : t.toList = as ++ x :: bs) (hlist' : u.toList = as ++ bs) (heq : cmp.equiv k (keyOf x) = true)
    (hne : u ≠ .nil) : Erased cmp s k s' u := by
  have htree := howned'.redBlackTree
  have hkeep : ∀ z ∈ t.toList, cmp.equiv k (keyOf z) = false → z ∈ u.toList := by
    intro z hz hkz
    rw [hlist] at hz
    rw [hlist']
    rcases List.mem_append.mp hz with hz | hz
    · exact List.mem_append_left _ hz
    · rcases List.mem_cons.mp hz with rfl | hz
      · rw [heq] at hkz
        cases hkz
      · exact List.mem_append_right _ hz
  -- what concerns the keys is proved here, the shape is the new tree's
  refine ⟨?_, ?_, ?_, htree.represents, htree.root, htree.rootBlack, htree.redChildren, htree.blackHeight⟩
  · cases u with
    | nil => exact absurd rfl hne
    | node c l y r =>
        rw [htree.root]
        exact ⟨_, htree.represents.1⟩
  · -- the elements of the old tree have different keys
    apply howned'.find_absent
    intro z hz
    rw [Bool.eq_false_iff]
    intro hkz
    have hzx : cmp.equiv (keyOf z) (keyOf x) = true := Comparator.equiv_trans (Comparator.equiv_symm hkz) heq
    have ho := howned.ordered
    rw [hlist] at ho
    rw [hlist'] at hz
    obtain ⟨-, hbs, has⟩ := List.pairwise_append.mp ho
    rcases List.mem_append.mp hz with hz | hz
    · rw [Comparator.not_equiv_of_less (has z hz x List.mem_cons_self)] at hzx
      cases hzx
    · rw [Comparator.not_equiv_of_less' ((List.pairwise_cons.mp hbs).1 z hz)] at hzx
      cases hzx
  · intro j pair hkj hlookup
    obtain ⟨q, hfind, hentry⟩ := Option.bind_eq_some_iff.mp hlookup
    rcases ColorTree.seek_cases howned.ordered j with ⟨fs, c, l, z, r, hseek, ht, hjz⟩ | ⟨fs, hseek, -⟩
    · have hz : z ∈ t.toList := by
        rw [ht, ColorTree.toList_plug]
        simp
      have hkz : cmp.equiv k (keyOf z) = false := by
        rw [Bool.eq_false_iff]
        intro hkz
        rw [Comparator.equiv_trans hkz (Comparator.equiv_symm hjz)] at hkj
        cases hkj
      rw [howned.find_present hz hjz] at hfind
      cases hfind
      rw [howned.entry_eq hz] at hentry
      unfold lookup
      rw [howned'.find_present (hkeep z hz hkz) hjz, Option.bind_some, howned'.entry_eq (hkeep z hz hkz), hentry]
    · rw [howned.find_eq, hseek] at hfind
      cases hfind
      cases hentry

/-- **When the node has its successor's colour**, and `root_` need not move, `erase` is right. -/
theorem Owned.eraseSpec_same (howned : Owned cmp s (plug fs (.node c l x (plug hs (.node c .nil y w)))))
    (hl : l ≠ .nil) (hleft : ∀ f ∈ hs, f.side = .left) (hplace : ¬(fs = [] ∧ hs = []))
    (heq : cmp.equiv k (keyOf x) = true) : EraseSpec cmp s k := by
  obtain ⟨m, hm⟩ := howned.redBlack
  have hnil : plug hs (.node c .nil y w) ≠ .nil := by
    cases hs with
    | nil => exact fun h => nomatch h
    | cons f hs => exact plug_ne_nil
  obtain ⟨s₁, hswap, hs₁, hsame⟩ := howned.held.swapSuccessor hl hleft hplace
  obtain ⟨hm₁, hc₁⟩ := RedBlack.exchange hm
  have hblack := hc₁.trans howned.black
  rw [plug_between] at hs₁ hm₁ hblack
  have hfs : hs ++ ⟨.right, c, y, l⟩ :: fs ≠ [] := by simp
  obtain ⟨s₂, t', hremove, hrep, hsize⟩ := Held.remove (d := .right) hs₁ hm₁ hblack (Or.inl hfs)
  have himpl : s.eraseImpl (some x.1) = some s₂ := by
    rw [howned.held.eraseImpl_two hl hnil, hswap]
    exact hremove
  have hlist : (plug fs (.node c l x (plug hs (.node c .nil y w)))).toList =
      (ColorTree.before fs ++ l.toList) ++ x :: (y :: (w.toList ++ ColorTree.after hs ++ ColorTree.after fs)) := by
    rw [ColorTree.toList_plug, ColorTree.toList_node, ColorTree.toList_plug, before_of_left hleft]
    simp
  have helems : ColorTree.before (hs ++ ⟨.right, c, y, l⟩ :: fs) ++ w.toList ++ ColorTree.after (hs ++ ⟨.right, c, y, l⟩ :: fs) =
      (ColorTree.before fs ++ l.toList) ++ (y :: (w.toList ++ ColorTree.after hs ++ ColorTree.after fs)) := by
    rw [ColorTree.before_append, ColorTree.after_append, before_of_left hleft]
    simp [ColorTree.before, ColorTree.after, Frame.before, Frame.after]
  rw [helems] at hrep
  obtain ⟨s', herase, howned', -⟩ := howned.erased heq hlist himpl hrep (hsize.trans hsame.size)
  refine ⟨s', t', herase, howned.erasedSpec howned' hlist hrep.elems heq ?_⟩
  rintro rfl
  have hempty := hrep.elems
  simp at hempty

/-- **When the colours differ**, or `root_` should move, it is not. -/
theorem Owned.not_eraseSpec (howned : Owned cmp s (plug fs (.node c l x (plug hs (.node c' .nil y w)))))
    (hl : l ≠ .nil) (hleft : ∀ f ∈ hs, f.side = .left) (heq : cmp.equiv k (keyOf x) = true)
    (hbad : c ≠ c' ∨ (fs = [] ∧ hs = [])) : ¬EraseSpec cmp s k := by
  rintro ⟨s', t', herase, hspec⟩
  obtain ⟨m, hm⟩ := howned.redBlack
  have hx : x ∈ (plug fs (.node c l x (plug hs (.node c' .nil y w)))).toList := by
    rw [ColorTree.toList_plug]
    simp
  have hnil : plug hs (.node c' .nil y w) ≠ .nil := by
    cases hs with
    | nil => exact fun h => nomatch h
    | cons f hs => exact plug_ne_nil
  obtain ⟨s₁, himpl, hheap, hroot⟩ := howned.erase_some hx heq herase
  by_cases hplace : fs = [] ∧ hs = []
  · -- `root_` points to the deleted node
    obtain ⟨rfl, rfl⟩ := hplace
    obtain ⟨hroot₁, hfree⟩ := Held.eraseImpl_root howned.held hl himpl
    obtain ⟨n, hn⟩ := hspec.live
    rw [hroot, hroot₁, PointerTree.deref, Option.bind_some, hheap, hfree] at hn
    cases hn
  · have hc : c ≠ c' := hbad.resolve_right hplace
    obtain ⟨s₂, hswap, hs₂, -⟩ := howned.held.swapSuccessor hl hleft hplace
    rw [howned.held.eraseImpl_two hl hnil, hswap, Option.bind_some] at himpl
    have hblack := howned.black
    rw [plug_between] at hs₂ hm hblack
    obtain ⟨n, hy, hfs, -⟩ := hm.unplug hblack
    -- the node beside the place of the successor is the same before and after the swap
    obtain ⟨f, fs₁, g, gs₁, hold, hnew, hsib⟩ : ∃ f fs₁ g gs₁, hs ++ ⟨.right, c, x, l⟩ :: fs = f :: fs₁ ∧
        hs ++ ⟨.right, c', y, l⟩ :: fs = g :: gs₁ ∧ g.sib = f.sib := by
      cases hs with
      | nil => exact ⟨_, _, _, _, rfl, rfl, rfl⟩
      | cons f hs => exact ⟨_, _, _, _, rfl, rfl, rfl⟩
    rw [hold] at hfs
    rw [hnew] at hs₂
    have hfsib : RedBlack f.sib n := hfs.top
    cases c with
    | black =>
        obtain rfl : c' = .red := by
          cases c' with
          | red => rfl
          | black => exact absurd rfl hc
        rcases (show RedBlack (nodeAt .right .red w y .nil) n from hy).half with ⟨-, rfl, rfl⟩ | ⟨h, -, -⟩ | ⟨h, -, -⟩
        · have hleaf : g.sib = .nil ∨ ∃ z, g.sib = .node .red .nil z .nil := by
            rw [hsib]
            exact hfsib.zero
          rw [hs₂.remove_none hleaf] at himpl
          cases himpl
        · cases h
        · cases h
    | red =>
        obtain rfl : c' = .black := by
          cases c' with
          | red => exact absurd rfl hc
          | black => rfl
        have hroot₂ : (plug (g :: gs₁) (.nil : ColorTree (Elem K V))).isRed = false := by
          rw [← hnew, ← plug_between]
          cases fs with
          | nil => exact absurd howned.black (fun h => nomatch h)
          | cons f' fs' => exact isRed_plug_cons.trans howned.black
        have hs₁ := hs₂.remove_red hroot₂ himpl
        -- what is left is the tree that the specification is about
        have hrep := hspec.represents
        rw [hheap] at hrep
        have ht' : t' = plug (g :: gs₁) .nil := by
          apply hrep.unique hs₁.rep
          rw [← hspec.root, hroot, hs₁.root]
        obtain ⟨b, hb⟩ := ColorTree.blackCounts_ne_nil t'
        have hrb : RedBlack t' b := ColorTree.redBlack_of_rules hspec.redChildren fun a ha => hspec.blackHeight a ha b hb
        rw [ht'] at hrb
        obtain ⟨n', hn', hgs, -⟩ := hrb.unplug hroot₂
        cases hn' with
        | nil =>
            have hgsib : RedBlack f.sib 0 := hsib ▸ hgs.top
            obtain rfl := hfsib.height_unique hgsib
            cases hy

/-- The condition, for a node with two children. -/
theorem Owned.eraseSpec_iff (howned : Owned cmp s t) {node : RBNode K V} (hfind : s.find cmp k = some (some i))
    (hnode : s.heap.cells i = some node) (hchildren : node.numOfChildren = 2) : EraseSpec cmp s k ↔ Swappable s i := by
  rcases ColorTree.seek_cases howned.ordered k with ⟨fs, c, l, x, r, hseek, rfl, heq⟩ | ⟨fs, hseek, -⟩
  · rw [howned.find_eq, hseek] at hfind
    obtain rfl : x.1 = i := Option.some.inj (Option.some.inj hfind)
    have hcell := (show Held s (plug fs (nodeAt .left c l x r)) from howned.held).cell
    obtain rfl := Option.some.inj (hnode.symm.trans hcell)
    rw [numOfChildren_cellAt] at hchildren
    have hl : l ≠ .nil := by
      rintro rfl
      cases r <;> simp at hchildren
    have hr : r ≠ .nil := by
      rintro rfl
      cases l <;> simp at hchildren
    obtain ⟨hs, c', y, w, rfl, hleft⟩ := exists_first hr
    have hsucc := howned.held.successor_eq hleft
    have hy := (rep_plug_below.mp howned.held.focus.2.2.2).2.1
    have hright : rootPtr (plug hs (.node c' .nil y w)) = some y.1 ↔ hs = [] := howned.held.right_eq_iff
    have hroot : s.root = some x.1 ↔ fs = [] := howned.held.root_eq_iff
    constructor
    · intro hspec
      by_contra hswap
      refine howned.not_eraseSpec hl hleft heq ?_ hspec
      rw [← not_not (a := c ≠ c' ∨ _), not_or, not_not]
      rintro ⟨hc, hplace⟩
      apply hswap
      refine ⟨_, y.1, _, hcell, hsucc, hy, hc, ?_⟩
      rintro ⟨h₁, h₂⟩
      exact hplace ⟨hroot.mp h₁, hright.mp h₂⟩
    · rintro ⟨n, j, m, hn, hj, hm, hc, hplace⟩
      obtain rfl := Option.some.inj (hcell.symm.trans hn)
      obtain rfl : y.1 = j := Option.some.inj (Option.some.inj (hsucc.symm.trans hj))
      obtain rfl := Option.some.inj (hy.symm.trans hm)
      obtain rfl : c = c' := hc
      apply howned.eraseSpec_same hl hleft _ heq
      rintro ⟨h₁, h₂⟩
      exact hplace ⟨hroot.mpr h₁, hright.mpr h₂⟩
  · rw [howned.find_eq, hseek] at hfind
    cases hfind

/-- **`erase` of a node with two children, in a tree built by insertions of distinct keys**, does what it should exactly
    when the node and its successor have the same colour, and it is not the root with its right child as the successor. -/
theorem eraseSpec_of_inserts_iff {ps : List (K × V)} {node : RBNode K V}
    (hps : ps.Pairwise fun p q => cmp.equiv p.1 q.1 = false) (hins : (empty : PointerTree K V).inserts cmp ps = some s)
    (hfind : s.find cmp k = some (some i)) (hnode : s.heap.cells i = some node) (hchildren : node.numOfChildren = 2) :
    EraseSpec cmp s k ↔ Swappable s i := by
  obtain ⟨s₁, t, hins₁, howned, -⟩ := owned_empty.inserts (fun p _ x hx => (nomatch hx)) hps
  obtain rfl : s = s₁ := Option.some.inj (hins.symm.trans hins₁)
  exact howned.eraseSpec_iff hfind hnode hchildren

/-- Six keys in order. -/
def sixKeys : PointerTree Nat Nat := built [(0, 0), (1, 10), (2, 20), (3, 30), (4, 40), (5, 50)]

/-- `erase(1)` in the tree of the keys 0 to 5, where 1 is a black root, and 2 a black leaf further down. -/
theorem eraseSpec_of_inserts_sixKeys : EraseSpec Comparator.nat sixKeys 1 := by
  have hps : List.Pairwise (fun p q => Comparator.nat.equiv p.1 q.1 = false)
      [(0, 0), (1, 10), (2, 20), (3, 30), (4, 40), (5, 50)] := by decide
  have hfind : sixKeys.find Comparator.nat 1 = some (some 1) := by decide +kernel
  have hsucc : sixKeys.successor (some 1) = some (some 2) := by decide +kernel
  have htwo : (sixKeys.heap.cells 1).map (fun n => (n.numOfChildren, n.c, n.r)) = some (2, .black, some 3) := by
    decide +kernel
  have hleaf : (sixKeys.heap.cells 2).map RBNode.c = some .black := by decide +kernel
  obtain ⟨node, hnode, hfields⟩ := Option.map_eq_some_iff.mp htwo
  obtain ⟨next, hnext, hcnext⟩ := Option.map_eq_some_iff.mp hleaf
  obtain ⟨hchildren, hfields⟩ := Prod.mk.inj hfields
  obtain ⟨hc, hr⟩ := Prod.mk.inj hfields
  apply (eraseSpec_of_inserts_iff hps (owned_built hps).1 hfind hnode hchildren).mpr
  refine ⟨node, 2, next, hnode, hsucc, hnext, hc.trans hcnext.symm, ?_⟩
  rintro ⟨-, hright⟩
  rw [hr] at hright
  cases hright

/-- `erase(2)` in the tree of the keys 2, 1, 3: the node has two children, and `root_` is left dangling. -/
theorem not_eraseSpec_root : (threeKeys.heap.cells 0).map RBNode.numOfChildren = some 2 ∧
    threeKeys.find Comparator.nat 2 = some (some 0) ∧ ¬EraseSpec Comparator.nat threeKeys 2 := by
  obtain ⟨-, t, howned⟩ := owned_built (show List.Pairwise _ [(2, 20), (1, 10), (3, 30)] by decide)
  have howned : Owned Comparator.nat threeKeys t := howned
  have hfind : threeKeys.find Comparator.nat 2 = some (some 0) := by decide +kernel
  have htwo : (threeKeys.heap.cells 0).map RBNode.numOfChildren = some 2 := by decide +kernel
  obtain ⟨node, hnode, hchildren⟩ := Option.map_eq_some_iff.mp htwo
  have hroot : threeKeys.root = some 0 := by decide +kernel
  have hright : (threeKeys.heap.cells 0).map RBNode.r = some (some 2) := by decide +kernel
  have hsucc : threeKeys.successor (some 0) = some (some 2) := by decide +kernel
  refine ⟨htwo, hfind, fun hspec => ?_⟩
  obtain ⟨n, j, m, hn, hj, -, -, hplace⟩ := (howned.eraseSpec_iff hfind hnode hchildren).mp hspec
  rw [hn] at hright
  obtain rfl : 2 = j := Option.some.inj (Option.some.inj (hsucc.symm.trans hj))
  exact hplace ⟨hroot, Option.some.inj hright⟩

end PointerTree
end Snippets
