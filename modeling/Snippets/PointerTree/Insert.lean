import Snippets.PointerTree.Zipper

/-!
# `PointerTree.Insert` — `insert_fixup` keeps a red-black tree

The loop of `insert_fixup` stands at a red node whose parent may be red too; everything else is in order. It either
recolours and climbs by two, or rotates and stops. `fixupRotate` is one rule for each of the two shapes, and
`Held.insertFixup` the loop.
-/

namespace Snippets

open Lib

namespace PointerTree

open ColorTree (nodeAt plug Frame RedBlack Around topRed)

variable {K V : Type} {s : PointerTree K V} {fs gs : List (Frame (Elem K V))} {x y z : Elem K V}
  {t a b e w near far : ColorTree (Elem K V)} {c : Color} {d side : Side} {n : Nat}

/-! ## The rotations of `insert_fixup` -/

/-- The node is the outer grandchild. -/
theorem Held.fixup_outer (hs : Held s (plug gs (nodeAt d c (nodeAt d .red t y b) z e))) (hx : rootPtr t = some x.1) :
    ∃ s', s.fixupRotate d (some x.1) (some y.1) (some z.1) = some s' ∧
      Held s' (plug gs (nodeAt d c t y (nodeAt d .red b z e))) ∧ Same s s' := by
  have hy : Held s (plug (⟨d, c, z, e⟩ :: gs) (nodeAt d .red t y b)) := hs
  have hnot : rootPtr b ≠ some x.1 := by
    intro h
    obtain ⟨hnd, -, -⟩ := hy.nodup_focus
    obtain ⟨-, hnd⟩ := List.nodup_cons.mp (ids_nodeAt.nodup_iff.mp hnd)
    exact (List.nodup_append.mp hnd).2.2 _ (rootPtr_mem hx) _ (rootPtr_mem h) rfl
  have hstraight : s.straighten d (some x.1) (some y.1) = some (s, some y.1) := by
    unfold straighten
    rw [deref_eq hy.cell]
    simp only [Option.bind_eq_bind, Option.bind_some, child_cellAt_other, if_neg hnot]
    rfl
  obtain ⟨s₁, hwrite₁, hs₁, hsame₁⟩ := hy.paint c
  have hz : Held s₁ (plug gs (nodeAt d c (nodeAt d c t y b) z e)) := hs₁
  obtain ⟨s₂, hwrite₂, hs₂, hsame₂⟩ := hz.paint .red
  obtain ⟨s₃, hrot, hs₃, hsame₃⟩ := hs₂.rotate_other
  refine ⟨s₃, ?_, hs₃, hsame₁.trans (hsame₂.trans hsame₃)⟩
  unfold fixupRotate
  rw [hstraight]
  simp only [Option.bind_eq_bind, Option.bind_some, deref_eq hs.cell, c_cellAt, hwrite₁, hwrite₂, hrot]

/-- The node is the inner grandchild. -/
theorem Held.fixup_inner (hs : Held s (plug gs (nodeAt d c (nodeAt d .red a y (nodeAt d .red b x e)) z w))) :
    ∃ s', s.fixupRotate d (some x.1) (some y.1) (some z.1) = some s' ∧
      Held s' (plug gs (nodeAt d c (nodeAt d .red a y b) x (nodeAt d .red e z w))) ∧ Same s s' := by
  have hy : Held s (plug (⟨d, c, z, w⟩ :: gs) (nodeAt d .red a y (nodeAt d .red b x e))) := hs
  have hx : Held s (plug (⟨d.other, .red, y, a⟩ :: ⟨d, c, z, w⟩ :: gs) (nodeAt d .red b x e)) := by
    rw [plug_far] at hy
    exact hy
  obtain ⟨s₁, hwrite₁, hs₁, hsame₁⟩ := hx.paint .red
  have hy₁ : Held s₁ (plug (⟨d, c, z, w⟩ :: gs) (nodeAt d .red a y (nodeAt d .red b x e))) := by
    rw [plug_far]
    exact hs₁
  obtain ⟨s₂, hwrite₂, hs₂, hsame₂⟩ := hy₁.paint .red
  obtain ⟨s₃, hrot₃, hs₃, hsame₃⟩ := hs₂.rotate
  have hstraight : s.straighten d (some x.1) (some y.1) = some (s₃, some x.1) := by
    unfold straighten
    rw [deref_eq hy.cell]
    simp only [Option.bind_eq_bind, Option.bind_some, child_cellAt_other, rootPtr_nodeAt, if_true, c_cellAt, hwrite₁,
      hwrite₂, hrot₃]
    rfl
  have hz₃ : Held s₃ (plug gs (nodeAt d c (nodeAt d .red (nodeAt d .red a y b) x e) z w)) := hs₃
  obtain ⟨s₄, hwrite₄, hs₄, hsame₄⟩ := hs₃.paint c
  have hz₄ : Held s₄ (plug gs (nodeAt d c (nodeAt d c (nodeAt d .red a y b) x e) z w)) := hs₄
  obtain ⟨s₅, hwrite₅, hs₅, hsame₅⟩ := hz₄.paint .red
  obtain ⟨s₆, hrot₆, hs₆, hsame₆⟩ := hs₅.rotate_other
  refine ⟨s₆, ?_, hs₆, hsame₁.trans (hsame₂.trans (hsame₃.trans (hsame₄.trans (hsame₅.trans hsame₆))))⟩
  unfold fixupRotate
  rw [hstraight]
  simp only [Option.bind_eq_bind, Option.bind_some, deref_eq hz₃.cell, c_cellAt, hwrite₄, hwrite₅, hrot₆]

/-- Parent and uncle are red: they turn black, and the grandparent red. -/
theorem Held.recolour {u : Elem K V} {e₁ e₂ : ColorTree (Elem K V)}
    (hs : Held s (plug gs (nodeAt d c (nodeAt side .red t y b) z (nodeAt .left .red e₁ u e₂)))) :
    ∃ s₁ s₂ s₃, s.write (some z.1) (fun n => n.paint .red) = some s₁ ∧
      s₁.write (some y.1) (fun n => n.paint .black) = some s₂ ∧
      s₂.write (some u.1) (fun n => n.paint .black) = some s₃ ∧
      Held s₃ (plug gs (nodeAt d .red (nodeAt side .black t y b) z (nodeAt .left .black e₁ u e₂))) ∧ Same s s₃ := by
  obtain ⟨s₁, hwrite₁, hs₁, hsame₁⟩ := hs.paint .red
  have hy : Held s₁ (plug (⟨d, .red, z, nodeAt .left .red e₁ u e₂⟩ :: gs) (nodeAt side .red t y b)) := hs₁
  obtain ⟨s₂, hwrite₂, hs₂, hsame₂⟩ := hy.paint .black
  have hu : Held s₂ (plug (⟨d.other, .red, z, nodeAt side .black t y b⟩ :: gs) (nodeAt .left .red e₁ u e₂)) := by
    rw [← plug_far]
    exact hs₂
  obtain ⟨s₃, hwrite₃, hs₃, hsame₃⟩ := hu.paint .black
  rw [← plug_far] at hs₃
  exact ⟨s₁, s₂, s₃, hwrite₁, hwrite₂, hwrite₃, hs₃, hsame₁.trans (hsame₂.trans hsame₃)⟩

/-! ## The loop

It stops at a black parent. At a red one it recolours and goes on at the grandparent, or rotates once, and is
done. -/

/-- The tree holds the same elements, and is red-black with a black root. -/
structure Repaired (s : PointerTree K V) (elems : List (Elem K V)) (t : ColorTree (Elem K V)) : Prop where
  held : Held s t
  redBlack : ∃ m, RedBlack t m
  black : t.isRed = false
  elems : t.toList = elems

/-- The loop ends with `root_->c = kBlack`. -/
theorem Held.finish {elems : List (Elem K V)} {m : Nat} (hs : Held s t) (hrb : RedBlack t m) (hne : t ≠ .nil)
    (helems : t.toList = elems) : ∃ s' t', s.blackenRoot = some s' ∧ Repaired s' elems t' ∧ Same s s' := by
  obtain ⟨s', hroot, hs', hsame⟩ := hs.blackenRoot hne
  refine ⟨s', t.paint .black, hroot, ⟨hs', hrb.paint_black, ?_, ?_⟩, hsame⟩
  · cases t <;> rfl
  · rw [ColorTree.toList_paint, helems]

/-- A rotation keeps the order, -/
theorem toList_rotate : (nodeAt d c (nodeAt d .red t y b) z e).toList = (nodeAt d c t y (nodeAt d .red b z e)).toList := by
  cases d <;> simp [nodeAt]

/-- and so do two. -/
theorem toList_rotate_inner : (nodeAt d c (nodeAt d .red a y (nodeAt d .red b x e)) z w).toList =
    (nodeAt d c (nodeAt d .red a y b) x (nodeAt d .red e z w)).toList := by
  cases d <;> simp [nodeAt]

/-- Trees with the same elements in the same place. -/
theorem toList_plug_congr (h : t.toList = e.toList) : (plug gs t).toList = (plug gs e).toList := by
  rw [ColorTree.toList_plug, ColorTree.toList_plug, h]

/-- **The branch that rotates.** The grandparent `z` is black, and so is the uncle `e`. -/
theorem Held.fixup_rotate (hs : Held s (plug gs (nodeAt d .black (nodeAt side .red t y b) z e)))
    (hx : rootPtr t = some x.1) (ht : RedBlack t n) (hred : t.isRed = true) (hb : RedBlack b n) (hbb : b.isRed = false)
    (he : RedBlack e n) (heb : e.isRed = false) (hgs : Around gs (n + 1)) :
    ∃ s' t' m, s.fixupRotate d (some x.1) (some y.1) (some z.1) = some s' ∧ Held s' t' ∧ RedBlack t' m ∧ t' ≠ .nil ∧
      t'.toList = (plug gs (nodeAt d .black (nodeAt side .red t y b) z e)).toList ∧ Same s s' := by
  -- a black node in the grandparent's place fits where the grandparent was
  have hfit : ∀ u : ColorTree (Elem K V), RedBlack u (n + 1) → u.isRed = false → u ≠ .nil →
      ∃ m, RedBlack (plug gs u) m ∧ plug gs u ≠ .nil := by
    intro u hu hub hne
    obtain ⟨m, hm, -⟩ := hgs.plug hu (fun h => by rw [hub] at h; cases h)
    refine ⟨m, hm, ?_⟩
    cases gs with
    | nil => exact hne
    | cons g gs => exact plug_ne_nil
  have hne : ∀ (l : ColorTree (Elem K V)) (v : Elem K V) (r : ColorTree (Elem K V)), nodeAt d .black l v r ≠ .nil := by
    intro l v r
    cases d <;> exact fun h => nomatch h
  rcases Side.eq_or_other d side with rfl | rfl
  · obtain ⟨s', hfix, hs', hsame⟩ := hs.fixup_outer hx
    have hrb : RedBlack (nodeAt side .black t y (nodeAt side .red b z e)) (n + 1) :=
      ColorTree.redBlack_black_succ.mpr ⟨ht, ColorTree.redBlack_nodeAt_red.mpr ⟨hb, he, hbb, heb⟩⟩
    obtain ⟨m, hm, hnil⟩ := hfit _ hrb ColorTree.isRed_nodeAt_black (hne _ _ _)
    exact ⟨s', _, m, hfix, hs', hm, hnil, toList_plug_congr toList_rotate.symm, hsame⟩
  · obtain ⟨t₁, x', t₂, rfl⟩ := ColorTree.exists_nodeAt_red d hred
    obtain ⟨h₁, h₂, hb₁, hb₂⟩ := ColorTree.redBlack_nodeAt_red.mp ht
    have hxx : x'.1 = x.1 := by
      rw [rootPtr_nodeAt] at hx
      exact Option.some.inj hx
    rw [ColorTree.nodeAt_other] at hs ⊢
    obtain ⟨s', hfix, hs', hsame⟩ := hs.fixup_inner
    have hrb : RedBlack (nodeAt d .black (nodeAt d .red b y t₁) x' (nodeAt d .red t₂ z e)) (n + 1) :=
      ColorTree.redBlack_black_succ.mpr ⟨ColorTree.redBlack_nodeAt_red.mpr ⟨hb, h₁, hbb, hb₁⟩,
        ColorTree.redBlack_nodeAt_red.mpr ⟨h₂, he, hb₂, heb⟩⟩
    obtain ⟨m, hm, hnil⟩ := hfit _ hrb ColorTree.isRed_nodeAt_black (hne _ _ _)
    rw [hxx] at hfix
    exact ⟨s', _, m, hfix, hs', hm, hnil, toList_plug_congr toList_rotate_inner.symm, hsame⟩

/-- One round of the loop below a red parent `y` and a black grandparent `z`. -/
theorem Held.insertFixup_red {fuel : Nat} (hs : Held s (plug gs (nodeAt d .black (nodeAt side .red t y b) z e)))
    (hx : rootPtr t = some x.1) : s.insertFixup (fuel + 1) (some x.1) =
      if e.isRed then do
        let s ← s.write (some z.1) fun n => n.paint .red
        let s ← s.write (some y.1) fun n => n.paint .black
        let s ← s.write (rootPtr e) fun n => n.paint .black
        s.insertFixup fuel (some z.1)
      else (s.fixupRotate d (some x.1) (some y.1) (some z.1)).bind PointerTree.blackenRoot := by
  have hy : Held s (plug (⟨d, .black, z, e⟩ :: gs) (nodeAt side .red t y b)) := hs
  have ht : Held s (plug (⟨side, .red, y, b⟩ :: ⟨d, .black, z, e⟩ :: gs) t) := hs
  have hycell : s.heap.cells y.1 = some (cellAt side y (some z.1) (rootPtr t) (rootPtr b) .red) := hy.cell
  have hzcell := hs.cell
  rw [rootPtr_nodeAt] at hzcell
  obtain ⟨n, hxcell, hxp⟩ : ∃ n, s.heap.cells x.1 = some n ∧ n.p = some y.1 := by
    cases t with
    | nil => cases hx
    | node c l x' r =>
        obtain hxx : x'.1 = x.1 := Option.some.inj hx
        rw [← hxx]
        exact ⟨_, ht.focus.2.1, rfl⟩
  have hyred : s.isRed (some y.1) = some true := by
    have hisRed := isRed_eq hy.focus.2
    rw [rootPtr_nodeAt, ColorTree.isRed_nodeAt_red] at hisRed
    exact hisRed
  have hye : y.1 ∉ ids e := not_mem_sib (hy.apart.2.2)
  have hps := sibling_eq d z (parentPtr gs) .black hye
  have huncle := isRed_eq (rep_nodeAt.mp hs.focus.2).2.2
  have hroot := ht.ne_root (rootPtr_mem hx)
  simp only [PointerTree.insertFixup, deref_eq hxcell, Option.bind_eq_bind, Option.bind_some, if_neg hroot, hxp, hyred,
    if_true, deref_eq hycell, p_cellAt, deref_eq hzcell, hps, huncle]
  -- a red uncle: the loop goes on; a black one: it rotates
  by_cases heb : e.isRed = true
  · simp only [heb, if_true, c_cellAt, guard, Option.pure_def, Option.bind_some]
  · simp only [heb, Bool.false_eq_true, if_false]
    -- the source tells the sides by comparing addresses
    cases d with
    | left =>
        have hl : (cellAt Side.left z (parentPtr gs) (some y.1) (rootPtr e) Color.black).l = some y.1 := rfl
        rw [if_pos hl]
    | right =>
        have hl : (cellAt Side.right z (parentPtr gs) (some y.1) (rootPtr e) Color.black).l ≠ some y.1 :=
          fun h => hye (rootPtr_mem h)
        have hr : (cellAt Side.right z (parentPtr gs) (some y.1) (rootPtr e) Color.black).r = some y.1 := rfl
        rw [if_neg hl, hr]
        simp only [guard, if_true, Option.pure_def, Option.bind_some]

/-- The loop stops at the root, and below a black parent. -/
theorem Held.insertFixup_stop {fuel : Nat} (hs : Held s (plug fs t)) (hx : rootPtr t = some x.1)
    (htop : topRed fs = false) : s.insertFixup (fuel + 1) (some x.1) = s.blackenRoot := by
  obtain ⟨n, hxcell, hxp⟩ : ∃ n, s.heap.cells x.1 = some n ∧ n.p = parentPtr fs := by
    cases t with
    | nil => cases hx
    | node c l x' r =>
        obtain hxx : x'.1 = x.1 := Option.some.inj hx
        rw [← hxx]
        exact ⟨_, hs.focus.2.1, rfl⟩
  simp only [PointerTree.insertFixup, deref_eq hxcell, Option.bind_eq_bind, Option.bind_some]
  cases fs with
  | nil =>
      have hroot : some x.1 = s.root := by
        rw [hs.root]
        exact hx.symm
      rw [if_pos hroot]
  | cons f fs =>
      obtain ⟨side, c, y, b⟩ := f
      have hy : Held s (plug fs (nodeAt side c t y b)) := hs
      have hisRed := isRed_eq hy.focus.2
      have hblack : (nodeAt side c t y b).isRed = false := by
        cases c with
        | red => simp [topRed] at htop
        | black => exact ColorTree.isRed_nodeAt_black
      rw [rootPtr_nodeAt, hblack] at hisRed
      rw [if_neg (hs.ne_root (rootPtr_mem hx)), hxp]
      show (s.isRed (some y.1)).bind _ = _
      rw [hisRed]
      rfl

/-- **The loop of `insert_fixup`.** The node in focus is red, and nothing but its parent's colour can be wrong. -/
theorem Held.insertFixup {fuel : Nat} (hs : Held s (plug fs t)) (hx : rootPtr t = some x.1) (ht : RedBlack t n)
    (hred : t.isRed = true) (hfs : Around fs n) (hfuel : fs.length < fuel) :
    ∃ s' t', s.insertFixup fuel (some x.1) = some s' ∧ Repaired s' (plug fs t).toList t' ∧ Same s s' := by
  -- the loop climbs by two frames, so the fuel is the induction and the frames bound it
  induction fuel generalizing s fs t x n with
  | zero => exact absurd hfuel (Nat.not_lt_zero _)
  | succ fuel ih =>
      have hstop : topRed fs = false → ∃ s' t', s.insertFixup (fuel + 1) (some x.1) = some s' ∧
          Repaired s' (plug fs t).toList t' ∧ Same s s' := by
        intro htop
        obtain ⟨m, hm, -⟩ := hfs.plug ht (fun _ => htop)
        have hne : plug fs t ≠ .nil := by
          cases fs with
          | nil => exact ColorTree.ne_nil_of_isRed hred
          | cons f fs => exact plug_ne_nil
        obtain ⟨s', t', hfin, hrep, hsame⟩ := hs.finish hm hne rfl
        exact ⟨s', t', (hs.insertFixup_stop hx htop).trans hfin, hrep, hsame⟩
      cases hfs with
      | nil => exact hstop rfl
      | black => exact hstop rfl
      | @red side y b fs n hb hbb hfs htop hne =>
          cases hfs with
          | nil => exact absurd rfl hne
          | red => simp [topRed] at htop
          | @black d z e gs n he hgs =>
              have hz : Held s (plug gs (nodeAt d .black (nodeAt side .red t y b) z e)) := hs
              rw [hz.insertFixup_red hx]
              by_cases heb : e.isRed = true
              · -- recolour and climb
                obtain ⟨e₁, u, e₂, rfl⟩ := ColorTree.exists_nodeAt_red .left heb
                obtain ⟨he₁, he₂, -, -⟩ := ColorTree.redBlack_nodeAt_red.mp he
                obtain ⟨s₁, s₂, s₃, hw₁, hw₂, hw₃, hs₃, hsame₃⟩ := hz.recolour
                have hrb : RedBlack (nodeAt d .red (nodeAt side .black t y b) z (nodeAt .left .black e₁ u e₂)) (n + 1) := by
                  apply ColorTree.redBlack_nodeAt_red.mpr
                  refine ⟨ColorTree.redBlack_black_succ.mpr ⟨ht, hb⟩, ColorTree.redBlack_black_succ.mpr ⟨he₁, he₂⟩, ?_, ?_⟩
                  · exact ColorTree.isRed_nodeAt_black
                  · exact ColorTree.isRed_nodeAt_black
                have hlen : gs.length < fuel := by
                  simp only [List.length_cons] at hfuel
                  omega
                obtain ⟨s', t', hloop, hrep, hsame⟩ := ih hs₃ rootPtr_nodeAt hrb ColorTree.isRed_nodeAt_red hgs hlen
                have hlist : (plug gs (nodeAt d .red (nodeAt side .black t y b) z (nodeAt .left .black e₁ u e₂))).toList =
                    (plug gs (nodeAt d .black (nodeAt side .red t y b) z (nodeAt .left .red e₁ u e₂))).toList := by
                  apply toList_plug_congr
                  cases d <;> cases side <;> rfl
                rw [hlist] at hrep
                refine ⟨s', t', ?_, hrep, hsame₃.trans hsame⟩
                rw [rootPtr_nodeAt]
                simp only [heb, if_true, Option.bind_eq_bind, hw₁, Option.bind_some, hw₂, hw₃, hloop]
              · -- rotate and stop
                rw [Bool.not_eq_true] at heb
                obtain ⟨s₁, t', m, hfix, hs₁, hm, hnil, hlist, hsame₁⟩ := hz.fixup_rotate hx ht hred hb hbb he heb hgs
                obtain ⟨s', t'', hfin, hrep, hsame⟩ := hs₁.finish hm hnil hlist
                refine ⟨s', t'', ?_, hrep, hsame₁.trans hsame⟩
                simp only [heb, Bool.false_eq_true, if_false, hfix, Option.bind_some, hfin]

end PointerTree
end Snippets
