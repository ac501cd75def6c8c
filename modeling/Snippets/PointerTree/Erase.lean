import Snippets.PointerTree.Walk

/-!
# `PointerTree.Erase` — `erase_fixup` and the removal of a node with at most one child

The loop of `erase_fixup` stands at a black node `t` that is going to lack one black node: the frames around it are made
for a subtree of black height `n + 1` and have to be made for one of height `n` (`Held.eraseFixup`). Nothing inside `t`
changes, so the rule is about the frames only. A red sibling is turned into a black one below a red parent, and then
one more round is enough.
-/

namespace Snippets

open Lib

namespace PointerTree

open ColorTree (nodeAt plug Frame RedBlack Around Lowers)

variable {K V : Type} {s : PointerTree K V} {fs gs : List (Frame (Elem K V))} {x y z u w : Elem K V}
  {t a b e a₁ a₂ b₁ b₂ : ColorTree (Elem K V)} {c c' : Color} {d : Side} {n fuel : Nat}

/-! ## The parts of `erase_fixup`

One lemma for each of the source's helpers: `turnSibling` is the case of a red sibling, `bendSibling` brings the
red nephew to the far side, `borrow` is the last rotation. The two sides are one case, by `nodeAt d`. -/

/-- `is_black` of the node the loop stands at. -/
theorem Held.isBlack (hs : Held s (plug fs t)) : s.isBlack (rootPtr t) = some (!t.isRed) := isBlack_eq hs.focus.2

/-- `is_red` of it. -/
theorem Held.isRed (hs : Held s (plug fs t)) : s.isRed (rootPtr t) = some t.isRed := isRed_eq hs.focus.2

/-- A red sibling goes up, and its child on the node's side is the new sibling. -/
theorem Held.turnSibling (hs : Held s (plug fs (nodeAt d .black t z (nodeAt d .red a y b)))) (ha : a.isRed = false)
    (hb : b.isRed = false) (hane : a ≠ .nil) (hbne : b ≠ .nil) :
    ∃ s', s.turnSibling (some z.1) (some y.1) = some s' ∧
      Held s' (plug fs (nodeAt d .black (nodeAt d .red t z a) y b)) ∧ Same s s' := by
  have hy : Held s (plug (⟨d.other, .black, z, t⟩ :: fs) (nodeAt d .red a y b)) := by
    rw [← plug_far]
    exact hs
  have hyrep := rep_nodeAt.mp hy.focus.2
  obtain ⟨s₁, hw₁, hs₁, hsame₁⟩ := hs.paint .red
  have hy₁ : Held s₁ (plug (⟨d.other, .red, z, t⟩ :: fs) (nodeAt d .red a y b)) := by
    rw [← plug_far]
    exact hs₁
  obtain ⟨s₂, hw₂, hs₂, hsame₂⟩ := hy₁.paint .black
  rw [← plug_far] at hs₂
  obtain ⟨s₃, hrot, hs₃, hsame₃⟩ := hs₂.rotate
  refine ⟨s₃, ?_, hs₃, hsame₁.trans (hsame₂.trans hsame₃)⟩
  -- the asserts: the parent is black, and both nephews are there and black
  have hzblack : s.isBlack (some z.1) = some true := by
    have h := hs.isBlack
    rw [rootPtr_nodeAt, ColorTree.isRed_nodeAt_black] at h
    exact h
  have hchild : (cellAt d y (some z.1) (rootPtr a) (rootPtr b) Color.red).l.isSome = true ∧
      (cellAt d y (some z.1) (rootPtr a) (rootPtr b) Color.red).r.isSome = true := by
    cases d with
    | left => exact ⟨rootPtr_isSome hane, rootPtr_isSome hbne⟩
    | right => exact ⟨rootPtr_isSome hbne, rootPtr_isSome hane⟩
  have hblack : s.isBlack (cellAt d y (some z.1) (rootPtr a) (rootPtr b) Color.red).l = some true ∧
      s.isBlack (cellAt d y (some z.1) (rootPtr a) (rootPtr b) Color.red).r = some true := by
    have h₁ := isBlack_eq hyrep.2.1
    have h₂ := isBlack_eq hyrep.2.2
    rw [ha] at h₁
    rw [hb] at h₂
    cases d with
    | left => exact ⟨h₁, h₂⟩
    | right => exact ⟨h₂, h₁⟩
  have hycell : s.heap.cells y.1 = some (cellAt d y (some z.1) (rootPtr a) (rootPtr b) .red) := hyrep.1
  have hzcell := hs₂.cell
  rw [rootPtr_nodeAt] at hzcell
  -- the test which way to turn compares the sibling with the right child
  have hrotate : (if some y.1 = (cellAt d z (parentPtr fs) (rootPtr t) (some y.1) Color.red).r then
      s₂.rotateLeft (some z.1) else s₂.rotateRight (some z.1)) = some s₃ := by
    cases d with
    | left =>
        show (if some y.1 = some y.1 then s₂.rotateLeft (some z.1) else _) = _
        rw [if_pos rfl]
        exact hrot
    | right =>
        have hne : some y.1 ≠ rootPtr t := by
          intro h
          have hyt := rootPtr_mem h.symm
          have hnd := hy.apart.2.2
          exact hnd (List.mem_cons_of_mem _ (List.mem_append_left _ hyt))
        show (if some y.1 = rootPtr t then _ else _) = _
        rw [if_neg hne]
        exact hrot
  unfold PointerTree.turnSibling
  simp only [deref_eq hycell, Option.bind_eq_bind, Option.bind_some, hzblack, hchild.1, hchild.2, hblack.1, hblack.2,
    guard, if_true, Option.pure_def, hw₁, hw₂, deref_eq hzcell, hrotate]

/-- The sibling's red child on the node's side takes its place. -/
theorem Held.bendSibling (hs : Held s (plug fs (nodeAt d c t z (nodeAt d .black (nodeAt d .red a₁ u a₂) y b)))) :
    ∃ s', s.bendSibling d (some y.1) = some (s', some u.1) ∧
      Held s' (plug fs (nodeAt d c t z (nodeAt d .black a₁ u (nodeAt d .red a₂ y b)))) ∧ Same s s' := by
  have hy : Held s (plug (⟨d.other, c, z, t⟩ :: fs) (nodeAt d .black (nodeAt d .red a₁ u a₂) y b)) := by
    rw [← plug_far]
    exact hs
  have hu : Held s (plug (⟨d, .black, y, b⟩ :: ⟨d.other, c, z, t⟩ :: fs) (nodeAt d .red a₁ u a₂)) := hy
  have hured := hu.isRed
  rw [rootPtr_nodeAt, ColorTree.isRed_nodeAt_red] at hured
  have hycell := hy.cell
  rw [rootPtr_nodeAt] at hycell
  obtain ⟨s₁, hw₁, hs₁, hsame₁⟩ := hu.paint .black
  have hy₁ : Held s₁ (plug (⟨d.other, c, z, t⟩ :: fs) (nodeAt d .black (nodeAt d .black a₁ u a₂) y b)) := hs₁
  obtain ⟨s₂, hw₂, hs₂, hsame₂⟩ := hy₁.paint .red
  obtain ⟨s₃, hrot, hs₃, hsame₃⟩ := hs₂.rotate_other
  have hy₃ : Held s₃ (plug (⟨d.other, .black, u, a₁⟩ :: ⟨d.other, c, z, t⟩ :: fs) (nodeAt d .red a₂ y b)) := by
    rw [← plug_far]
    exact hs₃
  refine ⟨s₃, ?_, ?_, hsame₁.trans (hsame₂.trans hsame₃)⟩
  · unfold PointerTree.bendSibling
    simp only [deref_eq hycell, Option.bind_eq_bind, Option.bind_some, child_cellAt, hured, if_true, hw₁, hw₂, hrot,
      deref_eq hy₃.cell, p_cellAt]
    rfl
  · rw [plug_far]
    exact hs₃

/-- A black child on the node's side leaves the sibling where it is. -/
theorem Held.bendSibling_black (hs : Held s (plug fs (nodeAt d c t z (nodeAt d .black a y b)))) (ha : a.isRed = false) :
    s.bendSibling d (some y.1) = some (s, some y.1) := by
  have hy : Held s (plug (⟨d.other, c, z, t⟩ :: fs) (nodeAt d .black a y b)) := by
    rw [← plug_far]
    exact hs
  have harep := isRed_eq (rep_nodeAt.mp hy.focus.2).2.1
  rw [ha] at harep
  unfold PointerTree.bendSibling
  simp only [deref_eq hy.cell, Option.bind_eq_bind, Option.bind_some, child_cellAt, harep, Bool.false_eq_true, if_false]
  rfl

/-- **The rotation at the parent**, once the sibling's child on the far side is red. -/
theorem Held.borrow {s₀ : PointerTree K V} {sib : Ptr}
    (hbend : s₀.bendSibling d sib = some (s, some u.1))
    (hs : Held s (plug fs (nodeAt d c t z (nodeAt d c' a u (nodeAt d .red b₁ w b₂))))) (ha : a.isRed = false) :
    ∃ s', s₀.borrow d (some z.1) sib = some s' ∧
      Held s' (plug fs (nodeAt d c (nodeAt d .black t z a) u (nodeAt d .black b₁ w b₂))) ∧ Same s s' := by
  have hu : Held s (plug (⟨d.other, c, z, t⟩ :: fs) (nodeAt d c' a u (nodeAt d .red b₁ w b₂))) := by
    rw [← plug_far]
    exact hs
  have hurep := rep_nodeAt.mp hu.focus.2
  have hablack := isBlack_eq hurep.2.1
  rw [ha] at hablack
  have hwred := isRed_eq hurep.2.2
  rw [rootPtr_nodeAt, ColorTree.isRed_nodeAt_red] at hwred
  have hucell := hu.cell
  rw [rootPtr_nodeAt] at hucell
  obtain ⟨s₁, hw₁, hs₁, hsame₁⟩ := hu.paint c
  have hfar₁ : Held s₁ (plug (⟨d.other, c, u, a⟩ :: ⟨d.other, c, z, t⟩ :: fs) (nodeAt d .red b₁ w b₂)) := by
    rw [← plug_far]
    exact hs₁
  obtain ⟨s₂, hw₂, hs₂, hsame₂⟩ := hfar₁.paint .black
  have hz₂ : Held s₂ (plug fs (nodeAt d c t z (nodeAt d c a u (nodeAt d .black b₁ w b₂)))) := by
    rw [plug_far, plug_far]
    exact hs₂
  obtain ⟨s₃, hw₃, hs₃, hsame₃⟩ := hz₂.paint .black
  obtain ⟨s₄, hrot, hs₄, hsame₄⟩ := hs₃.rotate
  refine ⟨s₄, ?_, hs₄, hsame₁.trans (hsame₂.trans (hsame₃.trans hsame₄))⟩
  unfold PointerTree.borrow
  simp only [hbend, Option.bind_eq_bind, Option.bind_some, deref_eq hucell, child_cellAt, child_cellAt_other, hablack,
    hwred, Bool.not_false, guard, if_true, Option.pure_def, deref_eq hs.cell, c_cellAt, hw₁, hw₂, hw₃, hrot]

/-- The node in focus and the link to its parent. -/
theorem Held.cell_of_rootPtr (hs : Held s (plug fs t)) (hx : rootPtr t = some x.1) :
    ∃ n, s.heap.cells x.1 = some n ∧ n.p = parentPtr fs := by
  cases t with
  | nil => cases hx
  | node c l x' r =>
      obtain hxx : x'.1 = x.1 := Option.some.inj hx
      rw [← hxx]
      exact ⟨_, hs.focus.2.1, rfl⟩

/-- One round of the loop at a black node with a sibling. -/
theorem Held.eraseFixup_round (hs : Held s (plug fs (nodeAt d c t z (nodeAt d c' a y b)))) (hx : rootPtr t = some x.1)
    (ht : t.isRed = false) : s.eraseFixup (fuel + 1) (some x.1) =
      if c' = .red then (s.turnSibling (some z.1) (some y.1)).bind fun s => s.eraseFixup fuel (some x.1)
      else if a.isRed = false ∧ b.isRed = false then
        (s.write (some y.1) fun n => n.paint .red).bind fun s => (s.isRed (some z.1)).bind fun red =>
          if red then (s.write (some z.1) fun n => n.paint .black).bind PointerTree.blackenRoot
          else s.eraseFixup fuel (some z.1)
      else (s.borrow d (some z.1) (some y.1)).bind PointerTree.blackenRoot := by
  have hnode : Held s (plug (⟨d, c, z, nodeAt d c' a y b⟩ :: fs) t) := hs
  have hy : Held s (plug (⟨d.other, c, z, t⟩ :: fs) (nodeAt d c' a y b)) := by
    rw [← plug_far]
    exact hs
  obtain ⟨n, hxcell, hxp⟩ := hnode.cell_of_rootPtr hx
  have hxblack := hnode.isBlack
  rw [hx, ht] at hxblack
  have hxsib : x.1 ∉ ids (nodeAt d c' a y b) := not_mem_sib (hnode.nodup_focus.2.2 _ (rootPtr_mem hx))
  have hzcell := hs.cell
  rw [hx] at hzcell
  have hsib := sibling_eq d z (parentPtr fs) c hxsib
  rw [rootPtr_nodeAt] at hsib hzcell
  have hyrep := rep_nodeAt.mp hy.focus.2
  have hyred := hy.isRed
  rw [rootPtr_nodeAt] at hyred
  -- the source reads the nephews as left and right, the lemma as near and far
  have hnephews : s.isBlack (cellAt d y (some z.1) (rootPtr a) (rootPtr b) c').l = some (!(nodeAt d c' a y b).left.isRed) ∧
      s.isBlack (cellAt d y (some z.1) (rootPtr a) (rootPtr b) c').r = some (!(nodeAt d c' a y b).right.isRed) := by
    cases d with
    | left => exact ⟨isBlack_eq hyrep.2.1, isBlack_eq hyrep.2.2⟩
    | right => exact ⟨isBlack_eq hyrep.2.2, isBlack_eq hyrep.2.1⟩
  have hycell : s.heap.cells y.1 = some (cellAt d y (some z.1) (rootPtr a) (rootPtr b) c') := hyrep.1
  have hroot := hnode.ne_root (rootPtr_mem hx)
  have hxp : n.p = some z.1 := hxp
  simp only [PointerTree.eraseFixup, deref_eq hxcell, Option.bind_eq_bind, Option.bind_some, if_neg hroot, hxblack,
    Bool.not_false, if_true, hxp, deref_eq hzcell, hsib, deref_eq hycell, hyred, hnephews.1, hnephews.2]
  cases c' with
  | red => simp only [ColorTree.isRed_nodeAt_red, if_true]
  | black =>
      -- the test for two black nephews is the same either way round
      have hboth : ((!(nodeAt d .black a y b).left.isRed && !(nodeAt d .black a y b).right.isRed) = true) ↔
          (a.isRed = false ∧ b.isRed = false) := by
        cases d with
        | left => simp [nodeAt]
        | right => simp [nodeAt, and_comm]
      simp only [ColorTree.isRed_nodeAt_black, Bool.false_eq_true, if_false, reduceCtorEq, hboth]
      by_cases hab : a.isRed = false ∧ b.isRed = false
      · rw [if_pos hab, if_pos hab]
      · rw [if_neg hab, if_neg hab]
        cases d with
        | left =>
            have hl : some x.1 = (cellAt Side.left z (parentPtr fs) (some x.1) (some y.1) c).l := rfl
            rw [if_pos hl]
        | right =>
            have hl : some x.1 ≠ (cellAt Side.right z (parentPtr fs) (some x.1) (some y.1) c).l := by
              intro h
              obtain hxy : x.1 = y.1 := Option.some.inj h
              exact hxsib (hxy ▸ mem_ids_nodeAt)
            rw [if_neg hl]

/-- `root_->c = kBlack` changes nothing any more. -/
theorem Held.blackenRoot_of_around (hs : Held s (plug gs t)) (hgs : Around gs n) (hne : gs ≠ []) :
    ∃ s', s.blackenRoot = some s' ∧ Held s' (plug gs t) ∧ Same s s' := by
  have hnil : plug gs t ≠ .nil := by
    cases gs with
    | nil => exact absurd rfl hne
    | cons g gs => exact plug_ne_nil
  obtain ⟨s', hroot, hs', hsame⟩ := hs.blackenRoot hnil
  rw [paint_of_black (hgs.isRed_plug hne t)] at hs'
  exact ⟨s', hroot, hs', hsame⟩

/-- The tree is ready for a black node less in the place of `t`. -/
def Lowered (s : PointerTree K V) (fs : List (Frame (Elem K V))) (t : ColorTree (Elem K V)) (n : Nat)
    (result : Option (PointerTree K V)) : Prop :=
  ∃ s' gs, result = some s' ∧ Held s' (plug gs t) ∧ Lowers fs gs n ∧ Same s s'

/-- The last step of the loop, with the frames as they have to be. -/
theorem Held.lowered {s₀ : PointerTree K V} {result : Option (PointerTree K V)} (hs : Held s (plug gs t))
    (hgs : Lowers fs gs n) (hne : gs ≠ []) (hsame : Same s₀ s) (hresult : result = some s) :
    Lowered s₀ fs t n (result.bind PointerTree.blackenRoot) := by
  obtain ⟨s', hroot, hs', hsame'⟩ := hs.blackenRoot_of_around hgs.around hne
  refine ⟨s', gs, ?_, hs', hgs, hsame.trans hsame'⟩
  rw [hresult]
  exact hroot

/-- A red nephew is borrowed. -/
theorem Held.lowered_borrow (hs : Held s (plug fs (nodeAt d c t z (nodeAt d .black a y b))))
    (hfs : Around (⟨d, c, z, nodeAt d .black a y b⟩ :: fs) (n + 1)) (hab : ¬(a.isRed = false ∧ b.isRed = false)) :
    Lowered s (⟨d, c, z, nodeAt d .black a y b⟩ :: fs) t n
      ((s.borrow d (some z.1) (some y.1)).bind PointerTree.blackenRoot) := by
  obtain ⟨hra, hrb⟩ := ColorTree.redBlack_black_succ.mp hfs.top
  by_cases ha : a.isRed = true
  · -- the near one goes up twice, whatever the colour of the far one
    obtain ⟨a₁, u, a₂, rfl⟩ := ColorTree.exists_nodeAt_red d ha
    obtain ⟨hra₁, hra₂, ha₁, ha₂⟩ := ColorTree.redBlack_nodeAt_red.mp hra
    obtain ⟨s₁, hbend, hs₁, hsame₁⟩ := hs.bendSibling
    obtain ⟨s₂, hborrow, hs₂, hsame₂⟩ := Held.borrow hbend hs₁ ha₁
    have hgs : Lowers (⟨d, c, z, nodeAt d .black (nodeAt d .red a₁ u a₂) y b⟩ :: fs)
        (⟨d, .black, z, a₁⟩ :: ⟨d, c, u, nodeAt d .black a₂ y b⟩ :: fs) n := by
      apply Lowers.borrow hfs hra₁ (ColorTree.redBlack_black_succ.mpr ⟨hra₂, hrb⟩) ColorTree.isRed_nodeAt_black
      cases d <;> simp [nodeAt]
    exact Held.lowered hs₂ hgs (List.cons_ne_nil _ _) (hsame₁.trans hsame₂) hborrow
  · rw [Bool.not_eq_true] at ha
    have hb : b.isRed = true := by
      rw [← Bool.not_eq_false]
      exact fun h => hab ⟨ha, h⟩
    obtain ⟨b₁, w, b₂, rfl⟩ := ColorTree.exists_nodeAt_red d hb
    obtain ⟨hrb₁, hrb₂, -, -⟩ := ColorTree.redBlack_nodeAt_red.mp hrb
    obtain ⟨s₂, hborrow, hs₂, hsame₂⟩ := Held.borrow (hs.bendSibling_black ha) hs ha
    have hgs : Lowers (⟨d, c, z, nodeAt d .black a y (nodeAt d .red b₁ w b₂)⟩ :: fs)
        (⟨d, .black, z, a⟩ :: ⟨d, c, y, nodeAt d .black b₁ w b₂⟩ :: fs) n := by
      apply Lowers.borrow hfs hra (ColorTree.redBlack_black_succ.mpr ⟨hrb₁, hrb₂⟩) ColorTree.isRed_nodeAt_black
      cases d <;> rfl
    exact Held.lowered hs₂ hgs (List.cons_ne_nil _ _) hsame₂ hborrow

/-- The sibling and its children are black: the sibling becomes red. -/
theorem Held.eraseFixup_paint (hs : Held s (plug fs (nodeAt d c t z (nodeAt d .black a y b)))) (hx : rootPtr t = some x.1)
    (ht : t.isRed = false) (ha : a.isRed = false) (hb : b.isRed = false) (fuel : Nat) :
    ∃ s', Held s' (plug fs (nodeAt d c t z (nodeAt d .red a y b))) ∧ Same s s' ∧
      s.eraseFixup (fuel + 1) (some x.1) =
        if c = .red then (s'.write (some z.1) fun n => n.paint .black).bind PointerTree.blackenRoot
        else s'.eraseFixup fuel (some z.1) := by
  have hy : Held s (plug (⟨d.other, c, z, t⟩ :: fs) (nodeAt d .black a y b)) := by
    rw [← plug_far]
    exact hs
  obtain ⟨s', hwrite, hs', hsame⟩ := hy.paint .red
  rw [← plug_far] at hs'
  refine ⟨s', hs', hsame, ?_⟩
  have hzred := hs'.isRed
  rw [rootPtr_nodeAt] at hzred
  rw [hs.eraseFixup_round hx ht, if_neg (fun h => nomatch h), if_pos ⟨ha, hb⟩, hwrite, Option.bind_some, hzred]
  cases c with
  | red => simp only [Option.bind_some, ColorTree.isRed_nodeAt_red, if_true]
  | black => simp only [Option.bind_some, ColorTree.isRed_nodeAt_black, Bool.false_eq_true, if_false, reduceCtorEq]

/-- Below a red parent, or beside a red nephew, one round is enough. -/
theorem Held.eraseFixup_last (hs : Held s (plug fs (nodeAt d c t z (nodeAt d .black a y b)))) (hx : rootPtr t = some x.1)
    (ht : t.isRed = false) (hfs : Around (⟨d, c, z, nodeAt d .black a y b⟩ :: fs) (n + 1))
    (hlast : c = .red ∨ ¬(a.isRed = false ∧ b.isRed = false)) (fuel : Nat) :
    Lowered s (⟨d, c, z, nodeAt d .black a y b⟩ :: fs) t n (s.eraseFixup (fuel + 1) (some x.1)) := by
  by_cases hab : a.isRed = false ∧ b.isRed = false
  · obtain rfl : c = .red := hlast.resolve_right (fun h => h hab)
    obtain ⟨s₁, hs₁, hsame₁, hround⟩ := hs.eraseFixup_paint hx ht hab.1 hab.2 fuel
    obtain ⟨s₂, hwrite, hs₂, hsame₂⟩ := hs₁.paint .black
    have hs₂ : Held s₂ (plug (⟨d, .black, z, nodeAt d .red a y b⟩ :: fs) t) := hs₂
    rw [hround, if_pos rfl]
    exact hs₂.lowered (.recolour hfs hab.1 hab.2) (List.cons_ne_nil _ _) (hsame₁.trans hsame₂) hwrite
  · rw [hs.eraseFixup_round hx ht, if_neg (fun h => nomatch h), if_neg hab]
    exact hs.lowered_borrow hfs hab

/-- **The loop of `erase_fixup`.** -/
theorem Held.eraseFixup (hs : Held s (plug fs t)) (hx : rootPtr t = some x.1) (ht : t.isRed = false)
    (hfs : Around fs (n + 1)) (hfuel : fs.length + 1 < fuel) : Lowered s fs t n (s.eraseFixup fuel (some x.1)) := by
  -- the loop climbs by one frame, or turns the sibling first and then stops
  induction fs generalizing s t x n fuel with
  | nil =>
      obtain ⟨fuel, rfl⟩ : ∃ m, fuel = m + 1 := ⟨fuel - 1, by omega⟩
      have hne : plug ([] : List (Frame (Elem K V))) t ≠ .nil := by
        rintro rfl
        cases hx
      obtain ⟨m, hxcell, -⟩ := hs.cell_of_rootPtr hx
      obtain ⟨s', hroot, hs', hsame⟩ := hs.blackenRoot hne
      have hs' : Held s' (t.paint .black) := hs'
      rw [paint_of_black ht] at hs'
      refine ⟨s', [], ?_, hs', .root n, hsame⟩
      have hxroot : some x.1 = s.root := by
        rw [hs.root]
        exact hx.symm
      simp only [PointerTree.eraseFixup, deref_eq hxcell, Option.bind_eq_bind, Option.bind_some, if_pos hxroot, hroot]
  | cons f fs ih =>
      obtain ⟨d, c, z, sib⟩ := f
      have hz : Held s (plug fs (nodeAt d c t z sib)) := hs
      have hsib := hfs.top
      simp only [List.length_cons] at hfuel
      obtain ⟨fuel, rfl⟩ : ∃ m, fuel = m + 2 := ⟨fuel - 2, by omega⟩
      by_cases hred : sib.isRed = true
      · -- the parent of a red sibling is black, and the sibling's children are black nodes
        obtain ⟨a, y, b, rfl⟩ := ColorTree.exists_nodeAt_red d hred
        obtain ⟨hra, hrb, ha, hb⟩ := ColorTree.redBlack_nodeAt_red.mp hsib
        cases hfs with
        | red _ hblack =>
            rw [hred] at hblack
            cases hblack
        | black _ hfs =>
            obtain ⟨a₁, u, a₂, rfl, -, -⟩ := hra.exists_black ha d
            obtain ⟨b₁, w, b₂, rfl, -, -⟩ := hrb.exists_black hb d
            have hne : ∀ (l : ColorTree (Elem K V)) (v : Elem K V) (r : ColorTree (Elem K V)),
                nodeAt d .black l v r ≠ .nil := by
              intro l v r
              cases d <;> exact fun h => nomatch h
            obtain ⟨s₁, hturn, hs₁, hsame₁⟩ := hz.turnSibling ha hb (hne _ _ _) (hne _ _ _)
            have hz₁ : Held s₁ (plug (⟨d, .black, y, nodeAt d .black b₁ w b₂⟩ :: fs)
                (nodeAt d .red t z (nodeAt d .black a₁ u a₂))) := hs₁
            have hfs₁ : Around (⟨d, .red, z, nodeAt d .black a₁ u a₂⟩ :: ⟨d, .black, y, nodeAt d .black b₁ w b₂⟩ :: fs)
                (n + 1) := .red hra ha (.black hrb hfs) rfl (List.cons_ne_nil _ _)
            obtain ⟨s', gs, hloop, hs', hgs, hsame⟩ := hz₁.eraseFixup_last hx ht hfs₁ (Or.inl rfl) fuel
            refine ⟨s', gs, ?_, hs', hgs.turn, hsame₁.trans hsame⟩
            rw [hz.eraseFixup_round hx ht, if_pos rfl, hturn]
            exact hloop
      · rw [Bool.not_eq_true] at hred
        obtain ⟨a, y, b, rfl, hra, hrb⟩ := hsib.exists_black hred d
        by_cases hlast : c = .red ∨ ¬(a.isRed = false ∧ b.isRed = false)
        · exact hz.eraseFixup_last hx ht hfs hlast _
        · -- everything around is black, and the parent lacks a black node instead
          obtain ⟨hc, hab⟩ := not_or.mp hlast
          obtain ⟨ha, hb⟩ := not_not.mp hab
          cases hfs with
          | red => exact absurd rfl hc
          | black _ hfs =>
              obtain ⟨s₁, hs₁, hsame₁, hround⟩ := hz.eraseFixup_paint hx ht ha hb (fuel + 1)
              have hlen : fs.length + 1 < fuel + 1 := by omega
              obtain ⟨s', gs, hloop, hs', hgs, hsame⟩ := ih hs₁ rootPtr_nodeAt ColorTree.isRed_nodeAt_black hfs hlen
              refine ⟨s', ⟨d, .black, z, nodeAt d .red a y b⟩ :: gs, ?_, hs', hgs.climb hra hrb ha hb, hsame₁.trans hsame⟩
              rw [hround, if_neg hc]
              exact hloop

/-! ## Taking a node out

`detach` has three cases, which are all a red-black tree has for a node with at most one child: a red leaf, a
black leaf, and a black node with one red leaf below it. -/

/-- The only child of a node, if there is one, takes its place. -/
theorem Held.splice (hs : Held s (plug fs (nodeAt d c t x .nil))) :
    Held ((s.adopt t (parentPtr fs)).repoint fs (rootPtr t)) (plug fs t) ∧ x.1 ∉ ids (plug fs t) := by
  obtain ⟨hfs, hrep⟩ := hs.focus
  obtain ⟨-, ht, -⟩ := rep_nodeAt.mp hrep
  obtain ⟨hnd, hndfs, hdisj⟩ := hs.nodup_focus
  have hx := hs.apart
  have hsub : ∀ i ∈ ids t, i ∈ ids (nodeAt d c t x .nil) := by
    intro i hi
    exact ids_nodeAt.mem_iff.mpr (List.mem_cons_of_mem _ (List.mem_append_left _ hi))
  have hndt : (ids t).Nodup := by
    obtain ⟨-, hnd⟩ := List.nodup_cons.mp (ids_nodeAt.nodup_iff.mp hnd)
    exact (List.nodup_append.mp hnd).1
  have hfs' : RepFrames (s.adopt t (parentPtr fs)).heap fs (some x.1) := by
    rw [rootPtr_nodeAt] at hfs
    apply hfs.congr
    intro i hi
    exact adopt_cells fun hit => hdisj i (hsub i hit) hi
  refine ⟨⟨rep_plug.mpr ⟨repoint_frames hfs' hndfs, ?_⟩, ?_, ?_⟩, ?_⟩
  · apply (adopt_rep ht hndt).congr
    intro i hi
    exact repoint_cells (hdisj i (hsub i hi))
  · apply repoint_root (t := nodeAt d c t x .nil) _ rfl
    rw [adopt_root]
    exact hs.root
  · rw [ids_plug.nodup_iff]
    refine List.nodup_append.mpr ⟨hndt, hndfs, ?_⟩
    rintro i hi j hj rfl
    exact hdisj i (hsub i hi) hj
  · rw [ids_plug.mem_iff, List.mem_append, not_or]
    exact ⟨hx.1, hx.2.2⟩

/-- `delete node`, for a node that is out of the tree. -/
theorem Held.destroyNode (hs : Held s t) {i : Nat} (hi : i ∉ ids t) :
    ∃ s', s.destroyNode (some i) = some s' ∧ Held s' t ∧ s'.size = s.size := by
  refine ⟨_, rfl, ⟨hs.rep.congr ?_, hs.root, hs.nodup⟩, rfl⟩
  intro j hj
  apply Function.update_of_ne
  rintro rfl
  exact hi hj

/-- The number of children of a node, whichever side they are on. -/
theorem numOfChildren_cellAt {p : Ptr} : (cellAt d x p (rootPtr a) (rootPtr b) c).numOfChildren =
    (if a.isNil then 0 else 1) + (if b.isNil then 0 else 1) := by
  cases d with
  | left => cases a <;> cases b <;> rfl
  | right => cases a <;> cases b <;> rfl

/-- A leaf below another node is unlinked. -/
theorem Held.unlinkLeaf {f : Frame (Elem K V)} (hs : Held s (plug (f :: fs) (nodeAt d c .nil x .nil))) :
    s.unlinkLeaf (some x.1) = some (s.repoint (f :: fs) none) := by
  have hfs := hs.focus.1
  rw [rootPtr_nodeAt] at hfs
  have hroot : s.root ≠ some x.1 := fun h => hs.ne_root mem_ids_nodeAt h.symm
  have hchild : (cellAt f.side f.x (parentPtr fs) (some x.1) (rootPtr f.sib) f.c).l = some x.1 ∨
      (cellAt f.side f.x (parentPtr fs) (some x.1) (rootPtr f.sib) f.c).r = some x.1 := by
    cases f.side with
    | left => exact Or.inl rfl
    | right => exact Or.inr rfl
  unfold PointerTree.unlinkLeaf
  simp only [deref_eq hs.cell, Option.bind_eq_bind, Option.bind_some, if_neg hroot, p_cellAt]
  show (s.deref (some f.x.1)).bind _ = _
  rw [deref_eq hfs.1]
  simp only [Option.bind_some, guard, if_pos hchild, Option.pure_def]
  exact redirect_eq hfs (not_mem_sib hs.apart.2.2)

/-- A black node with a red leaf below it. -/
theorem Held.spliceChild (hs : Held s (plug fs (nodeAt d .black (nodeAt .left .red .nil y .nil) x .nil))) :
    ∃ s', s.spliceChild (some x.1) = some s' ∧ Held s' (plug fs (nodeAt .left .black .nil y .nil)) ∧
      x.1 ∉ ids (plug fs (nodeAt .left .black .nil y .nil)) ∧ s'.size = s.size := by
  obtain ⟨hs₁, hx⟩ := hs.splice
  obtain ⟨s', hpaint, hs', hsame⟩ := hs₁.paint .black
  have hy := (rep_nodeAt.mp hs.focus.2).2.1
  have hchild : (if (cellAt d x (parentPtr fs) (some y.1) none Color.black).l.isSome = true then
      (cellAt d x (parentPtr fs) (some y.1) none Color.black).l else
      (cellAt d x (parentPtr fs) (some y.1) none Color.black).r) = some y.1 := by
    cases d <;> rfl
  have hyred := isRed_eq hy
  rw [ColorTree.isRed_nodeAt_red] at hyred
  have hfs : RepFrames (s.adopt (nodeAt .left .red .nil y .nil) (parentPtr fs)).heap fs (some x.1) := by
    have hfs := hs.focus.1
    rw [rootPtr_nodeAt] at hfs
    apply hfs.congr
    intro i hi
    apply adopt_cells
    intro hit
    exact hs.nodup_focus.2.2 i (ids_nodeAt.mem_iff.mpr (List.mem_cons_of_mem _ (List.mem_append_left _ hit))) hi
  refine ⟨s', ?_, hs', ?_, ?_⟩
  · have hcell := hs.cell
    have hwrite : s.write (some y.1) (fun m => m.setParent (parentPtr fs)) =
        some (s.adopt (nodeAt .left .red .nil y .nil) (parentPtr fs)) := setParent_eq hy
    unfold PointerTree.spliceChild
    rw [rootPtr_nodeAt] at hcell hyred
    simp only [deref_eq hcell, Option.bind_eq_bind, Option.bind_some, rootPtr_nil, hchild, hyred, guard, if_true,
      Option.pure_def, deref_eq hy.1, p_cellAt, hwrite, replaceChild_eq hfs hs.apart.2.2]
    exact hpaint
  · intro hmem
    apply hx
    rw [ids_plug.mem_iff] at hmem ⊢
    exact hmem
  · rw [hsame.size, repoint_size, adopt_size]

/-- A black leaf below another node. -/
theorem Held.dropLeaf {f : Frame (Elem K V)} (hs : Held s (plug (f :: fs) (nodeAt .left .black .nil x .nil)))
    (hfs : Around (f :: fs) 1) :
    ∃ s' gs, s.dropLeaf (some x.1) = some s' ∧ Held s' (plug gs .nil) ∧ x.1 ∉ ids (plug gs .nil) ∧
      Lowers (f :: fs) gs 0 ∧ s'.size = s.size := by
  have hlen : (f :: fs).length + 1 < s.limit := by
    have hle := hs.frames_le
    rw [length_nodeAt] at hle
    unfold limit
    omega
  obtain ⟨s₁, gs, hloop, hs₁, hgs, hsame⟩ := hs.eraseFixup rootPtr_nodeAt ColorTree.isRed_nodeAt_black hfs hlen
  cases gs with
  | nil => exact absurd (hgs.nil.mp rfl) (List.cons_ne_nil _ _)
  | cons g gs =>
      obtain ⟨hs₂, hx⟩ := hs₁.splice
      refine ⟨_, g :: gs, ?_, hs₂, hx, hgs, repoint_size.trans hsame.size⟩
      have hfs₁ := hs₁.focus.1
      rw [rootPtr_nodeAt] at hfs₁
      unfold PointerTree.dropLeaf
      simp only [hloop, Option.bind_eq_bind, Option.bind_some, deref_eq hs₁.cell, p_cellAt]
      exact redirect_eq hfs₁ (not_mem_sib hs₁.apart.2.2)

/-- **The second half of `erase_impl`.** A node without a child on one side leaves the tree; it is not the last one. -/
theorem Held.remove {m : Nat} (hs : Held s (plug fs (nodeAt d c t x .nil))) (hrb : RedBlack (plug fs (nodeAt d c t x .nil)) m)
    (hblack : (plug fs (nodeAt d c t x .nil)).isRed = false) (hlast : fs ≠ [] ∨ t ≠ .nil) :
    ∃ s' t', s.remove (some x.1) = some s' ∧
      Repaired s' (ColorTree.before fs ++ t.toList ++ ColorTree.after fs) t' ∧ s'.size = s.size := by
  -- it is enough to take the node out of the tree
  suffices ∃ s₁ t', s.detach (some x.1) = some s₁ ∧
      Repaired s₁ (ColorTree.before fs ++ t.toList ++ ColorTree.after fs) t' ∧ x.1 ∉ ids t' ∧ s₁.size = s.size by
    obtain ⟨s₁, t', hdetach, hrep, hx, hsize⟩ := this
    obtain ⟨s', hfree, hs', hsize'⟩ := hrep.held.destroyNode hx
    refine ⟨s', t', ?_, ⟨hs', hrep.redBlack, hrep.black, hrep.elems⟩, hsize'.trans hsize⟩
    unfold PointerTree.remove
    rw [hdetach]
    exact hfree
  obtain ⟨n, hnode, hfs, htop⟩ := hrb.unplug hblack
  have hcell := hs.cell
  -- what is put in the place of the node closes the tree up to a red-black one again
  have hfill : ∀ {gs : List (Frame (Elem K V))} {n : Nat} {u : ColorTree (Elem K V)}, Around gs n → RedBlack u n → u.isRed = false →
      ∃ m, RedBlack (plug gs u) m ∧ (plug gs u).isRed = false := by
    intro gs n u hgs hu hc
    obtain ⟨m, hm, hroot⟩ := hgs.plug hu (fun h => by rw [hc] at h; cases h)
    refine ⟨m, hm, ?_⟩
    cases gs with
    | nil => exact hc
    | cons g gs => exact hroot (List.cons_ne_nil _ _)
  unfold PointerTree.detach
  simp only [deref_eq hcell, Option.bind_eq_bind, Option.bind_some, c_cellAt, numOfChildren_cellAt]
  rcases hnode.half with ⟨rfl, rfl, rfl⟩ | ⟨rfl, rfl, rfl⟩ | ⟨rfl, rfl, y, rfl⟩
  · -- a red leaf
    cases fs with
    | nil =>
        have hred : (nodeAt d .red .nil x .nil).isRed = false := hblack
        rw [ColorTree.isRed_nodeAt_red] at hred
        cases hred
    | cons f fs =>
        obtain ⟨hs₁, hx⟩ := hs.splice
        obtain ⟨m', hm', hroot⟩ := hfill hfs .nil rfl
        refine ⟨_, _, ?_, ⟨hs₁, ⟨m', hm'⟩, hroot, ColorTree.toList_plug _ _⟩, hx, repoint_size⟩
        rw [if_pos ⟨rfl, rfl⟩]
        exact hs.unlinkLeaf
  · -- a black leaf
    cases fs with
    | nil => exact absurd hlast (by simp)
    | cons f fs =>
        have hs : Held s (plug (f :: fs) (nodeAt .left .black .nil x .nil)) := by
          cases d <;> exact hs
        obtain ⟨s₁, gs, hdrop, hs₁, hx, hgs, hsize⟩ := hs.dropLeaf hfs
        obtain ⟨m', hm', hroot⟩ := hfill hgs.around .nil rfl
        rw [if_neg (fun h => nomatch h.1), if_neg (fun h => nomatch h.2)]
        refine ⟨s₁, _, hdrop, ⟨hs₁, ⟨m', hm'⟩, hroot, ?_⟩, hx, hsize⟩
        rw [ColorTree.toList_plug, hgs.before, hgs.after]
  · -- a black node with a red leaf below it
    obtain ⟨s₁, hsplice, hs₁, hx, hsize⟩ := hs.spliceChild
    obtain ⟨m', hm', hroot⟩ := hfill (u := nodeAt .left .black .nil y .nil) hfs (.black .nil .nil) rfl
    rw [if_neg (fun h => nomatch h.1), if_pos ⟨rfl, rfl⟩]
    exact ⟨s₁, _, hsplice, ⟨hs₁, ⟨m', hm'⟩, hroot, ColorTree.toList_plug _ _⟩, hx, hsize⟩

/-- `erase_impl` of a node without a child on one side. -/
theorem Held.eraseImpl_half {m : Nat} (hs : Held s (plug fs (nodeAt d c t x .nil)))
    (hrb : RedBlack (plug fs (nodeAt d c t x .nil)) m) (hblack : (plug fs (nodeAt d c t x .nil)).isRed = false) :
    ∃ s' t', s.eraseImpl (some x.1) = some s' ∧
      Repaired s' (ColorTree.before fs ++ t.toList ++ ColorTree.after fs) t' ∧ s'.size = s.size := by
  obtain ⟨n, hnode, -, -⟩ := hrb.unplug hblack
  have hcell := hs.cell
  by_cases hlast : fs ≠ [] ∨ t ≠ .nil
  · obtain ⟨s', t', hremove, hrep, hsize⟩ := hs.remove hrb hblack hlast
    refine ⟨s', t', ?_, hrep, hsize⟩
    have hroot : ¬(some x.1 = s.root ∧ t = .nil) := by
      rintro ⟨hroot, rfl⟩
      cases fs with
      | nil => exact absurd hlast (by simp)
      | cons f fs => exact hs.ne_root mem_ids_nodeAt hroot
    unfold PointerTree.eraseImpl
    simp only [deref_eq hcell, Option.bind_eq_bind, Option.bind_some, c_cellAt, numOfChildren_cellAt]
    rcases hnode.half with ⟨rfl, rfl, rfl⟩ | ⟨rfl, rfl, rfl⟩ | ⟨rfl, rfl, y, rfl⟩
    · rw [if_pos ⟨rfl, rfl⟩]
      exact hremove
    · rw [if_neg (fun h => nomatch h.2), if_neg (fun h => hroot ⟨h.1, rfl⟩), if_neg (fun h => nomatch h.2), if_pos ⟨rfl, rfl⟩]
      exact hremove
    · rw [if_neg (fun h => nomatch h.1), if_neg (fun h => nomatch h.2), if_pos ⟨rfl, rfl⟩]
      exact hremove
  · -- the last node of the tree
    obtain ⟨hnil, hleaf⟩ := not_or.mp hlast
    obtain rfl := not_not.mp hnil
    obtain rfl := not_not.mp hleaf
    have hc : c = .black := by
      cases c with
      | red =>
          have hred : (nodeAt d .red .nil x .nil).isRed = false := hblack
          rw [ColorTree.isRed_nodeAt_red] at hred
          cases hred
      | black => rfl
    have hroot : some x.1 = s.root := by
      rw [hs.root]
      exact rootPtr_nodeAt.symm
    have hs₁ : Held { s with root := none } (.nil : ColorTree (Elem K V)) := ⟨trivial, rfl, List.nodup_nil⟩
    obtain ⟨s', hfree, hs', hsize⟩ := hs₁.destroyNode (i := x.1) (fun h => nomatch h)
    refine ⟨s', .nil, ?_, ⟨hs', ⟨0, .nil⟩, rfl, rfl⟩, hsize⟩
    unfold PointerTree.eraseImpl
    simp only [deref_eq hcell, Option.bind_eq_bind, Option.bind_some, c_cellAt, numOfChildren_cellAt]
    rw [hc, if_neg (fun h => nomatch h.2), if_pos ⟨hroot, rfl⟩]
    exact hfree

/-! ## `erase`

The two ends together: the last node of the tree, which `erase_impl` takes out itself, and any other, which it
removes. -/

variable {cmp : Comparator K} {k : K}

/-- `erase` of a key that is there. -/
theorem Owned.erase_eq (h : Owned cmp s t) (hx : x ∈ t.toList) (heq : cmp.equiv k (keyOf x) = true) :
    s.erase cmp k = (s.eraseImpl (some x.1)).bind fun s =>
      if 1 ≤ s.size then some ({ s with size := s.size - 1 }, 1) else none := by
  obtain ⟨as, bs, hlist⟩ := List.append_of_mem hx
  obtain ⟨fs, c, l, r, rfl, -, -⟩ := ColorTree.exists_plug hlist
  have hfocus : Held s (plug fs (nodeAt .left c l x r)) := h.held
  have hsucc : s.successor (some x.1) = _ := neighbour_eq hfocus
  unfold PointerTree.erase
  simp only [h.find_present hx heq, Option.bind_eq_bind, Option.bind_some, reduceCtorEq, if_false, hsucc]
  congr 1
  funext s'
  by_cases hsize : 1 ≤ s'.size
  · rw [if_pos hsize]
    simp only [guard, if_pos hsize, Option.pure_def, Option.bind_some]
  · rw [if_neg hsize]
    simp only [guard, if_neg hsize]
    rfl

/-- An element less, in a tree that has been repaired. -/
theorem Owned.erased {s₁ : PointerTree K V} {t' : ColorTree (Elem K V)} {as bs : List (Elem K V)} (h : Owned cmp s t)
    (heq : cmp.equiv k (keyOf x) = true) (hlist : t.toList = as ++ x :: bs)
    (himpl : s.eraseImpl (some x.1) = some s₁) (hrep : Repaired s₁ (as ++ bs) t') (hsize : s₁.size = s.size) :
    ∃ s', s.erase cmp k = some (s', 1) ∧ Owned cmp s' t' ∧ s'.size + 1 = s.size := by
  have hlen := h.size
  rw [hlist, List.length_append, List.length_cons] at hlen
  have hpos : 1 ≤ s₁.size := by omega
  have hx : x ∈ t.toList := by
    rw [hlist]
    simp
  have ho := h.ordered
  rw [hlist] at ho
  refine ⟨{ s₁ with size := s₁.size - 1 }, ?_, ⟨⟨hrep.held.rep, hrep.held.root, hrep.held.nodup⟩, ?_, hrep.redBlack,
    hrep.black, ?_⟩, ?_⟩
  · rw [h.erase_eq hx heq, himpl, Option.bind_some, if_pos hpos]
  · rw [hrep.elems]
    exact ho.sublist ((List.sublist_cons_self x bs).append_left as)
  · show s₁.size - 1 = _
    rw [hrep.elems, List.length_append]
    omega
  · show s₁.size - 1 + 1 = _
    omega

/-- **`erase` of a node with fewer than two children** takes its element out of the red-black search tree, and nothing
    else. -/
theorem redBlackTree_erase_half {i : Nat} {node : RBNode K V} (h : RedBlackTree cmp s t)
    (hfind : s.find cmp k = some (some i)) (hnode : s.heap.cells i = some node) (hchildren : node.numOfChildren < 2) :
    ∃ s' t' x as bs, s.erase cmp k = some (s', 1) ∧ RedBlackTree cmp s' t' ∧ cmp.equiv k (keyOf x) = true ∧ x.1 = i ∧
      t.toList = as ++ x :: bs ∧ t'.toList = as ++ bs ∧ s'.size + 1 = s.size := by
  have howned := h.owned
  obtain ⟨m, hm⟩ := howned.redBlack
  rcases ColorTree.seek_cases howned.ordered k with ⟨fs, c, l, x, r, hseek, rfl, heq⟩ | ⟨fs, hseek, -⟩
  · rw [howned.find_eq, hseek] at hfind
    obtain rfl : x.1 = i := Option.some.inj (Option.some.inj hfind)
    have hlist : (plug fs (.node c l x r)).toList =
        (ColorTree.before fs ++ l.toList) ++ x :: (r.toList ++ ColorTree.after fs) := by
      rw [ColorTree.toList_plug]
      simp
    -- the side on which there is no child
    obtain ⟨d, u, hhalf, hu⟩ : ∃ d u, ColorTree.node c l x r = nodeAt d c u x .nil ∧ u.toList = l.toList ++ r.toList := by
      have hcell := (show Held s (plug fs (nodeAt .left c l x r)) from howned.held).cell
      rw [hnode] at hcell
      obtain rfl := Option.some.inj hcell
      rw [numOfChildren_cellAt] at hchildren
      cases r with
      | nil => exact ⟨.left, l, rfl, by simp⟩
      | node c₂ l₂ x₂ r₂ =>
          cases l with
          | nil => exact ⟨.right, _, rfl, rfl⟩
          | node => exact absurd hchildren (by simp)
    have hheld := howned.held
    have hblack := howned.black
    rw [hhalf] at hheld hm hblack
    obtain ⟨s₁, t', himpl, hrep, hsize⟩ := hheld.eraseImpl_half hm hblack
    have hrep : Repaired s₁ ((ColorTree.before fs ++ l.toList) ++ (r.toList ++ ColorTree.after fs)) t' := by
      rw [hu] at hrep
      simpa using hrep
    obtain ⟨s', herase, howned', hsize'⟩ := howned.erased heq hlist himpl hrep hsize
    exact ⟨s', t', x, _, _, herase, howned'.redBlackTree, heq, rfl, hlist, hrep.elems, hsize'⟩
  · rw [howned.find_eq, hseek] at hfind
    cases hfind

/-- The tree that insertions of numbers give. -/
def built (ps : List (Nat × Nat)) : PointerTree Nat Nat := ((empty : PointerTree Nat Nat).inserts Comparator.nat ps).getD empty

/-- The inserts of a list of distinct keys give a tree that is owned. -/
theorem owned_built {ps : List (Nat × Nat)} (hps : ps.Pairwise fun p q => Comparator.nat.equiv p.1 q.1 = false) :
    (empty : PointerTree Nat Nat).inserts Comparator.nat ps = some (built ps) ∧ ∃ t, Owned Comparator.nat (built ps) t := by
  obtain ⟨s, t, hins, h, -⟩ := owned_empty.inserts (fun p _ x hx => (nomatch hx)) hps
  have hs : built ps = s := by
    unfold built
    rw [hins]
    rfl
  exact ⟨hs ▸ hins, t, hs ▸ h⟩

/-- A tree of three keys. -/
def threeKeys : PointerTree Nat Nat := built [(2, 20), (1, 10), (3, 30)]

/-- `erase(1)` in the tree of the keys 2, 1, 3. -/
theorem redBlackTree_erase_half_leaf : ∃ s' t', threeKeys.erase Comparator.nat 1 = some (s', 1) ∧
    RedBlackTree Comparator.nat s' t' ∧ s'.size + 1 = threeKeys.size := by
  obtain ⟨-, t, h⟩ := owned_built (show List.Pairwise _ [(2, 20), (1, 10), (3, 30)] by decide)
  have hfind : threeKeys.find Comparator.nat 1 = some (some 1) := by decide +kernel
  have hleaf : (threeKeys.heap.cells 1).map RBNode.numOfChildren = some 0 := by decide +kernel
  obtain ⟨node, hnode, hzero⟩ := Option.map_eq_some_iff.mp hleaf
  obtain ⟨s', t', -, -, -, herase, htree, -, -, -, -, hsize⟩ :=
    redBlackTree_erase_half h.redBlackTree hfind hnode (by omega)
  exact ⟨s', t', herase, htree, hsize⟩

end PointerTree
end Snippets
