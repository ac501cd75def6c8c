import Snippets.Lib.LeftLeaningBalance

/-!
# `Lib.RedBlack` — red-black trees seen from a node

A red-black tree as the algorithms that climb by parent links see it: a subtree, and around it the frames of its
ancestors, the innermost first. `plug fs t` is the whole tree.

* `RedBlack t n`: no red node of `t` has a red child, and every path to a leaf meets `n` black nodes.
* `Around fs n`: the frames make a red-black tree with a black root of any subtree of black height `n` that is not a
  red child of a red node.

The repairs of insertion and deletion are steps from one pair of frames and subtree to another; each has its rule.
Left and right are treated alike: a node is written with its child on a given `Side` first.
-/

namespace Snippets
namespace Lib

/-- The two sides of a node. -/
inductive Side
  | left
  | right
deriving DecidableEq

/-- The side across. -/
def Side.other : Side → Side
  | .left => .right
  | .right => .left

@[simp] theorem Side.other_other (side : Side) : side.other.other = side := by cases side <;> rfl

/-- There are two sides. -/
theorem Side.eq_or_other (side side' : Side) : side' = side ∨ side' = side.other := by
  cases side <;> cases side' <;> simp [Side.other]

namespace ColorTree

variable {α : Type} {t l r near far : ColorTree α} {x : α} {c : Color} {n : Nat} {side : Side}

/-- The node whose child on `side` is `near`. -/
def nodeAt (side : Side) (c : Color) (near : ColorTree α) (x : α) (far : ColorTree α) : ColorTree α :=
  match side with
  | .left => node c near x far
  | .right => node c far x near

/-- Read from the other side, the children change places. -/
theorem nodeAt_other : nodeAt side.other c near x far = nodeAt side c far x near := by cases side <;> rfl

@[simp] theorem isRed_nodeAt_red : (nodeAt side .red near x far).isRed = true := by cases side <;> rfl

@[simp] theorem isRed_nodeAt_black : (nodeAt side .black near x far).isRed = false := by cases side <;> rfl

/-- A tree with a root, read from a side. -/
theorem exists_nodeAt (side : Side) (h : t ≠ nil) : ∃ c near x far, t = nodeAt side c near x far := by
  cases t with
  | nil => exact absurd rfl h
  | node c l x r =>
      cases side with
      | left => exact ⟨c, l, x, r, rfl⟩
      | right => exact ⟨c, r, x, l, rfl⟩

/-- The empty tree is black. -/
theorem ne_nil_of_isRed (h : t.isRed = true) : t ≠ nil := by
  rintro rfl
  cases h

/-- A red tree, read from a side. -/
theorem exists_nodeAt_red (side : Side) (h : t.isRed = true) : ∃ near x far, t = nodeAt side .red near x far := by
  obtain ⟨c, near, x, far, rfl⟩ := exists_nodeAt side (ne_nil_of_isRed h)
  cases c with
  | red => exact ⟨near, x, far, rfl⟩
  | black =>
      rw [isRed_nodeAt_black] at h
      cases h

/-! ## Frames

A frame is a node with a hole in place of one child. The frames from a node to the root are what the algorithms
climb through. -/

/-- An ancestor: the hole is on `side`, and `sib` is the subtree on the other side. -/
structure Frame (α : Type) where
  side : Side
  c : Color
  x : α
  sib : ColorTree α

namespace Frame

/-- The node with its hole filled. -/
def fill (f : Frame α) (t : ColorTree α) : ColorTree α := nodeAt f.side f.c t f.x f.sib

/-- What comes before the hole, in order. -/
def before (f : Frame α) : List α :=
  match f.side with
  | .left => []
  | .right => f.sib.toList ++ [f.x]

/-- What comes after the hole, in order. -/
def after (f : Frame α) : List α :=
  match f.side with
  | .left => f.x :: f.sib.toList
  | .right => []

/-- The hole lies between what comes before it and what comes after it. -/
theorem toList_fill (f : Frame α) (t : ColorTree α) : (f.fill t).toList = f.before ++ t.toList ++ f.after := by
  obtain ⟨side, c, x, sib⟩ := f
  cases side <;> simp [fill, before, after, nodeAt]

end Frame

/-- The whole tree around a subtree. -/
def plug : List (Frame α) → ColorTree α → ColorTree α
  | [], t => t
  | f :: fs, t => plug fs (f.fill t)

/-- All that comes before the hole of the innermost frame. -/
def before : List (Frame α) → List α
  | [] => []
  | f :: fs => before fs ++ f.before

/-- All that comes after it. -/
def after : List (Frame α) → List α
  | [] => []
  | f :: fs => f.after ++ after fs

variable {fs gs : List (Frame α)} {f : Frame α}

/-- Frames around frames. -/
theorem plug_append (fs gs : List (Frame α)) (t : ColorTree α) : plug (fs ++ gs) t = plug gs (plug fs t) := by
  induction fs generalizing t with
  | nil => rfl
  | cons f fs ih => exact ih (f.fill t)

/-- The elements of the whole tree, around those of the subtree. -/
theorem toList_plug (fs : List (Frame α)) (t : ColorTree α) : (plug fs t).toList = before fs ++ t.toList ++ after fs := by
  induction fs generalizing t with
  | nil => simp [plug, before, after]
  | cons f fs ih =>
      show (plug fs (f.fill t)).toList = _
      rw [ih, Frame.toList_fill]
      simp [before, after]

/-- A tree is as long as a subtree and the ancestors of it, at least. -/
theorem le_length_plug (fs : List (Frame α)) (t : ColorTree α) :
    t.toList.length + fs.length ≤ (plug fs t).toList.length := by
  induction fs generalizing t with
  | nil => exact Nat.le_refl _
  | cons f fs ih =>
      have hfill : t.toList.length + 1 ≤ (f.fill t).toList.length := by
        obtain ⟨side, c, x, sib⟩ := f
        cases side with
        | left =>
            simp only [Frame.fill, nodeAt, toList_node, List.length_append, List.length_cons]
            omega
        | right =>
            simp only [Frame.fill, nodeAt, toList_node, List.length_append, List.length_cons]
            omega
      have hplug := ih (f.fill t)
      rw [List.length_cons]
      exact Nat.le_trans (by omega) hplug

/-- The outer frames come before the inner ones. -/
theorem before_append (fs gs : List (Frame α)) : before (fs ++ gs) = before gs ++ before fs := by
  induction fs with
  | nil => simp [before]
  | cons f fs ih => simp [before, ih]

/-- And after them. -/
theorem after_append (fs gs : List (Frame α)) : after (fs ++ gs) = after fs ++ after gs := by
  induction fs with
  | nil => simp [after]
  | cons f fs ih => simp [after, ih]

/-- Every element of a tree is the root of a subtree of it. -/
theorem exists_plug {as bs : List α} (h : t.toList = as ++ x :: bs) :
    ∃ fs c l r, t = plug fs (node c l x r) ∧ as = before fs ++ l.toList ∧ bs = r.toList ++ after fs := by
  suffices ∀ gs : List (Frame α), ∃ fs c l r, plug gs t = plug fs (node c l x r) ∧
      before gs ++ as = before fs ++ l.toList ∧ bs ++ after gs = r.toList ++ after fs by
    obtain ⟨fs, c, l, r, h₁, h₂, h₃⟩ := this []
    refine ⟨fs, c, l, r, h₁, ?_, ?_⟩
    · simpa [before] using h₂
    · simpa [after] using h₃
  intro gs
  induction t generalizing gs as bs with
  | nil =>
      rw [toList_nil] at h
      exact absurd h.symm (by simp)
  | node c l y r ihl ihr =>
      rw [toList_node] at h
      rcases List.append_eq_append_iff.mp h with ⟨cs, has, hcs⟩ | ⟨cs, hl, hcs⟩
      · cases cs with
        | nil =>
            -- the root itself
            obtain ⟨rfl, rfl⟩ := List.cons.inj hcs
            refine ⟨gs, c, l, r, rfl, ?_, rfl⟩
            rw [has, List.append_nil]
        | cons z cs =>
            -- in the right subtree
            obtain ⟨rfl, hr⟩ := List.cons.inj hcs
            obtain ⟨fs, c', l', r', hplug, hbefore, hafter⟩ := ihr hr (⟨.right, c, y, l⟩ :: gs)
            refine ⟨fs, c', l', r', hplug, ?_, hafter⟩
            rw [has, ← hbefore]
            simp [before, Frame.before]
      · cases cs with
        | nil =>
            -- the root itself
            obtain ⟨rfl, rfl⟩ := List.cons.inj hcs
            refine ⟨gs, c, l, r, rfl, ?_, rfl⟩
            rw [hl, List.append_nil]
        | cons z cs =>
            -- in the left subtree
            obtain ⟨rfl, rfl⟩ := List.cons.inj hcs
            obtain ⟨fs, c', l', r', hplug, hbefore, hafter⟩ := ihl hl (⟨.left, c, y, r⟩ :: gs)
            refine ⟨fs, c', l', r', hplug, ?_, ?_⟩
            · rw [← hbefore]
              simp [before, Frame.before]
            · rw [← hafter]
              simp [after, Frame.after]

/-! ## Balance -/

/-- Every path meets `n` black nodes, and no red node has a red child. -/
inductive RedBlack : ColorTree α → Nat → Prop
  | nil : RedBlack nil 0
  | red {l r : ColorTree α} {x : α} {n : Nat} :
      RedBlack l n → RedBlack r n → l.isRed = false → r.isRed = false → RedBlack (node .red l x r) n
  | black {l r : ColorTree α} {x : α} {n : Nat} :
      RedBlack l n → RedBlack r n → RedBlack (node .black l x r) (n + 1)

/-- A red node, from either side. -/
theorem redBlack_nodeAt_red : RedBlack (nodeAt side .red near x far) n ↔
    RedBlack near n ∧ RedBlack far n ∧ near.isRed = false ∧ far.isRed = false := by
  cases side with
  | left =>
      constructor
      · rintro (_ | ⟨hl, hr, h₁, h₂⟩)
        exact ⟨hl, hr, h₁, h₂⟩
      · rintro ⟨hl, hr, h₁, h₂⟩
        exact .red hl hr h₁ h₂
  | right =>
      constructor
      · rintro (_ | ⟨hl, hr, h₁, h₂⟩)
        exact ⟨hr, hl, h₂, h₁⟩
      · rintro ⟨hl, hr, h₁, h₂⟩
        exact .red hr hl h₂ h₁

/-- A black node, from either side. -/
theorem redBlack_nodeAt_black : RedBlack (nodeAt side .black near x far) n ↔
    ∃ m, n = m + 1 ∧ RedBlack near m ∧ RedBlack far m := by
  cases side with
  | left =>
      constructor
      · rintro (_ | _ | ⟨hl, hr⟩)
        exact ⟨_, rfl, hl, hr⟩
      · rintro ⟨m, rfl, hl, hr⟩
        exact .black hl hr
  | right =>
      constructor
      · rintro (_ | _ | ⟨hl, hr⟩)
        exact ⟨_, rfl, hr, hl⟩
      · rintro ⟨m, rfl, hl, hr⟩
        exact .black hr hl

/-- The same with the height given. -/
theorem redBlack_black_succ : RedBlack (nodeAt side .black near x far) (n + 1) ↔ RedBlack near n ∧ RedBlack far n := by
  rw [redBlack_nodeAt_black]
  constructor
  · rintro ⟨m, hm, h⟩
    obtain rfl : n = m := Nat.succ.inj hm
    exact h
  · intro h
    exact ⟨n, rfl, h⟩

/-- Without black nodes there is at most a red one. -/
theorem RedBlack.zero (h : RedBlack t 0) : t = .nil ∨ ∃ x, t = .node .red .nil x .nil := by
  cases h with
  | nil => exact Or.inl rfl
  | @red l r x n hl hr h₁ h₂ =>
      right
      cases hl with
      | nil =>
          cases hr with
          | nil => exact ⟨x, rfl⟩
          | red => cases h₂
      | red => cases h₁

/-- A black tree of height 0 is empty. -/
theorem RedBlack.eq_nil (h : RedBlack t 0) (hc : t.isRed = false) : t = .nil := by
  rcases h.zero with rfl | ⟨x, rfl⟩
  · rfl
  · cases hc

/-- A black tree of positive height, read from a side. -/
theorem RedBlack.exists_black (h : RedBlack t (n + 1)) (hc : t.isRed = false) (side : Side) :
    ∃ near x far, t = nodeAt side .black near x far ∧ RedBlack near n ∧ RedBlack far n := by
  have hne : t ≠ .nil := by
    rintro rfl
    cases h
  obtain ⟨c, near, x, far, rfl⟩ := exists_nodeAt side hne
  cases c with
  | red =>
      rw [isRed_nodeAt_red] at hc
      cases hc
  | black => exact ⟨near, x, far, rfl, redBlack_black_succ.mp h⟩

/-- A node without a child on one side has at most a red leaf on the other. -/
theorem RedBlack.half (h : RedBlack (nodeAt side c t x .nil) n) :
    (c = .red ∧ n = 0 ∧ t = .nil) ∨ (c = .black ∧ n = 1 ∧ t = .nil) ∨
      (c = .black ∧ n = 1 ∧ ∃ y, t = .node .red .nil y .nil) := by
  cases c with
  | red =>
      obtain ⟨ht, hnil, hc, -⟩ := redBlack_nodeAt_red.mp h
      cases hnil with
      | nil => exact Or.inl ⟨rfl, rfl, ht.eq_nil hc⟩
  | black =>
      obtain ⟨m, rfl, ht, hnil⟩ := redBlack_nodeAt_black.mp h
      cases hnil with
      | nil => exact Or.inr (ht.zero.imp (fun h => ⟨rfl, rfl, h⟩) (fun h => ⟨rfl, rfl, h⟩))

/-- The root can be painted black. -/
theorem RedBlack.paint_black (h : RedBlack t n) : ∃ m, RedBlack (t.paint .black) m := by
  cases h with
  | nil => exact ⟨0, .nil⟩
  | red hl hr => exact ⟨_, .black hl hr⟩
  | black hl hr => exact ⟨_, .black hl hr⟩

/-- The children of red nodes are black. -/
theorem RedBlack.subtrees (h : RedBlack t n) :
    ∀ u ∈ t.subtrees, u.isRed = true → u.left.isRed = false ∧ u.right.isRed = false := by
  induction h with
  | nil =>
      intro u hu
      rw [ColorTree.subtrees, List.mem_singleton] at hu
      rw [hu]
      simp
  | red hl hr h₁ h₂ ihl ihr =>
      intro u hu
      rw [ColorTree.subtrees] at hu
      rcases List.mem_cons.mp hu with rfl | hu
      · exact fun _ => ⟨h₁, h₂⟩
      · exact (List.mem_append.mp hu).elim (ihl u) (ihr u)
  | black hl hr ihl ihr =>
      intro u hu
      rw [ColorTree.subtrees] at hu
      rcases List.mem_cons.mp hu with rfl | hu
      · intro hred
        cases hred
      · exact (List.mem_append.mp hu).elim (ihl u) (ihr u)

/-- Every way down meets the same number of black nodes. -/
theorem RedBlack.blackCounts (h : RedBlack t n) : ∀ b ∈ t.blackCounts, b = n := by
  induction h with
  | nil => simp [ColorTree.blackCounts]
  | red hl hr h₁ h₂ ihl ihr =>
      intro b hb
      simp only [ColorTree.blackCounts, List.mem_map, List.mem_append] at hb
      obtain ⟨m, hm | hm, rfl⟩ := hb
      · exact ihl m hm
      · exact ihr m hm
  | black hl hr ihl ihr =>
      intro b hb
      simp only [ColorTree.blackCounts, List.mem_map, List.mem_append] at hb
      obtain ⟨m, hm | hm, rfl⟩ := hb
      · rw [ihl m hm]
        rfl
      · rw [ihr m hm]
        rfl

/-- There is a way down in every tree. -/
theorem blackCounts_ne_nil (t : ColorTree α) : ∃ b, b ∈ t.blackCounts := by
  induction t with
  | nil => exact ⟨0, List.mem_singleton.mpr rfl⟩
  | node c l x r ihl ihr =>
      obtain ⟨b, hb⟩ := ihl
      exact ⟨_, List.mem_map_of_mem (List.mem_append_left _ hb)⟩

/-- A tree has one black height. -/
theorem RedBlack.height_unique {m : Nat} (h : RedBlack t n) (h' : RedBlack t m) : n = m := by
  obtain ⟨b, hb⟩ := blackCounts_ne_nil t
  exact (h.blackCounts b hb).symm.trans (h'.blackCounts b hb)

/-- A tree is a subtree of itself. -/
theorem mem_subtrees_self (t : ColorTree α) : t ∈ t.subtrees := by
  cases t <;> exact List.mem_cons_self

/-- The two rules that make a tree red-black. -/
theorem redBlack_of_rules (hcolor : ∀ u ∈ t.subtrees, u.isRed = true → u.left.isRed = false ∧ u.right.isRed = false)
    (hcount : ∀ a ∈ t.blackCounts, a = n) : RedBlack t n := by
  -- by induction on the tree, with the rules for the children taken from those for the whole
  induction t generalizing n with
  | nil =>
      obtain rfl : 0 = n := hcount 0 (List.mem_singleton.mpr rfl)
      exact .nil
  | node c l x r ihl ihr =>
      have hl : ∀ u ∈ l.subtrees, u.isRed = true → u.left.isRed = false ∧ u.right.isRed = false := by
        intro u hu
        exact hcolor u (List.mem_cons_of_mem _ (List.mem_append_left _ hu))
      have hr : ∀ u ∈ r.subtrees, u.isRed = true → u.left.isRed = false ∧ u.right.isRed = false := by
        intro u hu
        exact hcolor u (List.mem_cons_of_mem _ (List.mem_append_right _ hu))
      have hmap : ∀ a ∈ l.blackCounts ++ r.blackCounts, (if c = .black then a + 1 else a) = n := by
        intro a ha
        exact hcount _ (List.mem_map_of_mem ha)
      cases c with
      | red =>
          obtain ⟨h₁, h₂⟩ := hcolor _ (mem_subtrees_self _) rfl
          exact .red (ihl hl fun a ha => hmap a (List.mem_append_left _ ha))
            (ihr hr fun a ha => hmap a (List.mem_append_right _ ha)) h₁ h₂
      | black =>
          obtain ⟨b, hb⟩ := blackCounts_ne_nil l
          obtain rfl : b + 1 = n := hmap b (List.mem_append_left _ hb)
          apply RedBlack.black
          · exact ihl hl fun a ha => Nat.succ.inj (hmap a (List.mem_append_left _ ha))
          · exact ihr hr fun a ha => Nat.succ.inj (hmap a (List.mem_append_right _ ha))

/-! ## Frames around a subtree -/

/-- Is the nearest ancestor red? -/
def topRed : List (Frame α) → Bool
  | [] => false
  | f :: _ => f.c = .red

/-- The frames fit a subtree of black height `n`, and their root is black. -/
inductive Around : List (Frame α) → Nat → Prop
  | nil {n : Nat} : Around [] n
  | red {side : Side} {x : α} {sib : ColorTree α} {fs : List (Frame α)} {n : Nat} :
      RedBlack sib n → sib.isRed = false → Around fs n → topRed fs = false → fs ≠ [] →
      Around (⟨side, .red, x, sib⟩ :: fs) n
  | black {side : Side} {x : α} {sib : ColorTree α} {fs : List (Frame α)} {n : Nat} :
      RedBlack sib n → Around fs (n + 1) → Around (⟨side, .black, x, sib⟩ :: fs) n

/-- **A subtree that fits makes a red-black tree.** -/
theorem Around.plug (hfs : Around fs n) (ht : RedBlack t n) (hc : t.isRed = true → topRed fs = false) :
    ∃ m, RedBlack (plug fs t) m ∧ (fs ≠ [] → (ColorTree.plug fs t).isRed = false) := by
  induction hfs generalizing t with
  | nil => exact ⟨_, ht, fun h => absurd rfl h⟩
  | @red side x sib fs n hsib hblack hfs htop hne ih =>
      have hfill : RedBlack (nodeAt side .red t x sib) n := by
        apply redBlack_nodeAt_red.mpr
        refine ⟨ht, hsib, ?_, hblack⟩
        rw [Bool.eq_false_iff]
        intro hred
        have := hc hred
        simp [topRed] at this
      obtain ⟨m, hm, hroot⟩ := ih hfill (fun _ => htop)
      exact ⟨m, hm, fun _ => hroot hne⟩
  | @black side x sib fs n hsib hfs ih =>
      have hfill : RedBlack (nodeAt side .black t x sib) (n + 1) := redBlack_black_succ.mpr ⟨ht, hsib⟩
      obtain ⟨m, hm, hroot⟩ := ih hfill (fun h => by rw [isRed_nodeAt_black] at h; cases h)
      refine ⟨m, hm, fun _ => ?_⟩
      cases fs with
      | nil => exact isRed_nodeAt_black
      | cons f fs => exact hroot (List.cons_ne_nil f fs)

/-- **Every subtree of a red-black tree with a black root fits.** -/
theorem RedBlack.unplug {m : Nat} (h : RedBlack (plug fs t) m) (hroot : (ColorTree.plug fs t).isRed = false) :
    ∃ n, RedBlack t n ∧ Around fs n ∧ (t.isRed = true → topRed fs = false) := by
  induction fs generalizing t with
  | nil => exact ⟨m, h, .nil, fun _ => rfl⟩
  | cons f fs ih =>
      obtain ⟨side, c, x, sib⟩ := f
      obtain ⟨k, hfill, hfs, htop⟩ := ih h hroot
      cases c with
      | red =>
          obtain ⟨ht, hsib, htb, hsb⟩ := redBlack_nodeAt_red.mp hfill
          have hne : fs ≠ [] := by
            rintro rfl
            exact absurd hroot (by simp [ColorTree.plug, Frame.fill])
          refine ⟨k, ht, .red hsib hsb hfs (htop isRed_nodeAt_red) hne, ?_⟩
          intro hred
          rw [htb] at hred
          cases hred
      | black =>
          obtain ⟨j, rfl, ht, hsib⟩ := redBlack_nodeAt_black.mp hfill
          exact ⟨j, ht, .black hsib hfs, fun _ => rfl⟩

/-- A subtree gives way to one of the same heights and colour. -/
theorem RedBlack.plug_congr {u : ColorTree α} (fs : List (Frame α)) (h : ∀ n, RedBlack t n → RedBlack u n) (hc : u.isRed = t.isRed) :
    (∀ m, RedBlack (plug fs t) m → RedBlack (plug fs u) m) ∧ (ColorTree.plug fs u).isRed = (ColorTree.plug fs t).isRed := by
  induction fs generalizing t u with
  | nil => exact ⟨h, hc⟩
  | cons f fs ih =>
      obtain ⟨side, c, x, sib⟩ := f
      have hfill : ∀ n, RedBlack (nodeAt side c t x sib) n → RedBlack (nodeAt side c u x sib) n := by
        intro n hn
        cases c with
        | red =>
            obtain ⟨h₁, h₂, h₃, h₄⟩ := redBlack_nodeAt_red.mp hn
            exact redBlack_nodeAt_red.mpr ⟨h n h₁, h₂, hc.trans h₃, h₄⟩
        | black =>
            obtain ⟨m, rfl, h₁, h₂⟩ := redBlack_nodeAt_black.mp hn
            exact redBlack_black_succ.mpr ⟨h m h₁, h₂⟩
      have hred : (nodeAt side c u x sib).isRed = (nodeAt side c t x sib).isRed := by
        cases c <;> simp
      exact ih hfill hred

/-! ## One black node less

A deletion leaves a subtree whose black height is one too small. The frames around it are changed, by recolouring
and turning, until they fit a subtree of that height; the elements around the hole stay (`Lowers`). -/

/-- In place of a black sibling, another one of the same height. -/
theorem Around.sibling {d : Side} {y : α} {sib e : ColorTree α} (h : Around (⟨d, c, x, sib⟩ :: fs) n) (he : RedBlack e n)
    (hc : e.isRed = false) : Around (⟨d, c, y, e⟩ :: fs) n := by
  cases h with
  | red _ _ hfs htop hne => exact .red he hc hfs htop hne
  | black _ hfs => exact .black he hfs

/-- The sibling of the hole has the height of the subtree. -/
theorem Around.top {d : Side} {sib : ColorTree α} (h : Around (⟨d, c, x, sib⟩ :: fs) n) : RedBlack sib n := by
  cases h with
  | red hsib => exact hsib
  | black hsib => exact hsib

/-- The root of the frames is black, whatever fills them. -/
theorem Around.isRed_plug (h : Around fs n) (hne : fs ≠ []) (t : ColorTree α) :
    (ColorTree.plug fs t).isRed = false := by
  induction h generalizing t with
  | nil => exact absurd rfl hne
  | red _ _ _ _ hne' ih => exact ih hne' _
  | @black side x sib fs n _ _ ih =>
      by_cases hnil : fs = []
      · subst hnil
        exact isRed_nodeAt_black
      · exact ih hnil _

/-- `gs` holds the elements of `fs` around its hole, and fits a subtree of black height `n`. -/
structure Lowers (fs gs : List (Frame α)) (n : Nat) : Prop where
  around : Around gs n
  before : before gs = before fs
  after : after gs = after fs
  nil : gs = [] ↔ fs = []

section Lowers

variable {d : Side} {y z u : α} {a b e sib : ColorTree α}

/-- Around the root there is nothing to change. -/
theorem Lowers.root (n : Nat) : Lowers ([] : List (Frame α)) [] n := ⟨.nil, rfl, rfl, Iff.rfl⟩

/-- A red parent becomes black and the sibling red. -/
theorem Lowers.recolour (h : Around (⟨d, .red, z, nodeAt d .black a y b⟩ :: fs) (n + 1)) (ha : a.isRed = false)
    (hb : b.isRed = false) :
    Lowers (⟨d, .red, z, nodeAt d .black a y b⟩ :: fs) (⟨d, .black, z, nodeAt d .red a y b⟩ :: fs) n := by
  obtain ⟨hra, hrb⟩ := redBlack_black_succ.mp h.top
  cases h with
  | red _ _ hfs _ _ =>
      refine ⟨.black (redBlack_nodeAt_red.mpr ⟨hra, hrb, ha, hb⟩) hfs, ?_, ?_, by simp⟩
      · cases d <;> simp [ColorTree.before, Frame.before, nodeAt]
      · cases d <;> simp [ColorTree.after, Frame.after, nodeAt]

/-- Below a black parent the sibling becomes red, and the node that is missing is missing from the parent. -/
theorem Lowers.climb (h : Lowers fs gs (n + 1)) (hra : RedBlack a n) (hrb : RedBlack b n) (ha : a.isRed = false)
    (hb : b.isRed = false) :
    Lowers (⟨d, .black, z, nodeAt d .black a y b⟩ :: fs) (⟨d, .black, z, nodeAt d .red a y b⟩ :: gs) n := by
  refine ⟨.black (redBlack_nodeAt_red.mpr ⟨hra, hrb, ha, hb⟩) h.around, ?_, ?_, by simp⟩
  · cases d <;> simp [ColorTree.before, Frame.before, nodeAt, h.before]
  · cases d <;> simp [ColorTree.after, Frame.after, nodeAt, h.after]

/-- The parent goes down on the side of the hole, and a node of the sibling takes its place and colour. -/
theorem Lowers.borrow (h : Around (⟨d, c, z, sib⟩ :: fs) (n + 1)) (hra : RedBlack a n) (hre : RedBlack e (n + 1))
    (he : e.isRed = false) (hlist : sib.toList = (nodeAt d .black a u e).toList) :
    Lowers (⟨d, c, z, sib⟩ :: fs) (⟨d, .black, z, a⟩ :: ⟨d, c, u, e⟩ :: fs) n := by
  refine ⟨.black hra (h.sibling hre he), ?_, ?_, by simp⟩
  · cases d <;> simp [ColorTree.before, Frame.before, hlist, nodeAt]
  · cases d <;> simp [ColorTree.after, Frame.after, hlist, nodeAt]

/-- A red sibling is rotated out of the way first. -/
theorem Lowers.turn (h : Lowers (⟨d, .red, z, a⟩ :: ⟨d, .black, y, b⟩ :: fs) gs n) :
    Lowers (⟨d, .black, z, nodeAt d .red a y b⟩ :: fs) gs n := by
  refine ⟨h.around, h.before.trans ?_, h.after.trans ?_, by simp [h.nil]⟩
  · cases d <;> simp [ColorTree.before, Frame.before, nodeAt]
  · cases d <;> simp [ColorTree.after, Frame.after, nodeAt]

end Lowers

/-! ## Searching

The search goes down and puts a frame on the way for each node it passes, so that the whole tree is what was
found, in its frames. -/

section Seek

variable {K : Type} (cmp : Comparator K) (key : α → K) (k : K)

/-- Search for a key, and remember the way. -/
def seek : ColorTree α → List (Frame α) → List (Frame α) × ColorTree α
  | nil, fs => (fs, nil)
  | node c l x r, fs =>
      if cmp.less k (key x) then seek l (⟨.left, c, x, r⟩ :: fs)
      else if cmp.less (key x) k then seek r (⟨.right, c, x, l⟩ :: fs)
      else (fs, node c l x r)

/-- The search does not change the tree. -/
theorem plug_seek (t : ColorTree α) (fs : List (Frame α)) :
    plug (seek cmp key k t fs).1 (seek cmp key k t fs).2 = plug fs t := by
  induction t generalizing fs with
  | nil => rfl
  | node c l x r ihl ihr =>
      unfold seek
      split
      · exact ihl _
      · split
        · exact ihr _
        · rfl

variable {cmp key k}

/-- What is found has the key. -/
theorem seek_found (t : ColorTree α) (fs : List (Frame α)) (h : (seek cmp key k t fs).2 = node c l x r) :
    cmp.equiv k (key x) = true := by
  induction t generalizing fs with
  | nil => cases h
  | node c' l' x' r' ihl ihr =>
      unfold seek at h
      split at h
      · exact ihl _ h
      · split at h
        · exact ihr _ h
        · rename_i h₁ h₂
          obtain ⟨-, -, rfl, -⟩ := ColorTree.node.inj h
          rw [Bool.not_eq_true] at h₁ h₂
          exact Comparator.equiv_iff.mpr ⟨h₁, h₂⟩

/-- The way leaves the smaller keys before it and the greater ones after it. -/
theorem seek_bounds (fs : List (Frame α)) (k : K) (ho : Ordered cmp key t.toList) (hbefore : ∀ y ∈ before fs, cmp.less (key y) k = true)
    (hafter : ∀ y ∈ after fs, cmp.less k (key y) = true) :
    (∀ y ∈ before (seek cmp key k t fs).1, cmp.less (key y) k = true) ∧
      ∀ y ∈ after (seek cmp key k t fs).1, cmp.less k (key y) = true := by
  induction t generalizing fs with
  | nil => exact ⟨hbefore, hafter⟩
  | node c l x r ihl ihr =>
      obtain ⟨hl, hr, hlx, hxr⟩ := Ordered.node_iff.mp ho
      unfold seek
      split
      · rename_i hless
        apply ihl _ hl
        · intro y hy
          simp only [before, Frame.before, List.append_nil] at hy
          exact hbefore y hy
        · intro y hy
          simp only [after, Frame.after, List.cons_append, List.mem_cons, List.mem_append] at hy
          rcases hy with rfl | hy | hy
          · exact hless
          · exact cmp.trans _ _ _ hless (hxr y hy)
          · exact hafter y hy
      · split
        · rename_i hless
          apply ihr _ hr
          · intro y hy
            simp only [before, Frame.before, List.mem_append, List.mem_singleton] at hy
            rcases hy with hy | hy | rfl
            · exact hbefore y hy
            · exact cmp.trans _ _ _ (hlx y hy) hless
            · exact hless
          · intro y hy
            simp only [after, Frame.after, List.nil_append] at hy
            exact hafter y hy
        · exact ⟨hbefore, hafter⟩

/-- **The search from the root**: it finds the element with the key, or the place where it belongs. -/
theorem seek_cases (ho : Ordered cmp key t.toList) (k : K) :
    (∃ fs c l x r, seek cmp key k t [] = (fs, node c l x r) ∧ t = plug fs (node c l x r) ∧
      cmp.equiv k (key x) = true) ∨
    (∃ fs, seek cmp key k t [] = (fs, nil) ∧ t = plug fs nil ∧ (∀ y ∈ before fs, cmp.less (key y) k = true) ∧
      ∀ y ∈ after fs, cmp.less k (key y) = true) := by
  have hplug := plug_seek cmp key k t []
  cases hseek : (seek cmp key k t []).2 with
  | nil =>
      right
      rw [hseek] at hplug
      obtain ⟨hb, ha⟩ := seek_bounds [] k ho (fun y hy => (nomatch hy)) (fun y hy => (nomatch hy))
      exact ⟨_, Prod.ext rfl hseek, hplug.symm, hb, ha⟩
  | node c l x r =>
      left
      rw [hseek] at hplug
      exact ⟨_, c, l, x, r, Prod.ext rfl hseek, hplug.symm, seek_found _ _ hseek⟩

end Seek

/-! ## Reading from either side

The walks of the code are there twice, once for each direction. Read from a side `d`, the order is the same for
both. -/

/-- The elements in order, beginning at a side. -/
def inorder (d : Side) (t : ColorTree α) : List α :=
  match d with
  | .left => t.toList
  | .right => t.toList.reverse

/-- What comes behind the hole, when the tree is read from a side. -/
def rest (d : Side) (fs : List (Frame α)) : List α :=
  match d with
  | .left => after fs
  | .right => (before fs).reverse

variable {d : Side} {sib : ColorTree α}

@[simp] theorem inorder_nil (d : Side) : inorder d (nil : ColorTree α) = [] := by cases d <;> rfl

/-- A node lies between its children. -/
theorem inorder_nodeAt : inorder d (nodeAt d c near x far) = inorder d near ++ x :: inorder d far := by
  cases d <;> simp [inorder, nodeAt]

/-- A hole on the side the tree is read from: the node comes next, then its other child. -/
theorem rest_same : rest d (⟨d, c, x, sib⟩ :: fs) = x :: (inorder d sib ++ rest d fs) := by
  cases d <;> simp [rest, inorder, before, after, Frame.before, Frame.after]

/-- A hole on the other side: both are behind already. -/
theorem rest_other : rest d (⟨d.other, c, x, sib⟩ :: fs) = rest d fs := by
  cases d <;> simp [rest, before, after, Frame.before, Frame.after, Side.other]

/-- Every element, with what comes behind it. -/
theorem exists_plug_inorder {as bs : List α} (h : inorder d t = as ++ x :: bs) :
    ∃ fs c near far, t = plug fs (nodeAt d c near x far) ∧ bs = inorder d far ++ rest d fs := by
  cases d with
  | left =>
      obtain ⟨fs, c, l, r, ht, -, hbs⟩ := exists_plug (show t.toList = as ++ x :: bs from h)
      exact ⟨fs, c, l, r, ht, hbs⟩
  | right =>
      have hlist : t.toList = bs.reverse ++ x :: as.reverse := by
        have hrev : t.toList.reverse.reverse = (as ++ x :: bs).reverse := congrArg List.reverse h
        rw [List.reverse_reverse] at hrev
        rw [hrev]
        simp
      obtain ⟨fs, c, l, r, ht, hbs, -⟩ := exists_plug hlist
      refine ⟨fs, c, r, l, ht, ?_⟩
      rw [← List.reverse_reverse bs, hbs, List.reverse_append]
      rfl

end ColorTree
end Lib
end Snippets
