import Snippets.Lib.LeftLeaning

/-!
# `Lib.LeftLeaningBalance` — the balance invariant of left-leaning red-black trees

`Leaning t c n` is the invariant between operations. Inside an insertion the root may be red with a red left child
(`Almost`). A deletion goes down only into trees that can spare a node (`Rich`), or that lean to the right while the
key is not to their left (`Erasable`), and `keepBalance` repairs the invariant on the way up.
-/

namespace Snippets
namespace Lib
namespace ColorTree

variable {α : Type} {t l r a b : ColorTree α} {x y z : α} {c c' : Color} {n : Nat}

/-! ## The invariant

The invariant is by the colour of the root and the black height, so that one case of a proof is one shape of the
tree. -/

/-- A left-leaning red-black tree with a root of colour `c` and black height `n`. -/
inductive Leaning : ColorTree α → Color → Nat → Prop
  | nil : Leaning nil .black 0
  | red {l r : ColorTree α} {x : α} {n : Nat} (hl : Leaning l .black n) (hr : Leaning r .black n) :
      Leaning (node .red l x r) .red n
  | black {l r : ColorTree α} {x : α} {c : Color} {n : Nat} (hl : Leaning l c n) (hr : Leaning r .black n) :
      Leaning (node .black l x r) .black (n + 1)

/-- The colour in the invariant is that of the root. -/
theorem Leaning.isRed_black (h : Leaning t .black n) : t.isRed = false := by cases h <;> rfl

/-- And so is a red one. -/
theorem Leaning.isRed_red (h : Leaning t .red n) : t.isRed = true := by cases h; rfl

/-- The left child of a red root is black. -/
theorem Leaning.left_isRed (h : Leaning t .red n) : t.left.isRed = false := by
  cases h with
  | red hl hr => exact hl.isRed_black

/-- There are no two reds in a row from the root. -/
theorem Leaning.not_redRed (h : Leaning t c n) : (t.isRed && t.left.isRed) = false := by
  cases c with
  | red => rw [h.left_isRed, Bool.and_false]
  | black => rw [h.isRed_black, Bool.false_and]

/-- A red root can be painted black: the black height grows by one. -/
theorem Leaning.flip_red (h : Leaning t .red n) : Leaning t.flip .black (n + 1) := by
  cases h with
  | red hl hr => exact .black hl hr

/-- A black tree of height 0 is empty. -/
theorem Leaning.eq_nil (h : Leaning t .black 0) : t = .nil := by cases h; rfl

/-- The elements do not matter. -/
theorem Leaning.map (h : Leaning t c n) (f : α → α) : Leaning (t.map f) c n := by
  induction h with
  | nil => exact .nil
  | red _ _ ihl ihr => exact .red ihl ihr
  | black _ _ ihl ihr => exact .black ihl ihr

/-- All subtrees, the tree itself first. -/
def subtrees : ColorTree α → List (ColorTree α)
  | .nil => [.nil]
  | .node c l x r => .node c l x r :: (subtrees l ++ subtrees r)

/-- The numbers of black nodes on the ways down from the root. -/
def blackCounts : ColorTree α → List Nat
  | .nil => [0]
  | .node c l _ r => (blackCounts l ++ blackCounts r).map fun n => if c = .black then n + 1 else n

/-- Right children are black, and so are left children of red nodes. -/
theorem Leaning.subtrees (h : Leaning t c n) :
    ∀ u ∈ t.subtrees, u.right.isRed = false ∧ (u.isRed = true → u.left.isRed = false) := by
  induction h with
  | nil =>
      intro u hu
      rw [List.mem_singleton.mp hu]
      exact ⟨rfl, fun _ => rfl⟩
  | red hl hr ihl ihr =>
      intro u hu
      rcases List.mem_cons.mp hu with rfl | hu
      · exact ⟨hr.isRed_black, fun _ => hl.isRed_black⟩
      · exact (List.mem_append.mp hu).elim (ihl u) (ihr u)
  | black hl hr ihl ihr =>
      intro u hu
      rcases List.mem_cons.mp hu with rfl | hu
      · exact ⟨hr.isRed_black, fun hred => nomatch hred⟩
      · exact (List.mem_append.mp hu).elim (ihl u) (ihr u)

/-- Every way down meets the same number of black nodes. -/
theorem Leaning.blackCounts (h : Leaning t c n) : ∀ b ∈ t.blackCounts, b = n := by
  induction h with
  | nil =>
      intro b hb
      exact List.mem_singleton.mp hb
  | red hl hr ihl ihr =>
      intro b hb
      obtain ⟨a, ha, rfl⟩ := List.mem_map.mp hb
      exact (List.mem_append.mp ha).elim (ihl a) (ihr a)
  | black hl hr ihl ihr =>
      intro b hb
      obtain ⟨a, ha, rfl⟩ := List.mem_map.mp hb
      exact congrArg (· + 1) ((List.mem_append.mp ha).elim (ihl a) (ihr a))

/-! ## What `keepBalance` does

On the way up from a change there are four shapes: nothing to do, a lone red right child, two red children, and
two reds in a row on the left. -/

/-- Nothing, when no right child is red and there are no two reds in a row. -/
theorem keepBalance_eq_self (hr : r.isRed = false) (hl : (l.isRed && l.left.isRed) = false) :
    (node c l x r).keepBalance = node c l x r := by
  have h₁ : (node c l x r).fixRight = node c l x r := by
    unfold fixRight
    exact if_neg (by simp [hr])
  have h₂ : (node c l x r).fixLeft = node c l x r := by
    unfold fixLeft
    exact if_neg (by rw [left_node, hl]; simp)
  have h₃ : (node c l x r).fixBoth = node c l x r := by
    unfold fixBoth
    exact if_neg (by simp [hr])
  unfold keepBalance
  rw [h₁, h₂, h₃]

/-- A lone red right child is turned to the left. -/
theorem keepBalance_rotate (hl : l.isRed = false) (hb : b.isRed = false) :
    (node c l x (node .red a y b)).keepBalance = node c (node .red l x a) y b := by
  simp [keepBalance, fixRight, fixLeft, fixBoth, hl, hb]

/-- Two red children are split. -/
theorem keepBalance_split (hl : l.isRed = true) :
    (node c l x (node .red a y b)).keepBalance = node c.flip l.flip x (node .black a y b) := by
  simp [keepBalance, fixRight, fixLeft, fixBoth, hl]

/-- Two reds in a row on the left are turned to the right and split. -/
theorem keepBalance_redRed (hl : l.isRed = true) (hb : b.isRed = false) :
    (node c (node .red l x a) y b).keepBalance = node c.flip l.flip x (node .black a y b) := by
  simp [keepBalance, fixRight, fixLeft, fixBoth, hl, hb]

/-- **Under a black root `keepBalance` repairs everything**; the root stays black unless both children are red. -/
theorem Leaning.keepBalance_black (hl : Leaning l c n) (hr : Leaning r c' n) :
    ∃ d, Leaning (node .black l x r).keepBalance d (n + 1) ∧ (c = .black ∨ c' = .black → d = .black) := by
  cases hr with
  | nil =>
      rw [keepBalance_eq_self rfl hl.not_redRed]
      exact ⟨_, .black hl .nil, fun _ => rfl⟩
  | @black a b y d m ha hb =>
      rw [keepBalance_eq_self rfl hl.not_redRed]
      exact ⟨_, .black hl (.black ha hb), fun _ => rfl⟩
  -- a red right child: turned to the left, or split with a red one on the left
  | @red a b y m ha hb =>
      cases c with
      | black =>
          rw [keepBalance_rotate hl.isRed_black hb.isRed_black]
          exact ⟨_, .black (.red hl ha) hb, fun _ => rfl⟩
      | red =>
          rw [keepBalance_split hl.isRed_red]
          exact ⟨_, .red hl.flip_red (.black ha hb), fun h => by rcases h with h | h <;> cases h⟩

/-- A red root with black children stays as it is. -/
theorem Leaning.keepBalance_red (hl : Leaning l .black n) (hr : Leaning r .black n) :
    Leaning (node .red l x r).keepBalance .red n := by
  rw [keepBalance_eq_self hr.isRed_black hl.not_redRed]
  exact .red hl hr

/-! ## Insertion

A new node is red. Two reds in a row may come up to a red root, where the step above mends them, or the root of
the whole tree is painted black. -/

/-- The invariant up to a red root with a red left child, which only a tree with a red root (`c`) may become. -/
inductive Almost (c : Color) : ColorTree α → Nat → Prop
  | leaning {t : ColorTree α} {d : Color} {n : Nat} (h : Leaning t d n) : Almost c t n
  | redRed {l r : ColorTree α} {x : α} {n : Nat} (hc : c = .red) (hl : Leaning l .red n) (hr : Leaning r .black n) :
      Almost c (node .red l x r) n

/-- A tree that had a black root is as before. -/
theorem Almost.of_black (h : Almost .black t n) : ∃ d, Leaning t d n := by
  cases h with
  | leaning h => exact ⟨_, h⟩
  | redRed hc _ _ => cases hc

/-- Painting the root black restores the invariant. -/
theorem Almost.paint_black (h : Almost c t n) : ∃ m, Leaning (t.paint .black) .black m := by
  cases h with
  | leaning h =>
      cases h with
      | nil => exact ⟨0, .nil⟩
      | red hl hr => exact ⟨_, .black hl hr⟩
      | black hl hr => exact ⟨_, .black hl hr⟩
  | redRed _ hl hr => exact ⟨_, .black hl hr⟩

/-- A red root over a new left subtree: two reds in a row, if that is red. -/
theorem Leaning.almost_left (hl : Leaning l c n) (hr : Leaning r .black n) :
    Almost .red (node .red l x r).keepBalance n := by
  cases c with
  | black => exact .leaning (hl.keepBalance_red hr)
  -- two reds in a row stay for the step above
  | red =>
      rw [keepBalance_eq_self hr.isRed_black hl.not_redRed]
      exact .redRed rfl hl hr

/-- A red root over a new right subtree. -/
theorem Leaning.almost_right (hl : Leaning l .black n) (hr : Leaning r c n) :
    Almost .red (node .red l x r).keepBalance n := by
  cases hr with
  | nil => exact .leaning (hl.keepBalance_red .nil)
  -- a turn to the left makes the root the second of two reds
  | red ha hb =>
      rw [keepBalance_rotate hl.isRed_black hb.isRed_black]
      exact .redRed rfl (.red hl ha) hb
  | black ha hb => exact .leaning (hl.keepBalance_red (.black ha hb))

variable {K : Type} {cmp : Comparator K} {key : α → K} {k : K}

/-- **`put` keeps the balance**, up to two reds at a red root. -/
theorem Leaning.put (h : Leaning t c n) (k : K) (fresh : α) (change : α → α) :
    Almost c (t.put cmp key k fresh change) n := by
  induction h with
  | nil => exact .leaning (.red .nil .nil)
  | @red l r x n hl hr ihl ihr =>
      unfold ColorTree.put
      split
      · obtain ⟨d, hd⟩ := ihl.of_black
        exact hd.almost_left hr
      · split
        · obtain ⟨d, hd⟩ := ihr.of_black
          exact hl.almost_right hd
        · exact .leaning (.red hl hr)
  | @black l r x c n hl hr ihl ihr =>
      unfold ColorTree.put
      split
      · generalize l.put cmp key k fresh change = l' at ihl
        cases ihl with
        | leaning hd =>
            obtain ⟨d, h', -⟩ := Leaning.keepBalance_black hd hr
            exact .leaning h'
        | redRed hc ha hb =>
            rw [keepBalance_redRed ha.isRed_red hr.isRed_black]
            exact .leaning (.red ha.flip_red (.black hb hr))
      · split
        · obtain ⟨d, hd⟩ := ihr.of_black
          obtain ⟨d', h', -⟩ := Leaning.keepBalance_black hl hd
          exact .leaning h'
        · exact .leaning (.black hl hr)

/-! ## Deletion: going down -/

/-- A tree that can spare a node: its root is red, or black with a red left child. -/
inductive Rich : ColorTree α → Color → Nat → Prop
  | red {l r : ColorTree α} {x : α} {n : Nat} (hl : Leaning l .black n) (hr : Leaning r .black n) :
      Rich (node .red l x r) .red n
  | left {l r : ColorTree α} {x : α} {n : Nat} (hl : Leaning l .red n) (hr : Leaning r .black n) :
      Rich (node .black l x r) .black (n + 1)

/-- A tree from which `k` can be deleted: a rich one, or one that leans to the right with `k` not to its left. -/
inductive Erasable (cmp : Comparator K) (key : α → K) (k : K) : ColorTree α → Color → Nat → Prop
  | rich {t : ColorTree α} {c : Color} {n : Nat} (h : Rich t c n) : Erasable cmp key k t c n
  | right {l r : ColorTree α} {x : α} {n : Nat} (hk : cmp.less k (key x) = false) (hl : Leaning l .black n)
      (hr : Leaning r .red n) : Erasable cmp key k (node .black l x r) .black (n + 1)

/-- What a deletion leaves of a tree with colour `c` and height `n`: the height stays, and a black root does. -/
def Kept (c : Color) (n : Nat) (t : ColorTree α) : Prop := ∃ d, Leaning t d n ∧ (c = .black → d = .black)

/-- Whatever a deletion leaves of a child with colour `c'` and height `m`, the parent with colour `c` and height
    `n` is repaired. A black child does not turn red, so the parent does not either. -/
def Repairs (context : ColorTree α → ColorTree α) (c' : Color) (m : Nat) (c : Color) (n : Nat) : Prop :=
  ∀ t d, Leaning t d m → (c' = .black → d = .black) → Kept c n (context t)

/-- **Going left**: the left child becomes rich. -/
theorem Rich.spareLeft (h : Rich t c n) (hl : t.left.isNil = false) :
    ∃ c₀ l x r c' m, t.spareLeft = some (node c₀ l x r) ∧ Rich l c' m ∧
      Repairs (fun l' => (node c₀ l' x r).keepBalance) c' m c n := by
  cases h with
  | @left l r x n hl' hr =>
      -- a red left child is rich already
      refine ⟨.black, l, x, r, .red, n, ?_, ?_, ?_⟩
      · simp [ColorTree.spareLeft, hl'.isRed_red]
      · cases hl' with
        | red ha hb => exact .red ha hb
      · intro t d ht _
        obtain ⟨e, he, hblack⟩ := ht.keepBalance_black hr
        exact ⟨e, he, fun _ => hblack (Or.inr rfl)⟩
  | @red l r x n hl' hr =>
      cases hl' with
      | nil => cases hl
      | @black ll lr y d m hll hlr =>
          cases hr with
          | @black rl rr z e _ hrl hrr =>
              cases d with
              | red =>
                  refine ⟨.red, node .black ll y lr, x, node .black rl z rr, .black, m + 1, ?_, .left hll hlr, ?_⟩
                  · simp [ColorTree.spareLeft, hll.isRed_red]
                  · intro t d ht hblack
                    obtain rfl := hblack rfl
                    exact ⟨.red, ht.keepBalance_red (.black hrl hrr), fun h => Color.noConfusion h⟩
              | black =>
                  cases e with
                  | black =>
                      -- the three nodes merge
                      refine ⟨.black, node .red ll y lr, x, node .red rl z rr, .red, m, ?_, .red hll hlr, ?_⟩
                      · simp [ColorTree.spareLeft, moveRedLeft_node, hll.isRed_black, hrl.isRed_black]
                      · intro t d ht _
                        obtain ⟨e, he, -⟩ := ht.keepBalance_black (.red hrl hrr)
                        exact ⟨e, he, fun h => Color.noConfusion h⟩
                  | red =>
                      -- the right sibling lends its first node
                      cases hrl with
                      | @red a b w _ ha hb =>
                          refine ⟨.red, node .black (node .red ll y lr) x a, w, node .black b z rr, .black, m + 1,
                            ?_, .left (.red hll hlr) ha, ?_⟩
                          · simp [ColorTree.spareLeft, moveRedLeft_node, hll.isRed_black]
                          · intro t d ht hblack
                            obtain rfl := hblack rfl
                            exact ⟨.red, ht.keepBalance_red (.black hb hrr), fun h => Color.noConfusion h⟩

/-- **Going right**: the right child becomes erasable, and rich if the deletion stops here. -/
theorem Erasable.spareRight (h : Erasable cmp key k t c n) (ho : Ordered cmp key t.toList)
    (hk : ∀ c l x r, t = node c l x r → cmp.less k (key x) = false) :
    (∃ x, t.leanRight = node .red nil x nil ∧ c = .red ∧ n = 0) ∨
      ∃ t₁ c₀ l x r c' m, t.leanRight = t₁ ∧ t₁.right.isNil = false ∧ t₁.spareRight = some (node c₀ l x r) ∧
        Erasable cmp key k r c' m ∧ (cmp.equiv k (key x) = true → Rich r c' m) ∧
        ∀ s, Repairs (fun r' => (node c₀ l s r').keepBalance) c' m c n := by
  cases h with
  | @right l r x n hkx hl hr =>
      refine Or.inr ⟨node .black l x r, .black, l, x, r, .red, n, ?_, ?_, ?_, ?_⟩
      · simp [leanRight, hl.isRed_black]
      · cases hr; rfl
      · simp [ColorTree.spareRight, hr.isRed_red]
      · have hrich : Rich r .red n := by
          cases hr with
          | red ha hb => exact .red ha hb
        refine ⟨.rich hrich, fun _ => hrich, fun s t d ht _ => ?_⟩
        obtain ⟨e, he, hblack⟩ := hl.keepBalance_black ht
        exact ⟨e, he, fun _ => hblack (Or.inl rfl)⟩
  | rich h =>
      cases h with
      | @left l r x n hl hr =>
          cases hl with
          | @red ll lr y _ hll hlr =>
              -- the red left child is turned up, and the old root goes down red
              refine Or.inr ⟨node .black ll y (node .red lr x r), .black, ll, y, node .red lr x r, .red, n, ?_, rfl, ?_,
                .rich (.red hlr hr), fun _ => .red hlr hr, fun s t d ht _ => ?_⟩
              · simp [leanRight]
              · simp [ColorTree.spareRight]
              · obtain ⟨e, he, hblack⟩ := hll.keepBalance_black ht
                exact ⟨e, he, fun _ => hblack (Or.inl rfl)⟩
      | @red l r x n hl hr =>
          cases hr with
          | nil =>
              obtain rfl := hl.eq_nil
              exact Or.inl ⟨x, rfl, rfl, rfl⟩
          | @black rl rr z e m hrl hrr =>
              cases hl with
              | @black ll lr y d _ hll hlr =>
                  refine Or.inr ⟨node .red (node .black ll y lr) x (node .black rl z rr), ?_⟩
                  cases e with
                  | red =>
                      refine ⟨.red, node .black ll y lr, x, node .black rl z rr, .black, m + 1, ?_, rfl, ?_,
                        .rich (.left hrl hrr), fun _ => .left hrl hrr, ?_⟩
                      · simp [leanRight]
                      · simp [ColorTree.spareRight, hrl.isRed_red]
                      · intro s t d ht hblack
                        obtain rfl := hblack rfl
                        exact ⟨.red, Leaning.keepBalance_red (.black hll hlr) ht, fun h => Color.noConfusion h⟩
                  | black =>
                      cases d with
                      | black =>
                          refine ⟨.black, node .red ll y lr, x, node .red rl z rr, .red, m, ?_, rfl, ?_,
                            .rich (.red hrl hrr), fun _ => .red hrl hrr, ?_⟩
                          · simp [leanRight]
                          · simp [ColorTree.spareRight, moveRedRight_node, hrl.isRed_black, hrr.isRed_black, hll.isRed_black]
                          · intro s t d ht _
                            obtain ⟨e, he, -⟩ := Leaning.keepBalance_black (.red hll hlr) ht
                            exact ⟨e, he, fun h => Color.noConfusion h⟩
                      | red =>
                          -- the left sibling lends its last node; the right child leans to the right for now
                          have hkx := hk _ _ _ _ rfl
                          refine ⟨.red, ll.flip, y, node .black lr x (node .red rl z rr), .black, m + 1, ?_, rfl, ?_,
                            .right hkx hlr (.red hrl hrr), ?_, ?_⟩
                          · simp [leanRight]
                          · simp [ColorTree.spareRight, moveRedRight_node, hrl.isRed_black, hrr.isRed_black, hll.isRed_red]
                          · intro heq
                            obtain ⟨-, -, hlx, -⟩ := Ordered.node_iff.mp ho
                            have hyk := Comparator.less_of_less_of_not_less (hlx y (by simp)) hkx
                            rw [(Comparator.equiv_iff.mp heq).2] at hyk
                            cases hyk
                          · intro s t d ht hblack
                            obtain rfl := hblack rfl
                            exact ⟨.red, Leaning.keepBalance_red hll.flip_red ht, fun h => Color.noConfusion h⟩

/-! ## Deletion: coming back

Below the root the invariant holds again, with a black root where it was black (`Kept`), and `keepBalance` mends
the root. -/

/-- The shape does not depend on the elements, and so the first one can be replaced. -/
theorem Leaning.setFirst (h : Leaning t c n) (y : α) : Leaning (t.setFirst y) c n := by
  induction h with
  | nil => exact .nil
  | @red l r x n hl hr ihl _ =>
      cases l with
      | nil => exact .red hl hr
      | node d a z b => exact .red ihl hr
  | @black l r x c n hl hr ihl _ =>
      cases l with
      | nil => exact .black hl hr
      | node d a z b => exact .black ihl hr

/-- This holds for what a tree can spare too. -/
theorem Rich.setFirst (h : Rich t c n) (y : α) : Rich (t.setFirst y) c n := by
  cases h with
  | @red l r x n hl hr =>
      cases l with
      | nil => exact .red hl hr
      | node d a z b => exact .red (hl.setFirst y) hr
  | @left l r x n hl hr =>
      cases l with
      | nil => cases hl
      | node d a z b => exact .left (hl.setFirst y) hr

/-- A tree that can spare a node has one. -/
theorem Rich.ne_nil (h : Rich t c n) : t ≠ nil := by
  rintro rfl
  cases h

/-- **`deleteMin` of a rich tree** removes the first element and keeps the balance. -/
theorem Rich.deleteMin (h : Rich t c n) {fuel : Nat} (hfuel : t.toList.length ≤ fuel) :
    ∃ t' x d, t.deleteMin fuel = some (t', x) ∧ Leaning t' d n ∧ (c = .black → d = .black) ∧
      t.toList = x :: t'.toList := by
  induction fuel generalizing t c n with
  | zero =>
      cases h with
      | red hl hr => simp at hfuel
      | left hl hr => simp at hfuel
  | succ fuel ih =>
      rcases t with _ | ⟨c₁, _ | ⟨d, a, z, b⟩, x, r⟩
      · exact absurd rfl h.ne_nil
      · cases h with
        | red hl hr =>
            cases hl
            obtain rfl := hr.eq_nil
            exact ⟨.nil, x, .black, rfl, .nil, fun h => (nomatch h), rfl⟩
        | left hl hr => cases hl
      · obtain ⟨c₀, l, x₀, r₀, c', m, hspare, hrich, hrep⟩ := h.spareLeft rfl
        have hlist := toList_spareLeft hspare
        obtain ⟨l', y, d', hdel, hlean, hcol, hl'⟩ := ih hrich (by
          have hlen := congrArg List.length hlist
          rw [toList_node, List.length_append, List.length_cons] at hlen
          omega)
        obtain ⟨e, he, hblack⟩ := hrep l' d' hlean hcol
        refine ⟨_, y, e, ?_, he, hblack, ?_⟩
        · simp only [ColorTree.deleteMin, hspare, hdel, Option.map_some]
        · rw [← hlist, toList_keepBalance, toList_node, toList_node, hl', List.cons_append]

/-- What `delete k` returns: nothing when no element has the key, else a rest for which `P` holds, and the element. -/
def DeleteSpec (cmp : Comparator K) (key : α → K) (k : K) (t : ColorTree α) (P : ColorTree α → Prop) :
    Option (ColorTree α × α) → Prop
  | none => ∀ y ∈ t.toList, cmp.equiv k (key y) = false
  | some (t', x) => cmp.equiv k (key x) = true ∧ P t' ∧ ∃ as bs, t.toList = as ++ x :: bs ∧ t'.toList = as ++ bs

variable {c₀ c₁ c₂ : Color} {l₀ r₀ : ColorTree α} {x₀ : α} {P Q : ColorTree α → Prop}

/-- The result in the left subtree, carried to the whole tree. -/
theorem DeleteSpec.left {res : Option (ColorTree α × α)} (h : DeleteSpec cmp key k l Q res)
    (hlist : t.toList = l.toList ++ x :: r.toList) (hout : ∀ y ∈ x :: r.toList, cmp.equiv k (key y) = false)
    (hrep : ∀ l', Q l' → P (node c₀ l' x r).keepBalance) :
    DeleteSpec cmp key k t P (res.map fun d => ((node c₀ d.1 x r).keepBalance, d.2)) := by
  cases res with
  | none =>
      intro y hy
      rw [hlist, List.mem_append] at hy
      rcases hy with hy | hy
      · exact h y hy
      · exact hout y hy
  | some d =>
      obtain ⟨heq, hQ, as, bs, h₁, h₂⟩ := h
      refine ⟨heq, hrep d.1 hQ, as, bs ++ x :: r.toList, ?_, ?_⟩
      · rw [hlist, h₁, List.append_assoc, List.cons_append]
      · show (node c₀ d.1 x r).keepBalance.toList = _
        rw [toList_keepBalance, toList_node, h₂, List.append_assoc]

/-- The result in the right subtree, carried to the whole tree. -/
theorem DeleteSpec.right {res : Option (ColorTree α × α)} (h : DeleteSpec cmp key k r Q res)
    (hlist : t.toList = l.toList ++ x :: r.toList) (hout : ∀ y ∈ l.toList ++ [x], cmp.equiv k (key y) = false)
    (hrep : ∀ r', Q r' → P (node c₀ l x r').keepBalance) :
    DeleteSpec cmp key k t P (res.map fun d => ((node c₀ l x d.1).keepBalance, d.2)) := by
  rw [List.append_cons] at hlist
  cases res with
  | none =>
      intro y hy
      rw [hlist, List.mem_append] at hy
      rcases hy with hy | hy
      · exact hout y hy
      · exact h y hy
  | some d =>
      obtain ⟨heq, hQ, as, bs, h₁, h₂⟩ := h
      refine ⟨heq, hrep d.1 hQ, l.toList ++ [x] ++ as, bs, ?_, ?_⟩
      · rw [hlist, h₁, ← List.append_assoc]
      · show (node c₀ l x d.1).keepBalance.toList = _
        rw [toList_keepBalance, toList_node, h₂, List.append_cons, ← List.append_assoc]

/-- What `Repairs` says, for `Kept`. -/
theorem Repairs.kept {context : ColorTree α → ColorTree α} {m : Nat} (h : Repairs context c' m c n) :
    ∀ t', Kept c' m t' → Kept c n (context t') := by
  rintro t' ⟨d, hlean, hcol⟩
  exact h t' d hlean hcol

/-- Going left, the root stays or moves into the left subtree. -/
theorem spareLeft_root (h : (node c l x r).spareLeft = some (node c₀ l₀ x₀ r₀)) : x₀ = x ∨ x ∈ l₀.toList := by
  simp only [ColorTree.spareLeft] at h
  split at h
  · split at h
    · have h := Option.some.inj h
      rw [moveRedLeft_node] at h
      split at h
      · generalize r.flip.rotateRight = s at h
        cases s with
        | nil =>
            obtain ⟨-, -, rfl, -⟩ := node.inj h
            exact Or.inl rfl
        | node d a w b =>
            obtain ⟨-, rfl, -, -⟩ := node.inj h
            exact Or.inr (by simp)
      · obtain ⟨-, -, rfl, -⟩ := node.inj h
        exact Or.inl rfl
    · cases h
  · obtain ⟨-, -, rfl, -⟩ := node.inj (Option.some.inj h)
    exact Or.inl rfl

/-- A turn to the right moves the root into the right subtree. -/
theorem rotateRight_root (h : (node c l x r).rotateRight = node c₀ l₀ x₀ r₀) : x₀ = x ∨ x ∈ r₀.toList := by
  cases l with
  | nil =>
      obtain ⟨-, -, rfl, -⟩ := node.inj h
      exact Or.inl rfl
  | node d a w b =>
      obtain ⟨-, -, -, rfl⟩ := node.inj h
      exact Or.inr (by simp)

/-- Leaning to the right keeps the root, or moves it to the right. -/
theorem leanRight_root (h : (node c l x r).leanRight = node c₀ l₀ x₀ r₀) : x₀ = x ∨ x ∈ r₀.toList := by
  unfold leanRight at h
  split at h
  · exact rotateRight_root h
  · obtain ⟨-, -, rfl, -⟩ := node.inj h
    exact Or.inl rfl

/-- And so does what is done before a deletion goes right. -/
theorem spareRight_root (h : (node c l x r).spareRight = some (node c₀ l₀ x₀ r₀)) : x₀ = x ∨ x ∈ r₀.toList := by
  simp only [ColorTree.spareRight] at h
  split at h
  · split at h
    · have h := Option.some.inj h
      rw [moveRedRight_node] at h
      split at h
      · generalize l.flip = s at h
        cases s with
        | nil =>
            obtain ⟨-, -, rfl, -⟩ := node.inj h
            exact Or.inl rfl
        | node d a w b =>
            obtain ⟨-, -, -, rfl⟩ := node.inj h
            exact Or.inr (by simp)
      · obtain ⟨-, -, rfl, -⟩ := node.inj h
        exact Or.inl rfl
    · cases h
  · obtain ⟨-, -, rfl, -⟩ := node.inj (Option.some.inj h)
    exact Or.inl rfl

/-- Going right, the key stays on the right of the root. -/
theorem Ordered.not_less_root (h : Ordered cmp key (node c₀ l₀ x₀ r₀).toList) (hx : x₀ = x ∨ x ∈ r₀.toList)
    (hk : cmp.less k (key x) = false) : cmp.less k (key x₀) = false := by
  rcases hx with rfl | hx
  · exact hk
  · obtain ⟨-, -, -, hxr⟩ := Ordered.node_iff.mp h
    exact Comparator.asymm (Comparator.less_of_less_of_not_less (hxr x hx) hk)

/-- And when it is the key of the root, the root was not moved. -/
theorem Ordered.eq_root (h : Ordered cmp key (node c₀ l₀ x₀ r₀).toList) (hx : x₀ = x ∨ x ∈ r₀.toList)
    (hk : cmp.less k (key x) = false) (heq : cmp.equiv k (key x₀) = true) : x₀ = x := by
  apply hx.resolve_right
  intro hx
  obtain ⟨-, -, -, hxr⟩ := Ordered.node_iff.mp h
  rw [Comparator.less_of_not_less_of_less (Comparator.equiv_iff.mp heq).2 (hxr x hx)] at hk
  cases hk

/-- Going left, it stays on the left. -/
theorem Ordered.less_root (h : Ordered cmp key (node c₀ l₀ x₀ r₀).toList) (hx : x₀ = x ∨ x ∈ l₀.toList)
    (hk : cmp.less k (key x) = true) : cmp.less k (key x₀) = true := by
  rcases hx with rfl | hx
  · exact hk
  · obtain ⟨-, -, hlx, -⟩ := Ordered.node_iff.mp h
    exact cmp.trans _ _ _ hk (hlx x hx)

/-- The deletion goes into trees with a node. -/
theorem Erasable.ne_nil (h : Erasable cmp key k t c n) : t ≠ nil := by
  rintro rfl
  cases h with
  | rich h => exact h.ne_nil rfl

/-- A deletion that goes left. -/
theorem Erasable.delete_left {fuel : Nat} (h : Erasable cmp key k (node c₁ l x r) c n)
    (ho : Ordered cmp key (node c₁ l x r).toList) (hk : cmp.less k (key x) = true)
    (ih : ∀ {t : ColorTree α} {c : Color} {n : Nat}, Erasable cmp key k t c n → Ordered cmp key t.toList →
      t.toList.length ≤ fuel → ∃ res, t.delete cmp key k fuel = some res ∧ DeleteSpec cmp key k t (Kept c n) res)
    (hfuel : (node c₁ l x r).toList.length ≤ fuel + 1) :
    ∃ res, (node c₁ l x r).delete cmp key k (fuel + 1) = some res ∧ DeleteSpec cmp key k (node c₁ l x r) (Kept c n) res := by
  have hrich : Rich (node c₁ l x r) c n := by
    cases h with
    | rich h => exact h
    | right hk' _ _ => rw [hk] at hk'; cases hk'
  by_cases hnil : l.isNil = true
  · refine ⟨none, by simp [ColorTree.delete, hk, hnil], ?_⟩
    intro y hy
    rw [toList_node, List.mem_append] at hy
    rcases hy with hy | hy
    · cases l with
      | nil => cases hy
      | node _ _ _ _ => cases hnil
    · exact ho.not_equiv_right hk y hy
  · rw [Bool.not_eq_true] at hnil
    obtain ⟨c₀, l₀, x₀, r₀, c', m, hspare, hrich', hrep⟩ := hrich.spareLeft hnil
    have hlist := toList_spareLeft hspare
    have ho₀ : Ordered cmp key (node c₀ l₀ x₀ r₀).toList := by rw [hlist]; exact ho
    have hk₀ := ho₀.less_root (spareLeft_root hspare) hk
    obtain ⟨res, hres, hspec⟩ := ih (.rich hrich') (Ordered.node_iff.mp ho₀).1 (by
      rw [← hlist, toList_node, List.length_append, List.length_cons] at hfuel
      omega)
    refine ⟨_, ?_, hspec.left hlist.symm (ho₀.not_equiv_right hk₀) hrep.kept⟩
    simp [ColorTree.delete, hk, hnil, hspare, hres]

/-- A deletion that goes right, or stops. -/
theorem Erasable.delete_right {fuel : Nat} (h : Erasable cmp key k (node c₁ l x r) c n)
    (ho : Ordered cmp key (node c₁ l x r).toList) (hk : cmp.less k (key x) = false)
    (ih : ∀ {t : ColorTree α} {c : Color} {n : Nat}, Erasable cmp key k t c n → Ordered cmp key t.toList →
      t.toList.length ≤ fuel → ∃ res, t.delete cmp key k fuel = some res ∧ DeleteSpec cmp key k t (Kept c n) res)
    (hfuel : (node c₁ l x r).toList.length ≤ fuel + 1) :
    ∃ res, (node c₁ l x r).delete cmp key k (fuel + 1) = some res ∧ DeleteSpec cmp key k (node c₁ l x r) (Kept c n) res := by
  have hroot : ∀ d a y b, node c₁ l x r = node d a y b → cmp.less k (key y) = false := by
    intro d a y b heq
    obtain ⟨-, -, rfl, -⟩ := node.inj heq
    exact hk
  rcases h.spareRight ho hroot with ⟨y, hlean, rfl, rfl⟩ | ⟨t₁, c₀, l₀, x₀, r₀, c', m, hlean, hright, hspare, hera, hrich, hrep⟩
  · -- a single red node
    have hlist : (node .red nil y nil).toList = (node c₁ l x r).toList := by rw [← hlean, toList_leanRight]
    by_cases heq : cmp.equiv k (key y) = true
    · refine ⟨some (nil, y), by simp [ColorTree.delete, hk, hlean, heq], heq, ⟨_, .nil, fun h => nomatch h⟩, [], [], ?_, rfl⟩
      exact hlist.symm
    · rw [Bool.not_eq_true] at heq
      refine ⟨none, by simp [ColorTree.delete, hk, hlean, heq, ColorTree.spareRight], ?_⟩
      intro z hz
      rw [← hlist] at hz
      obtain rfl : z = y := by simpa using hz
      exact heq
  · obtain ⟨d, a, y, b, rfl⟩ : ∃ d a y b, t₁ = node d a y b := by
      cases t₁ with
      | nil => cases hright
      | node d a y b => exact ⟨d, a, y, b, rfl⟩
    have hlist₁ : (node d a y b).toList = (node c₁ l x r).toList := by rw [← hlean, toList_leanRight]
    have hlist := (toList_spareRight hspare).trans hlist₁
    have ho₁ : Ordered cmp key (node d a y b).toList := by rw [hlist₁]; exact ho
    have ho₀ : Ordered cmp key (node c₀ l₀ x₀ r₀).toList := by rw [hlist]; exact ho
    have hk₁ := ho₁.not_less_root (leanRight_root hlean) hk
    have hk₀ := ho₀.not_less_root (spareRight_root hspare) hk₁
    have hbnil : b.isNil = false := hright
    have hlen : r₀.toList.length ≤ fuel := by
      rw [← hlist, toList_node, List.length_append, List.length_cons] at hfuel
      omega
    by_cases heq : cmp.equiv k (key x₀) = true
    · -- found: the successor takes its place
      obtain ⟨s, hs⟩ := first_isSome (hrich heq).ne_nil
      obtain ⟨rest, hrest, hrest'⟩ := toList_setFirst hs x₀
      have hlen' : (r₀.setFirst x₀).toList.length ≤ fuel := by
        rw [hrest] at hlen
        rw [hrest']
        exact hlen
      obtain ⟨r', z, e, hdel, hlean', hcol, hr'⟩ := ((hrich heq).setFirst x₀).deleteMin hlen'
      obtain ⟨rfl, rfl⟩ := List.cons.inj (hrest'.symm.trans hr')
      refine ⟨some ((node c₀ l₀ s r').keepBalance, x₀), ?_, heq, hrep s r' e hlean' hcol, l₀.toList, s :: r'.toList, ?_, ?_⟩
      · simp [ColorTree.delete, hk, hlean, hbnil, hspare, heq, hs, hdel]
      · rw [← hlist, toList_node, hrest]
      · rw [toList_keepBalance, toList_node]
    · rw [Bool.not_eq_true] at heq
      have hx₀k : cmp.less (key x₀) k = true := by
        by_contra hne
        rw [Comparator.equiv_iff.mpr ⟨hk₀, by simpa using hne⟩] at heq
        cases heq
      have hr₀ : r₀.isNil = false := by
        cases r₀ with
        | nil => exact absurd rfl hera.ne_nil
        | node _ _ _ _ => rfl
      obtain ⟨res, hres, hspec⟩ := ih hera (Ordered.node_iff.mp ho₀).2.1 hlen
      refine ⟨_, ?_, hspec.right hlist.symm (ho₀.not_equiv_left hx₀k) (hrep x₀).kept⟩
      simp [ColorTree.delete, hk, hlean, hbnil, hspare, heq, hr₀, hres]

/-- **`delete` of an erasable tree** finds the element with the key if there is one, removes it and nothing else,
    and keeps the balance. -/
theorem Erasable.delete (h : Erasable cmp key k t c n) (ho : Ordered cmp key t.toList) {fuel : Nat}
    (hfuel : t.toList.length ≤ fuel) :
    ∃ res, t.delete cmp key k fuel = some res ∧ DeleteSpec cmp key k t (Kept c n) res := by
  induction fuel generalizing t c n with
  | zero =>
      cases t with
      | nil => exact absurd rfl h.ne_nil
      | node _ _ _ _ => simp at hfuel
  | succ fuel ih =>
      cases t with
      | nil => exact absurd rfl h.ne_nil
      | node c₁ l x r =>
          cases hk : cmp.less k (key x) with
          | true => exact h.delete_left ho hk ih hfuel
          | false => exact h.delete_right ho hk ih hfuel

/-- **`delete` at the top**, where the root is painted red first, whatever its left child is, and black at the end. -/
theorem Leaning.delete_top (h : Leaning (node .black l x r) .black n) (ho : Ordered cmp key (node .black l x r).toList)
    {fuel : Nat} (hfuel : (node .black l x r).toList.length ≤ fuel) :
    ∃ res, (node .red l x r).delete cmp key k fuel = some res ∧
      DeleteSpec cmp key k (node .red l x r) (fun t => ∃ m, Leaning (t.paint .black) .black m) res := by
  obtain ⟨fuel, rfl⟩ : ∃ m, fuel = m + 1 := ⟨fuel - 1, by
    rw [toList_node, List.length_append, List.length_cons] at hfuel
    omega⟩
  have ho' : Ordered cmp key (node .red l x r).toList := ho
  cases h with
  | @black _ _ _ d n hl hr =>
      cases d with
      | black =>
          obtain ⟨res, hdel, hspec⟩ := (Erasable.rich (.red hl hr)).delete ho' hfuel (k := k)
          refine ⟨res, hdel, ?_⟩
          cases res with
          | none => exact hspec
          | some p =>
              obtain ⟨heq, ⟨d, hlean, -⟩, hlist⟩ := hspec
              exact ⟨heq, (Almost.leaning (c := .red) hlean).paint_black, hlist⟩
      | red =>
          -- two reds at the top: the red child can spare a node
          cases hl with
          | @red a b y n ha hb =>
              obtain ⟨hol, hor, hlx, -⟩ := Ordered.node_iff.mp ho'
              rw [toList_node, List.length_append, List.length_cons] at hfuel
              cases hk : cmp.less k (key x) with
              | true =>
                  have hlen : (node .red a y b).toList.length ≤ fuel := by omega
                  obtain ⟨res, hdel, hspec⟩ := (Erasable.rich (.red ha hb)).delete hol hlen (k := k)
                  have hrep : ∀ l', Kept .red n l' → ∃ m, Leaning ((node .red l' x r).keepBalance.paint .black) .black m := by
                    rintro l' ⟨d, hlean, -⟩
                    exact (hlean.almost_left hr).paint_black
                  refine ⟨_, ?_, hspec.left (toList_node ..) (ho'.not_equiv_right hk) hrep⟩
                  simp [ColorTree.delete, hk, ColorTree.spareLeft, hdel]
              | false =>
                  have hlist : (node .red a y (node .red b x r)).toList = (node .red (node .red a y b) x r).toList := by simp
                  rw [← hlist] at ho'
                  have hyk : cmp.less (key y) k = true := Comparator.less_of_less_of_not_less (hlx y (by simp)) hk
                  have hne : cmp.equiv k (key y) = false := Comparator.not_equiv_of_less' hyk
                  have hlen : (node .red b x r).toList.length ≤ fuel := by
                    rw [toList_node, List.length_append, List.length_cons] at hfuel ⊢
                    omega
                  obtain ⟨res, hdel, hspec⟩ := (Erasable.rich (.red hb hr)).delete (Ordered.node_iff.mp ho').2.1 hlen (k := k)
                  have hrep : ∀ r', Kept .red n r' → ∃ m, Leaning ((node .red a y r').keepBalance.paint .black) .black m := by
                    rintro r' ⟨d, hlean, -⟩
                    exact (ha.almost_right hlean).paint_black
                  refine ⟨_, ?_, hspec.right hlist.symm (ho'.not_equiv_left hyk) hrep⟩
                  simp [ColorTree.delete, hk, ColorTree.leanRight, ColorTree.spareRight, hne, hdel]

end ColorTree
end Lib
end Snippets
