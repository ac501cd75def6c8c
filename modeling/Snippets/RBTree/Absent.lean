import Snippets.RBTree.Refinement

/-!
# `RBTree.Absent` — erasing a key that is not there

`Delete` finds out that the key is missing at the bottom of a descent that has already changed the tree. It throws,
`erase` catches, and nothing on the way up links the changed subtrees again. As long as the descent only changed
colours nothing is lost (`Calm`). After a rotation the parent still points to the old root of the subtree, and the
node that was turned up in its place can no longer be reached (`Lost`). `turns` tells the two apart before the call.
-/

namespace Snippets

open Lib

namespace RBTree

open BoundedMap (Op Answer)

variable {K V : Type} {cmp : Comparator K} {h h' g : Heap K V} {s : RBTree K V} {t t' l r : ColorTree (Elem K V)}
  {x y : Elem K V} {c : Color} {p k : NodeId} {key : K} {fuel : Nat}

/-! ## Where the descent turns a node

`turns` is `Delete`'s own tests, one after the other down to the missing key; on a held tree they are read off
the tree. -/

/-- `GetPointer(id) and GetPointer(id)->c == kRed`. -/
def Heap.red (h : Heap K V) (id : NodeId) : Bool := decide (id ≠ kInvalidNodeId) && decide ((h id).c = .red)

/-- A node with a red left child. -/
def Heap.leftRed (h : Heap K V) (id : NodeId) : Bool := decide (id ≠ kInvalidNodeId) && h.red (h id).l

/-- On the way to `key`, does the descent of `Delete` rotate? Going left it does when the left child is a 2-node and
    the right one is not. Going right it does when the left child is red, or when the right child is a 2-node and the
    left one is not. -/
def Heap.turns (cmp : Comparator K) (h : Heap K V) (key : K) : Nat → NodeId → Bool
  | 0, _ => false
  | fuel + 1, id =>
      if id = kInvalidNodeId then false
      else if cmp.less key (h id).v.1 then
        decide ((h id).l ≠ kInvalidNodeId) &&
          ((!h.red (h id).l && !h.leftRed (h id).l && h.leftRed (h id).r) || turns cmp h key fuel (h id).l)
      else
        h.red (h id).l ||
          (decide ((h id).r ≠ kInvalidNodeId) && !h.red (h id).r && !h.leftRed (h id).r && h.leftRed (h id).l) ||
          turns cmp h key fuel (h id).r

/-- The same on the tree: a turn at the root of `l` and `r` when going left. -/
def turnsLeft (l r : ColorTree (Elem K V)) : Bool := !l.isRed && !l.left.isRed && r.left.isRed

/-- And when going right. -/
def turnsRight (l r : ColorTree (Elem K V)) : Bool :=
  l.isRed || (!r.isNil && !r.isRed && !r.left.isRed && l.left.isRed)

/-- Whether the descent to the key turns a node anywhere. -/
def turnsTo (cmp : Comparator K) (key : K) : ColorTree (Elem K V) → Bool
  | .nil => false
  | .node _ l x r =>
      if cmp.less key (keyOf x) then !l.isNil && (turnsLeft l r || turnsTo cmp key l)
      else turnsRight l r || turnsTo cmp key r

/-- The tests on the heap are those on the tree: -/
theorem Held.red_eq (ht : Held h t p) : h.red (rootId t) = t.isRed := by
  unfold Heap.red
  cases t with
  | nil => rfl
  | node c l x r =>
      have sp := held_node.mp ht
      rw [rootId_node, sp.here]
      simp only [ne_eq, ne_invalid sp.valid, not_false_eq_true, decide_true, Bool.true_and]
      cases c <;> rfl

/-- of a node and of its left child. -/
theorem Held.leftRed_eq (ht : Held h t p) : h.leftRed (rootId t) = t.left.isRed := by
  unfold Heap.leftRed
  cases t with
  | nil => rfl
  | node c l x r =>
      have sp := held_node.mp ht
      rw [rootId_node, sp.here]
      simp only [ne_eq, ne_invalid sp.valid, not_false_eq_true, decide_true, Bool.true_and, sp.left.red_eq,
        ColorTree.left_node]

/-- So the whole descent is. -/
theorem Held.turns_eq (ht : Held h t p) (hfuel : t.toList.length < fuel) :
    h.turns cmp key fuel (rootId t) = turnsTo cmp key t := by
  -- by induction on the descent
  induction t generalizing p fuel with
  | nil =>
      obtain ⟨fuel, rfl⟩ : ∃ n, fuel = n + 1 := ⟨fuel - 1, by omega⟩
      rfl
  | node c l x r ihl ihr =>
      obtain ⟨fuel, rfl⟩ : ∃ n, fuel = n + 1 := ⟨fuel - 1, by omega⟩
      have sp := held_node.mp ht
      rw [ColorTree.toList_node, List.length_append, List.length_cons] at hfuel
      have hnil : ∀ u : ColorTree (Elem K V), Held h u x.1 → decide (rootId u ≠ kInvalidNodeId) = !u.isNil := by
        intro u hu
        rw [Bool.eq_iff_iff, decide_eq_true_eq, ne_eq, hu.rootId_eq]
        cases u.isNil <;> simp
      rw [rootId_node, Heap.turns, if_neg (ne_invalid sp.valid), sp.here]
      show (if cmp.less key (keyOf x) then _ else _) = turnsTo cmp key (.node c l x r)
      unfold turnsTo turnsLeft turnsRight
      simp only [sp.left.red_eq, sp.right.red_eq, sp.left.leftRed_eq, sp.right.leftRed_eq, hnil l sp.left, hnil r sp.right,
        ihl sp.left (by omega : l.toList.length < fuel), ihr sp.right (by omega : r.toList.length < fuel)]

/-! ## What a step of the descent does to the tree

A step that turns nothing only changes colours. One that turns a node puts the old root into the subtree the
descent goes on in. -/

/-- The tree without its colours. -/
def bleach : ColorTree (Elem K V) → ColorTree (Elem K V)
  | .nil => .nil
  | .node _ l x r => .node .black (bleach l) x (bleach r)

/-- A flip changes colours only, -/
theorem bleach_flip (t : ColorTree (Elem K V)) : bleach t.flip = bleach t := by cases t <;> rfl

/-- and no test of the descent further down. -/
theorem turnsTo_flip (t : ColorTree (Elem K V)) : turnsTo cmp key t.flip = turnsTo cmp key t := by cases t <;> rfl

/-- At most colours differ, and those only at the root. -/
def Repainted (t t' : ColorTree (Elem K V)) : Prop := t' = t ∨ t' = t.flip

/-- Trees repainted are equal without colours, -/
theorem Repainted.bleach_eq (h : Repainted t t') : bleach t' = bleach t := by
  rcases h with rfl | rfl
  · rfl
  · exact bleach_flip t

/-- and the descent goes the same way in them. -/
theorem Repainted.turnsTo_eq (h : Repainted t t') : turnsTo cmp key t' = turnsTo cmp key t := by
  rcases h with rfl | rfl
  · rfl
  · exact turnsTo_flip t

section Step

variable {c₀ c₁ : Color} {l₀ r₀ l₁ r₁ : ColorTree (Elem K V)} {x₀ x₁ : Elem K V}

/-- Going left: a turn puts the root into the left subtree, and without one only colours change. -/
theorem spareLeft_turns (hspare : (ColorTree.node c l x r).spareLeft = some (.node c₀ l₀ x₀ r₀)) :
    (turnsLeft l r = true → x ∈ l₀.toList) ∧
      (turnsLeft l r = false → x₀ = x ∧ Repainted l l₀ ∧ Repainted r r₀) := by
  unfold turnsLeft
  simp only [ColorTree.spareLeft] at hspare
  split at hspare
  next hpoor =>
    rw [hpoor, Bool.true_and]
    split at hspare
    next hok =>
      have h := Option.some.inj hspare
      rw [ColorTree.moveRedLeft_node] at h
      rcases r with _ | ⟨d, rl, z, rr⟩
      · simp at hok
      · by_cases hred : (ColorTree.node d rl z rr).flip.left.isRed = true
        · rw [if_pos hred] at h
          rcases rl with _ | ⟨e, a, w, b⟩
          · cases hred
          · obtain ⟨-, rfl, -, -⟩ := ColorTree.node.inj h
            exact ⟨fun _ => by simp, fun hno => absurd (hred.symm.trans hno) (by decide)⟩
        · rw [if_neg hred] at h
          obtain ⟨-, rfl, rfl, rfl⟩ := ColorTree.node.inj h
          exact ⟨fun hyes => absurd hyes hred, fun _ => ⟨rfl, Or.inr rfl, Or.inr rfl⟩⟩
    next => cases hspare
  next hrich =>
    obtain ⟨-, rfl, rfl, rfl⟩ := ColorTree.node.inj (Option.some.inj hspare)
    rw [Bool.not_eq_true] at hrich
    rw [hrich, Bool.false_and]
    exact ⟨fun hyes => Bool.noConfusion hyes, fun _ => ⟨rfl, Or.inl rfl, Or.inl rfl⟩⟩

/-- Going right, likewise. -/
theorem spareRight_turns (hlean : (ColorTree.node c l x r).leanRight = .node c₁ l₁ x₁ r₁)
    (hspare : (ColorTree.node c₁ l₁ x₁ r₁).spareRight = some (.node c₀ l₀ x₀ r₀)) :
    (turnsRight l r = true → x ∈ r₀.toList) ∧
      (turnsRight l r = false → x₀ = x ∧ Repainted l l₀ ∧ Repainted r r₀) := by
  unfold turnsRight
  unfold ColorTree.leanRight at hlean
  rw [ColorTree.left_node] at hlean
  split at hlean
  next hred =>
    -- the root hangs in a red right subtree now, which can spare a node
    rcases l with _ | ⟨d, a, y, m⟩
    · cases hred
    · rw [ColorTree.rotateRight_node] at hlean
      obtain ⟨-, -, -, rfl⟩ := ColorTree.node.inj hlean
      simp only [ColorTree.spareRight, ColorTree.isRed_red, Bool.not_true, Bool.and_false, Bool.false_and,
        Bool.false_eq_true, if_false] at hspare
      obtain ⟨-, -, -, rfl⟩ := ColorTree.node.inj (Option.some.inj hspare)
      rw [hred, Bool.true_or]
      exact ⟨fun _ => by simp, fun hno => Bool.noConfusion hno⟩
  next hblack =>
    obtain ⟨rfl, rfl, rfl, rfl⟩ := ColorTree.node.inj hlean
    rw [Bool.not_eq_true] at hblack
    rw [hblack, Bool.false_or]
    simp only [ColorTree.spareRight] at hspare
    split at hspare
    next hpoor =>
      rw [hpoor, Bool.true_and]
      split at hspare
      next hok =>
        have h := Option.some.inj hspare
        rw [ColorTree.moveRedRight_node] at h
        rcases l with _ | ⟨d, a, y, m⟩
        · simp at hok
        · by_cases hred : (ColorTree.node d a y m).flip.left.isRed = true
          · rw [if_pos hred] at h
            obtain ⟨-, -, -, rfl⟩ := ColorTree.node.inj h
            exact ⟨fun _ => by simp, fun hno => absurd (hred.symm.trans hno) (by decide)⟩
          · rw [if_neg hred] at h
            obtain ⟨-, rfl, rfl, rfl⟩ := ColorTree.node.inj h
            exact ⟨fun hyes => absurd hyes hred, fun _ => ⟨rfl, Or.inr rfl, Or.inr rfl⟩⟩
      next => cases hspare
    next hrich =>
      obtain ⟨-, rfl, rfl, rfl⟩ := ColorTree.node.inj (Option.some.inj hspare)
      rw [Bool.not_eq_true] at hrich
      rw [hrich, Bool.false_and]
      exact ⟨fun hyes => Bool.noConfusion hyes, fun _ => ⟨rfl, Or.inl rfl, Or.inl rfl⟩⟩

end Step

/-! ## What a miss leaves behind

The nodes of the tree are closed under links afterwards as well. When a node was turned, the root's part of them
lacks an element, so that element is lost. -/

/-- Two nodes that differ in their colour at most. -/
def SameLinks (n n' : RBNode K V) : Prop := n'.p = n.p ∧ n'.l = n.l ∧ n'.r = n.r ∧ n'.v = n.v

/-- The same links and the same pair, -/
theorem SameLinks.refl (n : RBNode K V) : SameLinks n n := ⟨rfl, rfl, rfl, rfl⟩

/-- one change after another. -/
theorem SameLinks.trans {n₁ n₂ n₃ : RBNode K V} (h₁ : SameLinks n₁ n₂) (h₂ : SameLinks n₂ n₃) : SameLinks n₁ n₃ :=
  ⟨h₂.1.trans h₁.1, h₂.2.1.trans h₁.2.1, h₂.2.2.1.trans h₁.2.2.1, h₂.2.2.2.trans h₁.2.2.2⟩

/-- Colours do not matter to the root. -/
theorem rootId_bleach (t : ColorTree (Elem K V)) : rootId (bleach t) = rootId t := by cases t <;> rfl

/-- Trees that differ in colours are represented by nodes that do. -/
theorem Rep.sameLinks (ht : Rep h t p) (ht' : Rep h' t' p) (hbleach : bleach t' = bleach t) :
    ∀ k ∈ ids t, SameLinks (h k) (h' k) := by
  induction t generalizing t' p with
  | nil =>
      intro k hk
      cases hk
  | node c l x r ihl ihr =>
      cases t' with
      | nil => cases hbleach
      | node c' l' x' r' =>
          obtain ⟨-, hl, rfl, hr⟩ := ColorTree.node.inj hbleach
          obtain ⟨hx, hrl, hrr⟩ := ht
          obtain ⟨hx', hrl', hrr'⟩ := ht'
          intro k hk
          rcases mem_ids_node.mp hk with hk | rfl | hk
          · exact ihl hrl hrl' hl k hk
          · rw [hx, hx', ← rootId_bleach l, ← rootId_bleach r, ← hl, ← hr, rootId_bleach, rootId_bleach]
            exact ⟨rfl, rfl, rfl, rfl⟩
          · exact ihr hrr hrr' hr k hk

/-- No way down leads from `S` out of it. -/
def Closed (g : Heap K V) (S : NodeId → Prop) : Prop := ∀ k, S k → ∀ side, (g k).child side = kInvalidNodeId ∨ S ((g k).child side)

/-- A node of the tree can no longer be reached from its root. -/
def Lost (g : Heap K V) (t : ColorTree (Elem K V)) : Prop :=
  ∃ S : NodeId → Prop, S (rootId t) ∧ (∀ k, S k → k ∈ ids t) ∧ Closed g S ∧ ∃ y ∈ t.toList, ¬ S y.1

/-- The nodes of a tree after a miss: `turned` says whether a node was turned. -/
structure Missed (h g : Heap K V) (t : ColorTree (Elem K V)) (turned : Bool) : Prop where
  frame : ∀ k, k ∉ ids t → g k = h k
  closed : Closed g (· ∈ ids t)
  calm : turned = false → ∀ k, SameLinks (h k) (g k)
  lost : turned = true → Lost g t

/-- The links of a held tree stay in it. -/
theorem Held.closed (ht : Held h t p) : Closed h (· ∈ ids t) := fun _ hk side => (ht.rep.link hk side).imp_right And.left

/-- A miss below the root, seen from the root: `u` is the subtree that was searched and `v` the other one. -/
theorem Missed.up {h₁ : Heap K V} {u v : ColorTree (Elem K V)} {turned below : Bool}
    (hm : Missed h₁ g u below) (hmem : ∀ k, k ∈ ids t ↔ k ∈ ids u ∨ k = x.1 ∨ k ∈ ids v) (hxu : x.1 ∉ ids u)
    (hvu : ∀ k ∈ ids v, k ∉ ids u) (hx : x ∈ t.toList) (hu : ∀ y ∈ u.toList, y ∈ t.toList)
    (hxlink : ∀ side, (h₁ x.1).child side = rootId u ∨ (h₁ x.1).child side = rootId v) (hv : Closed h₁ (· ∈ ids v))
    (hframe : ∀ k, k ∉ ids t → h₁ k = h k)
    (hcalm : turned = false → below = false ∧ ∀ k ∈ ids t, SameLinks (h k) (h₁ k))
    (hturn : turned = true → rootId t ∈ ids u ∨ (rootId t = x.1 ∧ below = true)) : Missed h g t turned := by
  have hother : ∀ k, k ∉ ids u → g k = h₁ k := hm.frame
  -- the links of the root and of the other subtree, which were not touched below
  have hup : ∀ S : NodeId → Prop, (rootId u = kInvalidNodeId ∨ S (rootId u)) → (∀ k ∈ ids v, S k) → ∀ k, k = x.1 ∨ k ∈ ids v → ∀ side,
      (g k).child side = kInvalidNodeId ∨ S ((g k).child side) := by
    intro S hSu hSv k hk side
    rcases hk with rfl | hk
    · rw [hother _ hxu]
      rcases hxlink side with heq | heq
      · rw [heq]
        exact hSu
      · rw [heq]
        rcases rootId_cases v with rfl | hroot
        · exact Or.inl rfl
        · exact Or.inr (hSv _ hroot)
    · rw [hother _ (hvu k hk)]
      exact (hv k hk side).imp_right (hSv _)
  refine ⟨?_, ?_, ?_, ?_⟩
  · intro k hk
    rw [hother k fun hku => hk ((hmem k).mpr (Or.inl hku)), hframe k hk]
  · intro k hk side
    rcases (hmem k).mp hk with hk | hk
    · exact (hm.closed k hk side).imp_right fun hin => (hmem _).mpr (Or.inl hin)
    · apply hup (· ∈ ids t) _ (fun j hj => (hmem j).mpr (Or.inr (Or.inr hj))) k hk side
      rcases rootId_cases u with rfl | hroot
      · exact Or.inl rfl
      · exact Or.inr ((hmem _).mpr (Or.inl hroot))
  -- no node was turned, so the links are those of before
  · intro hturned k
    obtain ⟨hbelow, hsame⟩ := hcalm hturned
    refine SameLinks.trans ?_ (hm.calm hbelow k)
    by_cases hk : k ∈ ids t
    · exact hsame k hk
    · rw [hframe k hk]
      exact SameLinks.refl _
  · intro hturned
    rcases hturn hturned with hroot | ⟨hroot, hbelow⟩
    · -- turned here: the old root stayed in the subtree, and the new one is not in it
      exact ⟨(· ∈ ids u), hroot, fun k hk => (hmem k).mpr (Or.inl hk), hm.closed, x, hx, hxu⟩
    · -- turned below
      obtain ⟨S, hSroot, hSsub, hSclosed, y, hy, hSy⟩ := hm.lost hbelow
      refine ⟨fun k => S k ∨ k = x.1 ∨ k ∈ ids v, Or.inr (Or.inl hroot), ?_, ?_, y, hu y hy, ?_⟩
      · rintro k (hk | hk)
        · exact (hmem k).mpr (Or.inl (hSsub k hk))
        · exact (hmem k).mpr (Or.inr hk)
      · rintro k (hk | hk) side
        · exact (hSclosed k hk side).imp_right Or.inl
        · exact hup _ (Or.inr (Or.inl hSroot)) (fun j hj => Or.inr (Or.inr hj)) k hk side
      · have hyu := mem_ids_of_mem hy
        rintro (hS | heq | hyv)
        · exact hSy hS
        · exact hxu (heq ▸ hyu)
        · exact hvu _ hyv hyu

/-- A miss to the left, after the step there. -/
theorem Missed.left {h₁ : Heap K V} (ht : Held h (.node c l y r) p) (ht₁ : Held h₁ (.node c₀ l₀ x₀ r₀) p)
    (hspare : (ColorTree.node c l y r).spareLeft = some (.node c₀ l₀ x₀ r₀))
    (hframe : ∀ k, k ∉ ids (.node c l y r) → h₁ k = h k)
    (hturn : turnsTo cmp key (.node c l y r) = (turnsLeft l r || turnsTo cmp key l))
    (hm : Missed h₁ g l₀ (turnsTo cmp key l₀)) : Missed h g (.node c l y r) (turnsTo cmp key (.node c l y r)) := by
  have s₁ := held_node.mp ht₁
  have hlist := ColorTree.toList_spareLeft hspare
  have hids := ids_congr hlist
  obtain ⟨hyes, hno⟩ := spareLeft_turns hspare
  apply hm.up (x := x₀) (v := r₀) _ s₁.not_left (fun k hkr hkl => s₁.apart k hkl hkr) _ _ _ s₁.right.closed hframe
  · intro hcalm
    rw [hturn, Bool.or_eq_false_iff] at hcalm
    obtain ⟨rfl, hl, hr⟩ := hno hcalm.1
    refine ⟨by rw [hl.turnsTo_eq]; exact hcalm.2, ht.rep.sameLinks ht₁.rep ?_⟩
    unfold bleach
    rw [hl.bleach_eq, hr.bleach_eq]
  -- the subtree turned, or a node below it did
  · intro hturned
    rw [hturn, Bool.or_eq_true] at hturned
    cases hleft : turnsLeft l r with
    | true => exact Or.inl (mem_ids_of_mem (hyes hleft))
    | false =>
        obtain ⟨rfl, hl, -⟩ := hno hleft
        rw [hleft] at hturned
        exact Or.inr ⟨rfl, by rw [hl.turnsTo_eq]; simpa using hturned⟩
  · intro k
    rw [← hids, mem_ids_node]
  · rw [← hlist]
    simp
  · intro z hz
    rw [← hlist]
    simp [hz]
  · intro side
    rw [s₁.here]
    cases side with
    | left => exact Or.inl rfl
    | right => exact Or.inr rfl

/-- A miss to the right, after the step there. -/
theorem Missed.right {h₂ : Heap K V} (ht : Held h (.node c l y r) p) (ht₂ : Held h₂ (.node c₀ l₀ x₀ r₀) p)
    (hlean : (ColorTree.node c l y r).leanRight = .node c₁ l₁ x₁ r₁)
    (hspare : (ColorTree.node c₁ l₁ x₁ r₁).spareRight = some (.node c₀ l₀ x₀ r₀))
    (hlist : (ColorTree.node c₀ l₀ x₀ r₀).toList = (ColorTree.node c l y r).toList)
    (hframe : ∀ k, k ∉ ids (.node c l y r) → h₂ k = h k)
    (hturn : turnsTo cmp key (.node c l y r) = (turnsRight l r || turnsTo cmp key r))
    (hm : Missed h₂ g r₀ (turnsTo cmp key r₀)) : Missed h g (.node c l y r) (turnsTo cmp key (.node c l y r)) := by
  have s₂ := held_node.mp ht₂
  have hids := ids_congr hlist
  obtain ⟨hyes, hno⟩ := spareRight_turns hlean hspare
  apply hm.up (x := x₀) (v := l₀) _ s₂.not_right s₂.apart _ _ _ s₂.left.closed hframe
  · intro hcalm
    rw [hturn, Bool.or_eq_false_iff] at hcalm
    obtain ⟨rfl, hl, hr⟩ := hno hcalm.1
    refine ⟨by rw [hr.turnsTo_eq]; exact hcalm.2, ht.rep.sameLinks ht₂.rep ?_⟩
    unfold bleach
    rw [hl.bleach_eq, hr.bleach_eq]
  -- the subtree turned, or a node below it did
  · intro hturned
    rw [hturn, Bool.or_eq_true] at hturned
    cases hright : turnsRight l r with
    | true => exact Or.inl (mem_ids_of_mem (hyes hright))
    | false =>
        obtain ⟨rfl, -, hr⟩ := hno hright
        rw [hright] at hturned
        exact Or.inr ⟨rfl, by rw [hr.turnsTo_eq]; simpa using hturned⟩
  · intro k
    rw [← hids, mem_ids_node]
    tauto
  · rw [← hlist]
    simp
  · intro z hz
    rw [← hlist]
    simp [hz]
  · intro side
    rw [s₂.here]
    cases side with
    | left => exact Or.inr rfl
    | right => exact Or.inl rfl

/-- **`Delete` of an absent key**: it throws, and leaves what `turnsTo` foretells. -/
theorem delete_missed [Zero K] [Zero V] (ht : Held s.nodes t p) (ho : ColorTree.Ordered cmp keyOf t.toList)
    (hdel : t.delete cmp keyOf key fuel = some none) :
    ∃ g, s.delete cmp key fuel (rootId t) = some ({ s with nodes := g }, none) ∧
      Missed s.nodes g t (turnsTo cmp key t) := by
  induction fuel generalizing s t p with
  | zero => cases t <;> cases hdel
  | succ fuel ih =>
      cases t with
      | nil => cases hdel
      | node c l y r =>
          have sy := held_node.mp ht
          have hval : (s.nodes y.1).v.1 = keyOf y := by rw [sy.here]; rfl
          rw [rootId_node]
          rcases ColorTree.delete_cases hdel with ⟨hk, hnil, -⟩ | ⟨hk, hnil, c₀, l₀, x₀, r₀, d, hspare, hd, hres⟩ |
            ⟨hk, c₁, l₁, x₁, r₁, hlean, ⟨-, -, -, hres⟩ | ⟨hgo, c₀, l₀, x₀, r₀, hspare, hcase⟩⟩
          · -- nothing to the left
            have hl : (s.nodes y.1).l = kInvalidNodeId := by
              rw [sy.here]
              exact sy.left.rootId_eq.mpr hnil
            have hturn : turnsTo cmp key (.node c l y r) = false := by
              rw [turnsTo, if_pos hk, hnil]
              rfl
            rw [delete_none sy.valid (by rw [hval]; exact hk) hl, hturn]
            exact ⟨s.nodes, rfl, fun _ _ => rfl, ht.closed, fun _ k => SameLinks.refl _, fun hno => nomatch hno⟩
          · -- to the left
            obtain rfl : d = none := by
              cases d with
              | none => rfl
              | some d => cases hres
            obtain ⟨h₁, hrun, ht₁, hframe₁⟩ := ht.delete_left fuel hk hnil hspare
            have s₁ := held_node.mp ht₁
            have ho₀ := ho
            rw [← ColorTree.toList_spareLeft hspare] at ho₀
            obtain ⟨g, hrec, hm⟩ := ih (s := { s with nodes := h₁ }) s₁.left (ColorTree.Ordered.node_iff.mp ho₀).1 hd
            have hturn : turnsTo cmp key (.node c l y r) = (turnsLeft l r || turnsTo cmp key l) := by
              rw [turnsTo, if_pos hk, hnil]
              rfl
            exact ⟨g, by rw [hrun, hrec]; rfl, Missed.left ht ht₁ hspare hframe₁ hturn hm⟩
          · cases hres
          · have hlist₁ : (ColorTree.node c₁ l₁ x₁ r₁).toList = (ColorTree.node c l y r).toList := by
              rw [← hlean, ColorTree.toList_leanRight]
            have hlist := (ColorTree.toList_spareRight hspare).trans hlist₁
            -- to the right
            obtain ⟨h₂, hrun, ht₂, hframe₂⟩ := ht.delete_right fuel hk hlean hgo hspare
            have s₂ := held_node.mp ht₂
            have hturn : turnsTo cmp key (.node c l y r) = (turnsRight l r || turnsTo cmp key r) := by
              rw [turnsTo, if_neg (by rw [hk]; decide)]
            have hbelow : ∃ g, s.delete cmp key (fuel + 1) y.1 = some ({ s with nodes := g }, none) ∧
                Missed h₂ g r₀ (turnsTo cmp key r₀) := by
              rw [hrun]
              rcases hcase with ⟨-, z, d, -, -, hres⟩ | ⟨hne, hnil, -⟩ | ⟨hne, hnil, d, hd, hres⟩
              · cases hres
              · refine ⟨h₂, by rw [if_neg (by simp [hne]), if_pos hnil], ?_⟩
                cases r₀ with
                | nil => exact ⟨fun _ _ => rfl, s₂.right.closed, fun _ k => SameLinks.refl _, fun hno => nomatch hno⟩
                | node _ _ _ _ => cases hnil
              · obtain rfl : d = none := by
                  cases d with
                  | none => rfl
                  | some d => cases hres
                rw [← hlist] at ho
                obtain ⟨g, hrec, hm⟩ := ih (s := { s with nodes := h₂ }) s₂.right (ColorTree.Ordered.node_iff.mp ho).2.1 hd
                exact ⟨g, by rw [if_neg (by simp [hne]), if_neg (by simp [hnil]), hrec]; rfl, hm⟩
            obtain ⟨g, hrun', hm⟩ := hbelow
            exact ⟨g, hrun', Missed.right ht ht₂ hlean hspare hlist hframe₂ hturn hm⟩

/-! ## What `find` and an iteration see

They follow links and read pairs, and never a colour. -/

/-- A pointer is null, or valid, or fails an assert. -/
theorem id_cases (i : NodeId) : i = kInvalidNodeId ∨ 0 ≤ i ∨ (∀ h : Heap K V, h.getPointer i = none) := by
  by_cases hi : i = kInvalidNodeId
  · exact Or.inl hi
  · by_cases hp : 0 ≤ i
    · exact Or.inr (Or.inl hp)
    · refine Or.inr (Or.inr fun h => ?_)
      unfold Heap.getPointer
      rw [if_neg hi, if_neg hp]

section Reading

variable (hsame : ∀ k, SameLinks (h k) (g k))
include hsame

/-- The descent, -/
theorem get_sameLinks (fuel : Nat) (i : NodeId) : g.get cmp key fuel i = h.get cmp key fuel i := by
  induction fuel generalizing i with
  | zero => rfl
  | succ fuel ih =>
      unfold Heap.get
      rcases id_cases (K := K) (V := V) i with rfl | hi | hi
      · rfl
      · rw [getPointer_of_pos hi, getPointer_of_pos hi]
        obtain ⟨-, hl, hr, hv⟩ := hsame i
        simp only [hl, hr, hv, ih]
      · rw [hi, hi]

/-- the walk to the first node, -/
theorem getMin_sameLinks (fuel : Nat) (i : NodeId) : g.getMin fuel i = h.getMin fuel i := by
  induction fuel generalizing i with
  | zero => rfl
  | succ fuel ih =>
      unfold Heap.getMin Heap.node
      rcases id_cases (K := K) (V := V) i with rfl | hi | hi
      · rfl
      · rw [getPointer_of_pos hi, getPointer_of_pos hi]
        obtain ⟨-, hl, -, -⟩ := hsame i
        simp only [Option.join_some, hl, ih]
      · rw [hi, hi]
        rfl

/-- the walk up, -/
theorem climb_sameLinks (fuel : Nat) (cur i : NodeId) : g.climb fuel cur i = h.climb fuel cur i := by
  induction fuel generalizing cur i with
  | zero => rfl
  | succ fuel ih =>
      unfold Heap.climb
      rcases id_cases (K := K) (V := V) i with rfl | hi | hi
      · rfl
      · rw [getPointer_of_pos hi, getPointer_of_pos hi]
        obtain ⟨hp, -, hr, -⟩ := hsame i
        simp only [hp, hr, ih]
      · rw [hi, hi]

/-- the step to the next node, -/
theorem getNext_sameLinks (fuel : Nat) (i : NodeId) : g.getNext fuel i = h.getNext fuel i := by
  unfold Heap.getNext
  rcases id_cases (K := K) (V := V) i with rfl | hi | hi
  · rfl
  · rw [getPointer_of_pos hi, getPointer_of_pos hi]
    obtain ⟨hp, -, hr, -⟩ := hsame i
    simp only [hp, hr, getMin_sameLinks hsame, climb_sameLinks hsame]
  · rw [hi, hi]

end Reading

section States

variable {s' : RBTree K V} (hsame : ∀ k, SameLinks (s.nodes k) (s'.nodes k)) (hroot : s'.root = s.root) (hml : s'.ml = s.ml)
include hsame hml

/-- the entries from a node on -/
theorem entriesFrom_sameLinks (fuel : Nat) (i : NodeId) : s'.entriesFrom fuel i = s.entriesFrom fuel i := by
  have hlimit : s'.limit = s.limit := by
    unfold limit
    rw [hml]
  induction fuel generalizing i with
  | zero => rfl
  | succ fuel ih =>
      unfold entriesFrom Heap.node
      rcases id_cases (K := K) (V := V) i with rfl | hi | hi
      · rfl
      · rw [getPointer_of_pos hi, getPointer_of_pos hi, hlimit, getNext_sameLinks hsame]
        obtain ⟨-, -, -, hv⟩ := hsame i
        simp only [Option.join_some, Option.bind_eq_bind, Option.bind_some, hv, ih]
      · rw [hi, hi]
        rfl

include hroot

/-- and from the first, -/
theorem entries_sameLinks : s'.entries = s.entries := by
  have hlimit : s'.limit = s.limit := by
    unfold limit
    rw [hml]
  unfold entries begin
  rw [hroot, hlimit, getMin_sameLinks hsame]
  simp only [entriesFrom_sameLinks hsame hml]

/-- and the lookup are the same over the same links. -/
theorem find_sameLinks (k : K) : s'.find cmp k = s.find cmp k := by
  unfold RBTree.find limit
  rw [hroot, hml, get_sameLinks hsame]

end States

/-- `Get` does not leave a closed set. -/
theorem Closed.get {S : NodeId → Prop} (hS : Closed g S) {i j : NodeId} (hi : i = kInvalidNodeId ∨ S i)
    (hget : g.get cmp key fuel i = some j) : j = kInvalidNodeId ∨ S j := by
  induction fuel generalizing i with
  | zero => cases hget
  | succ fuel ih =>
      unfold Heap.get at hget
      rcases hi with rfl | hi
      · exact Or.inl (Option.some.inj hget).symm
      · rcases id_cases (K := K) (V := V) i with rfl | hpos | hnone
        · exact Or.inl (Option.some.inj hget).symm
        · rw [getPointer_of_pos hpos] at hget
          simp only at hget
          split at hget
          · exact ih (hS i hi .right) hget
          · split at hget
            · exact ih (hS i hi .left) hget
            · rw [← Option.some.inj hget]
              exact Or.inr hi
        · rw [hnone] at hget
          cases hget

/-! ## The miss, from the outside

`erase` paints the root red, misses, and paints it black. It throws nothing away but what the descent turned. -/

/-- The call returns 0, and `find`, an iteration and `size()` give what they gave before. -/
def EraseIsNoop [Zero K] [Zero V] (cmp : Comparator K) (s : RBTree K V) (k : K) : Prop :=
  ∃ s', s.erase cmp k = some (s', 0) ∧
    (∀ j, s'.find cmp j = s.find cmp j ∧ (s'.find cmp j).map s'.entry = (s.find cmp j).map s.entry) ∧
    s'.entries = s.entries ∧ s'.size = s.size

/-- Painting a node keeps its links. -/
theorem sameLinks_recolor (i : NodeId) (d : Color) (k : NodeId) : SameLinks (h k) ((h.store i fun n => { n with c := d }) k) := by
  by_cases hk : k = i
  · subst hk
    rw [store_self]
    exact ⟨rfl, rfl, rfl, rfl⟩
  · rw [store_of_ne _ hk]
    exact SameLinks.refl _

/-- What `erase` of an absent key returns and leaves behind. -/
theorem Owned.erase_absent [Zero K] [Zero V] (howned : Owned cmp s t) (habs : ∀ x ∈ t.toList, cmp.equiv key (keyOf x) = false) :
    ∃ g, s.erase cmp key = some ({ s with nodes := g }, 0) ∧
      (turnsTo cmp key t = false → ∀ k, SameLinks (s.nodes k) (g k)) ∧ (turnsTo cmp key t = true → Lost g t) := by
  obtain ⟨n, hn⟩ := howned.balanced
  rcases t with _ | ⟨c, l, y, r⟩
  · have hroot : s.root = kInvalidNodeId := howned.root
    refine ⟨s.nodes, ?_, fun _ k => SameLinks.refl _, fun hno => nomatch hno⟩
    unfold RBTree.erase
    rw [if_pos hroot]
    rfl
  · have hblack : c = .black := by
      cases hn
      rfl
    subst hblack
    have hroot : s.root = y.1 := howned.root
    have hpos : 0 ≤ s.root := by
      rw [hroot]
      exact (held_node.mp howned.held).valid
    obtain ⟨res, hdel, hspec⟩ := hn.delete_top (k := key) howned.ordered howned.length_lt_limit.le
    have hred : Held (s.store s.root fun n => { n with c := .red }).nodes (.node .red l y r) kInvalidNodeId := by
      rw [hroot]
      exact howned.held.recolor .red
    cases res with
    -- the descent finds a key that is there only
    | some d =>
        obtain ⟨t', z⟩ := d
        obtain ⟨hz, -, as, bs, h₁, -⟩ := hspec
        have hmem : z ∈ (ColorTree.node Color.black l y r).toList := by
          show z ∈ (ColorTree.node Color.red l y r).toList
          rw [h₁]
          simp
        rw [habs z hmem] at hz
        cases hz
    -- the root that the miss leaves is the one of before, whatever was turned
    | none =>
        obtain ⟨g, hrun, hm⟩ := delete_missed hred howned.ordered hdel
        rw [rootId_node, ← hroot] at hrun
        refine ⟨g.store s.root fun n => { n with c := .black }, ?_, ?_, ?_⟩
        · rw [erase_eq cmp key hpos, hrun]
          simp only [Option.bind_some]
          unfold RBTree.restoreRoot RBTree.store
          simp only [if_neg (ne_invalid hpos), node_of_pos hpos, Option.bind_eq_bind, Option.bind_some, Option.pure_def]
        · intro hcalm k
          have h₁ : SameLinks (s.nodes k) ((s.store s.root fun n => { n with c := .red }).nodes k) := sameLinks_recolor _ _ k
          exact (h₁.trans (hm.calm hcalm k)).trans (sameLinks_recolor _ _ k)
        · intro hturned
          obtain ⟨S, hSroot, hSsub, hSclosed, z, hz, hSz⟩ := hm.lost hturned
          refine ⟨S, hSroot, hSsub, ?_, z, hz, hSz⟩
          intro k hk side
          obtain ⟨-, hl, hr, -⟩ := sameLinks_recolor (h := g) s.root .black k
          have hchild : ((g.store s.root fun n => { n with c := .black }) k).child side = (g k).child side := by
            cases side with
            | left => exact hl
            | right => exact hr
          rw [hchild]
          exact hSclosed k hk side

section Created

variable [Zero K] [Zero V] {start len nodeSize : Nat} {mem : Mem} {nodes : Heap K V} {s₀ : RBTree K V} {ops : List (Op K V)}

/-- **Erasing an absent key changes nothing a client can see exactly when its descent turns no node.** -/
theorem eraseIsNoop_iff (hfit : MemoryList.SumsFit (start + kHeaderSize) (len - kHeaderSize) nodeSize)
    (hc : createFrom start len nodeSize mem nodes = some (some s₀)) {junk : V}
    (hops : (BoundedMap.empty : BoundedMap cmp V s₀.maxSize).ErasesPresent ops) {answers : List (Answer K V)}
    (hexec : s₀.exec cmp junk ops = some (s, answers))
    (habs : ¬ ((BoundedMap.empty : BoundedMap cmp V s₀.maxSize).exec ops).1.has key) :
    EraseIsNoop cmp s key ↔ s.nodes.turns cmp key s.limit s.root = false := by
  obtain ⟨s₁, t, hexec₁, href⟩ := (refines_createFrom hfit hc).exec junk hops
  obtain rfl : s₁ = s := by
    rw [hexec] at hexec₁
    exact (Prod.mk.inj (Option.some.inj hexec₁)).1.symm
  have howned := href.owned
  obtain ⟨g, herase, hcalm, hlost⟩ := howned.erase_absent (href.absent habs)
  rw [howned.root, howned.held.turns_eq howned.length_lt_limit]
  constructor
  · rintro ⟨s', herase', hfind, -⟩
    obtain rfl : ({ s₁ with nodes := g } : RBTree K V) = s' := by
      rw [herase] at herase'
      exact (Prod.mk.inj (Option.some.inj herase')).1
    rw [Bool.eq_false_iff]
    intro hturned
    obtain ⟨S, hSroot, -, hSclosed, y, hy, hSy⟩ := hlost hturned
    -- the node that was turned up was found before
    have hbefore := howned.find_present hy (Comparator.equiv_refl (keyOf y))
    have hafter := (hfind (keyOf y)).1.trans hbefore
    have hstart : s₁.root = kInvalidNodeId ∨ S s₁.root := by
      rw [howned.root]
      exact Or.inr hSroot
    rcases hSclosed.get hstart hafter with hnone | hin
    · exact ne_invalid (howned.valid hy) hnone
    · exact hSy hin
  · intro hcalmed
    have hsame := hcalm hcalmed
    refine ⟨{ s₁ with nodes := g }, herase, ?_, entries_sameLinks hsame rfl rfl, rfl⟩
    intro j
    have hfind : RBTree.find cmp { s₁ with nodes := g } j = s₁.find cmp j := find_sameLinks hsame (by rfl) (by rfl) j
    refine ⟨hfind, ?_⟩
    rw [hfind]
    apply congrArg (fun f => Option.map f (s₁.find cmp j))
    funext id
    unfold entry
    rw [(hsame id).2.2.2]

/-- After one insertion the root has no red child, and an absent key is missed without a turn. -/
theorem eraseIsNoop_single : ∃ s₀ s answers, createFrom 4096 144 24 (fun _ => 0) blank = some (some s₀) ∧
    s₀.exec natural 0 [.insert 1 10] = some (s, answers) ∧ EraseIsNoop natural s 3 := by
  obtain ⟨s₀, hc, hmax⟩ := createFrom_two
  have hops : (BoundedMap.empty : BoundedMap natural Nat s₀.maxSize).ErasesPresent [.insert 1 10] :=
    ⟨fun k hk => (nomatch hk), trivial⟩
  have habs : ¬ ((BoundedMap.empty : BoundedMap natural Nat s₀.maxSize).exec [.insert 1 10]).1.has 3 := by
    rw [hmax]
    decide
  have hturns : (createFrom 4096 144 24 (fun _ => 0) blank).join.bind (fun s₀ => (s₀.exec natural 0 [.insert 1 10]).map
      fun r => r.1.nodes.turns natural 3 r.1.limit r.1.root) = some false := by decide +kernel
  rw [hc] at hturns
  obtain ⟨⟨s, answers⟩, hexec, hturn⟩ := Option.map_eq_some_iff.mp hturns
  exact ⟨s₀, s, answers, hc, hexec, (eraseIsNoop_iff (by decide) hc hops hexec habs).mpr hturn⟩

/-- **After two insertions the root has a red left child**, and erasing a greater key loses that child: `find(1)` was
    the first node before, and is `end()` after. -/
theorem not_eraseIsNoop_two : ∃ s₀ s answers, createFrom 4096 144 24 (fun _ => 0) blank = some (some s₀) ∧
    s₀.exec natural 0 [.insert 1 10, .insert 2 20] = some (s, answers) ∧ s.find natural 3 = some kInvalidNodeId ∧
    ¬ EraseIsNoop natural s 3 := by
  obtain ⟨s₀, hc, -⟩ := createFrom_two
  have hrun : (createFrom 4096 144 24 (fun _ => 0) blank).join.bind (fun s₀ =>
      (s₀.exec natural 0 [.insert 1 10, .insert 2 20]).map fun r => (r.1.find natural 3, r.1.find natural 1,
        (r.1.erase natural 3).map fun e => e.1.find natural 1)) =
      some (some kInvalidNodeId, some 0, some (some kInvalidNodeId)) := by decide +kernel
  rw [hc] at hrun
  obtain ⟨⟨s, answers⟩, hexec, hfinds⟩ := Option.map_eq_some_iff.mp hrun
  simp only [Prod.mk.injEq] at hfinds
  obtain ⟨h₃, h₁, hafter⟩ := hfinds
  refine ⟨s₀, s, answers, hc, hexec, h₃, ?_⟩
  rintro ⟨s', herase, hfind, -⟩
  rw [herase] at hafter
  have hlost : s'.find natural 1 = some kInvalidNodeId := Option.some.inj hafter
  rw [(hfind 1).1, h₁] at hlost
  exact absurd hlost (by decide)

end Created

end RBTree
end Snippets
