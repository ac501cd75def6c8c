import Snippets.PointerTree.Insert
import Mathlib.Data.List.Perm.Subperm

/-!
# `PointerTree.Owned` — searching, inserting and walking

`Owned cmp s t` is what holds of the tree between calls: it hangs from `root_`, is a search tree, is red-black with a
black root, and `size_` counts it. `find` and the descent of `insert` follow `seek`; `insert` of a key that is not
there hangs a node at the place found and repairs the tree.
-/

namespace Snippets

open Lib

namespace PointerTree

open ColorTree (nodeAt plug Frame RedBlack Around topRed seek)

variable {K V : Type} {cmp : Comparator K} {s s' : PointerTree K V} {t l r : ColorTree (Elem K V)} {x : Elem K V}
  {fs gs : List (Frame (Elem K V))} {p q : Ptr} {k : K} {v : V} {c : Color} {side : Side}

/-- The key of an element. -/
def keyOf (x : Elem K V) : K := x.2.1

/-- What the state is between calls when its tree is `t`. -/
structure Owned (cmp : Comparator K) (s : PointerTree K V) (t : ColorTree (Elem K V)) : Prop where
  held : Held s t
  ordered : ColorTree.Ordered cmp keyOf t.toList
  redBlack : ∃ m, RedBlack t m
  black : t.isRed = false
  size : s.size = t.toList.length

/-- A new tree is empty. -/
theorem owned_empty : Owned cmp (empty : PointerTree K V) .nil :=
  ⟨⟨trivial, rfl, List.nodup_nil⟩, List.Pairwise.nil, ⟨0, .nil⟩, rfl, rfl⟩

/-! ## How long a loop can be

The loops of the source go down or up a branch, and none is longer than the number of nodes that were ever made;
so a bound on the loops loses nothing. -/

/-- Every node has an address below `next`. -/
theorem Held.length_le (hs : Held s t) : t.toList.length ≤ s.heap.next := by
  have hsub : ids t ⊆ List.range s.heap.next := by
    intro a ha
    rw [List.mem_range]
    by_contra hge
    obtain ⟨n, hn⟩ := hs.rep.live ha
    rw [s.heap.fresh a (Nat.le_of_not_lt hge)] at hn
    cases hn
  have hle := (List.Nodup.subperm hs.nodup hsub).length_le
  rw [List.length_range] at hle
  unfold ids at hle
  rw [List.length_map] at hle
  exact hle

/-- The nodes below and the frames above a place are among those made so far. -/
theorem Held.frames_le (hs : Held s (plug fs t)) : t.toList.length + fs.length ≤ s.heap.next :=
  Nat.le_trans (ColorTree.le_length_plug fs t) hs.length_le

/-! ## Searching

`find` and the descent of `insert` go the way of `seek`: down by comparing, until the key or an empty place is
met. -/

/-- **`find` follows `seek`.** -/
theorem findFrom_eq {fuel : Nat} (ht : Rep s.heap t p) (hfuel : t.toList.length < fuel) (fs : List (Frame (Elem K V))) :
    s.findFrom cmp k fuel (rootPtr t) = some (rootPtr (seek cmp keyOf k t fs).2) := by
  -- by induction on the subtree, which stands below the frames passed
  induction t generalizing p fuel fs with
  | nil =>
      obtain ⟨fuel, rfl⟩ : ∃ n, fuel = n + 1 := ⟨fuel - 1, by omega⟩
      rfl
  | node c l x r ihl ihr =>
      obtain ⟨fuel, rfl⟩ : ∃ n, fuel = n + 1 := ⟨fuel - 1, by omega⟩
      obtain ⟨hx, hl, hr⟩ := ht
      rw [ColorTree.toList_node, List.length_append, List.length_cons] at hfuel
      have hunfold : s.findFrom cmp k (fuel + 1) (some x.1) =
          if !cmp.less k (keyOf x) && !cmp.less (keyOf x) k then some (some x.1)
          else if cmp.less k (keyOf x) then s.findFrom cmp k fuel (rootPtr l)
          else s.findFrom cmp k fuel (rootPtr r) := by
        simp only [findFrom, hx]
        rfl
      show s.findFrom cmp k (fuel + 1) (some x.1) = _
      rw [hunfold]
      unfold seek
      by_cases h₁ : cmp.less k (keyOf x) = true
      · simp only [h₁, Bool.not_true, Bool.false_and, Bool.false_eq_true, if_false, if_true]
        exact ihl hl (by omega) _
      · rw [Bool.not_eq_true] at h₁
        by_cases h₂ : cmp.less (keyOf x) k = true
        · simp only [h₁, h₂, Bool.not_false, Bool.not_true, Bool.and_false, Bool.false_eq_true, if_false, if_true]
          exact ihr hr (by omega) _
        · rw [Bool.not_eq_true] at h₂
          simp only [h₁, h₂, Bool.not_false, Bool.and_self, if_true, Bool.false_eq_true, if_false]
          rfl

/-- `find` gives the node at the place that `seek` comes to. -/
theorem Held.find_eq (hs : Held s t) (cmp : Comparator K) (k : K) :
    s.find cmp k = some (rootPtr (seek cmp keyOf k t []).2) := by
  have hle := hs.length_le
  unfold find limit
  rw [hs.root]
  exact findFrom_eq hs.rep (by omega) []

/-- The cursor `prev` of `insert`: it starts at the root. -/
def cameFrom (root : Ptr) : List (Frame (Elem K V)) → Ptr
  | [] => root
  | f :: _ => some f.x.1

/-- The sign `res` of `insert`. -/
def turn : List (Frame (Elem K V)) → Int
  | [] => 0
  | ⟨.left, _, _, _⟩ :: _ => -1
  | ⟨.right, _, _, _⟩ :: _ => 1

/-- **The descent of `insert` follows `seek`**, with the way's last step in `prev` and `res`. -/
theorem descend_eq {fuel : Nat} (ht : Rep s.heap t p) (hfuel : t.toList.length < fuel) (root : Ptr)
    (fs : List (Frame (Elem K V))) : s.descend cmp k fuel (cameFrom root fs) (rootPtr t) (turn fs) =
      some (cameFrom root (seek cmp keyOf k t fs).1, rootPtr (seek cmp keyOf k t fs).2,
        if (seek cmp keyOf k t fs).2.isNil then turn (seek cmp keyOf k t fs).1 else 0) := by
  -- by induction on the subtree; the last node passed and its side are kept on the way
  induction t generalizing p fuel fs with
  | nil =>
      obtain ⟨fuel, rfl⟩ : ∃ n, fuel = n + 1 := ⟨fuel - 1, by omega⟩
      rfl
  | node c l x r ihl ihr =>
      obtain ⟨fuel, rfl⟩ : ∃ n, fuel = n + 1 := ⟨fuel - 1, by omega⟩
      obtain ⟨hx, hl, hr⟩ := ht
      rw [ColorTree.toList_node, List.length_append, List.length_cons] at hfuel
      have hunfold : s.descend cmp k (fuel + 1) (cameFrom root fs) (some x.1) (turn fs) =
          if cmp.less k (keyOf x) then s.descend cmp k fuel (some x.1) (rootPtr l) (-1)
          else if cmp.less (keyOf x) k then s.descend cmp k fuel (some x.1) (rootPtr r) 1
          else some (cameFrom root fs, some x.1, 0) := by
        simp only [descend, hx]
        rfl
      show s.descend cmp k (fuel + 1) (cameFrom root fs) (some x.1) (turn fs) = _
      rw [hunfold]
      unfold seek
      by_cases h₁ : cmp.less k (keyOf x) = true
      · rw [if_pos h₁, if_pos h₁]
        exact ihl hl (by omega) (⟨.left, c, x, r⟩ :: fs)
      · rw [if_neg h₁, if_neg h₁]
        by_cases h₂ : cmp.less (keyOf x) k = true
        · rw [if_pos h₂, if_pos h₂]
          exact ihr hr (by omega) (⟨.right, c, x, l⟩ :: fs)
        · rw [if_neg h₂, if_neg h₂]
          rfl

/-! ## Inserting

A new red leaf at the empty place. Below a black node the tree is red-black as it is; below a red one
`insert_fixup` repairs it. -/

/-- The state in which a node has been hung at the hole. -/
def hung (s : PointerTree K V) (fs : List (Frame (Elem K V))) (pair : K × V) : PointerTree K V :=
  repoint { s with heap := s.heap.alloc ⟨pair, parentPtr fs, none, none, .red⟩ } fs (some s.heap.next)

/-- The new node is at an address that nothing else has. -/
theorem Held.next_not_mem (hs : Held s t) : s.heap.next ∉ ids t := by
  intro hmem
  obtain ⟨n, hn⟩ := hs.rep.live hmem
  rw [s.heap.fresh _ (Nat.le_refl _)] at hn
  cases hn

/-- **A new red leaf** at a hole of the tree. -/
theorem Held.hung (hs : Held s (plug fs .nil)) (pair : K × V) :
    Held (s.hung fs pair) (plug fs (.node .red .nil (s.heap.next, pair) .nil)) := by
  have hnew : s.heap.next ∉ frameIds fs := fun hmem => hs.next_not_mem (ids_plug.mem_iff.mpr (List.mem_append_right _ hmem))
  have hcells : ∀ i ∈ frameIds fs, (s.heap.alloc ⟨pair, parentPtr fs, none, none, .red⟩).cells i = s.heap.cells i := by
    intro i hi
    apply Function.update_of_ne
    rintro rfl
    exact hnew hi
  have hfs := hs.focus.1.congr hcells
  refine ⟨rep_plug.mpr ⟨repoint_frames hfs hs.nodup_focus.2.1, ?_, trivial, trivial⟩, repoint_root hs.root rfl, ?_⟩
  · rw [PointerTree.hung, repoint_cells hnew]
    exact Function.update_self ..
  · rw [ids_plug.nodup_iff]
    exact List.nodup_cons.mpr ⟨hnew, hs.nodup_focus.2.1⟩

/-- `insert_impl` below a node hangs the new one at the place where the descent has ended. -/
theorem hang_eq {f : Frame (Elem K V)} (hs : Held s (plug (f :: fs) .nil)) (pair : K × V) :
    s.hang (parentPtr (f :: fs)) (turn (f :: fs)) pair = some (s.hung (f :: fs) pair) := by
  have hcell : (s.heap.alloc ⟨pair, some f.x.1, none, none, .red⟩).cells f.x.1 =
      some (cellAt f.side f.x (parentPtr fs) none (rootPtr f.sib) f.c) := by
    have hne : f.x.1 ≠ s.heap.next := by
      intro h
      exact hs.next_not_mem (h ▸ ids_plug.mem_iff.mpr (List.mem_append_right _ List.mem_cons_self))
    exact (Function.update_of_ne hne _ _).trans hs.focus.1.1
  obtain ⟨side, c, y, b⟩ := f
  cases side with
  | left =>
      show (write _ (some y.1) _ : Option (PointerTree K V)) = _
      rw [write_eq hcell]
      rfl
  | right =>
      show (write _ (some y.1) _ : Option (PointerTree K V)) = _
      rw [write_eq hcell]
      rfl

/-- In an empty tree the new node is the root, and black. -/
theorem hang_root (s : PointerTree K V) (pair : K × V) :
    ∃ s', s.hang none 0 pair = some s' ∧ Held s' (.node .black .nil (s.heap.next, pair) .nil) ∧ s'.size = s.size := by
  have hcell : ({ s with heap := s.heap.alloc ⟨pair, none, none, none, .red⟩ } : PointerTree K V).heap.cells s.heap.next =
      some ⟨pair, none, none, none, .red⟩ := Function.update_self ..
  let s' : PointerTree K V := { s with
    root := some s.heap.next
    heap := (s.heap.alloc ⟨pair, none, none, none, .red⟩).modify s.heap.next fun n => n.paint .black }
  refine ⟨s', ?_, ⟨⟨?_, trivial, trivial⟩, rfl, by simp [ids]⟩, rfl⟩
  · unfold hang
    simp only [Option.isSome_none, Bool.false_eq_true, if_false, Option.bind_eq_bind]
    rw [write_eq hcell]
    rfl
  · show (Heap.modify _ _ _).cells _ = _
    rw [cells_modify_self, hcell]
    rfl

/-- **`insert_impl`** at the place of an absent key. -/
theorem Held.insertImpl (hs : Held s (plug fs .nil)) (hrb : ∃ m, RedBlack (plug fs .nil) m)
    (hblack : (plug fs (.nil : ColorTree (Elem K V))).isRed = false) (pair : K × V) :
    ∃ s' t', s.insertImpl (parentPtr fs) (turn fs) pair = some (s', some s.heap.next) ∧
      Repaired s' (ColorTree.before fs ++ (s.heap.next, pair) :: ColorTree.after fs) t' ∧ s'.size = s.size := by
  obtain ⟨m, hm⟩ := hrb
  obtain ⟨n, hnil, haround, -⟩ := hm.unplug hblack
  cases hnil with
  | nil =>
  -- in either case the elements are the old ones and the new one between them
  have hlist : (plug fs (.node .red .nil (s.heap.next, pair) .nil)).toList =
      ColorTree.before fs ++ (s.heap.next, pair) :: ColorTree.after fs := by
    rw [ColorTree.toList_plug]
    simp
  cases fs with
  | nil =>
      obtain ⟨s', hhang, hs', hsize⟩ := hang_root s pair
      refine ⟨s', _, ?_, ⟨hs', ⟨1, .black .nil .nil⟩, rfl, rfl⟩, hsize⟩
      unfold PointerTree.insertImpl
      simp only [parentPtr, turn, hhang, Option.bind_eq_bind, Option.bind_some, deref_eq hs'.rep.1]
      rfl
  | cons f fs =>
      have hs' := hs.hung pair
      have hsize : (s.hung (f :: fs) pair).size = s.size := rfl
      have hred : RedBlack (.node .red .nil (s.heap.next, pair) .nil : ColorTree (Elem K V)) 0 := .red .nil .nil rfl rfl
      have hparent := isRed_eq (rep_plug.mp (show Rep (s.hung (f :: fs) pair).heap (plug fs (f.fill
        (.node .red .nil (s.heap.next, pair) .nil))) none from hs'.rep)).2
      rw [Frame.fill, rootPtr_nodeAt] at hparent
      by_cases htop : topRed (f :: fs) = true
      · -- below a red parent the tree is repaired
        have hlimit : (f :: fs).length < (s.hung (f :: fs) pair).limit := by
          have hle := hs'.frames_le
          unfold limit
          simp only [ColorTree.toList_node, List.length_append, List.length_cons] at hle ⊢
          omega
        obtain ⟨s'', t', hloop, hrep, hsame⟩ := hs'.insertFixup (x := (s.heap.next, pair)) rfl hred rfl haround hlimit
        rw [hlist] at hrep
        refine ⟨s'', t', ?_, hrep, hsame.size.trans hsize⟩
        have hparentRed : (s.hung (f :: fs) pair).isRed (some f.x.1) = some true := by
          rw [hparent]
          obtain ⟨side, c, y, b⟩ := f
          simp only [topRed, decide_eq_true_eq] at htop
          rw [htop, ColorTree.isRed_nodeAt_red]
        unfold PointerTree.insertImpl
        rw [hang_eq hs pair]
        simp only [Option.bind_eq_bind, Option.bind_some, deref_eq hs'.focus.2.1, parentPtr, hparentRed,
          if_true, hloop]
        rfl
      · -- below a black parent it is as it should be
        rw [Bool.not_eq_true] at htop
        obtain ⟨m', hm', hroot⟩ := haround.plug hred (fun _ => htop)
        refine ⟨_, _, ?_, ⟨hs', ⟨m', hm'⟩, hroot (List.cons_ne_nil _ _), hlist⟩, hsize⟩
        have hparentBlack : (s.hung (f :: fs) pair).isRed (some f.x.1) = some false := by
          rw [hparent]
          obtain ⟨side, c, y, b⟩ := f
          simp only [topRed, decide_eq_false_iff_not] at htop
          cases c with
          | red => exact absurd rfl htop
          | black => rw [ColorTree.isRed_nodeAt_black]
        unfold PointerTree.insertImpl
        rw [hang_eq hs pair]
        simp only [Option.bind_eq_bind, Option.bind_some, deref_eq hs'.focus.2.1, parentPtr,
          hparentBlack, Bool.false_eq_true, if_false]
        rfl

namespace Owned

/-- `find` on an owned tree. -/
theorem find_eq (h : Owned cmp s t) (k : K) : s.find cmp k = some (rootPtr (seek cmp keyOf k t []).2) := h.held.find_eq cmp k

/-- The descent of `insert`, from the root. -/
theorem descend_eq (h : Owned cmp s t) (k : K) : s.descend cmp k s.limit s.root s.root 0 =
    some (cameFrom s.root (seek cmp keyOf k t []).1, rootPtr (seek cmp keyOf k t []).2,
      if (seek cmp keyOf k t []).2.isNil then turn (seek cmp keyOf k t []).1 else 0) := by
  have hle := h.held.length_le
  have hfuel : t.toList.length < s.limit := by
    unfold limit
    omega
  have heq : s.descend cmp k s.limit s.root (rootPtr t) 0 = _ := PointerTree.descend_eq h.held.rep hfuel s.root []
  rw [← h.held.root] at heq
  exact heq

/-- The elements before and after a place, with a new one in between. -/
theorem ordered_insert {as bs : List (Elem K V)} (ho : ColorTree.Ordered cmp keyOf (as ++ bs))
    (has : ∀ y ∈ as, cmp.less (keyOf y) (keyOf x) = true) (hbs : ∀ y ∈ bs, cmp.less (keyOf x) (keyOf y) = true) :
    ColorTree.Ordered cmp keyOf (as ++ x :: bs) := by
  obtain ⟨h₁, h₂, h₃⟩ := List.pairwise_append.mp ho
  refine List.pairwise_append.mpr ⟨h₁, List.pairwise_cons.mpr ⟨hbs, h₂⟩, ?_⟩
  intro y hy z hz
  rcases List.mem_cons.mp hz with rfl | hz
  · exact has y hy
  · exact h₃ y hy z hz

/-- **`insert` of a key that is not there.** -/
theorem insert_new (h : Owned cmp s t) (habs : ∀ x ∈ t.toList, cmp.equiv k (keyOf x) = false) (v : V) :
    ∃ s' t' as bs, s.insert cmp (k, v) = some (s', some s.heap.next, true) ∧ Owned cmp s' t' ∧ t.toList = as ++ bs ∧
      t'.toList = as ++ (s.heap.next, (k, v)) :: bs := by
  have hdesc := h.descend_eq k
  rcases ColorTree.seek_cases h.ordered k with ⟨fs, c, l, x, r, -, rfl, heq⟩ | ⟨fs, hseek, rfl, hb, ha⟩
  · have hmem : x ∈ (plug fs (.node c l x r)).toList := by
      rw [ColorTree.toList_plug]
      simp
    rw [habs x hmem] at heq
    cases heq
  · rw [hseek] at hdesc
    have hlist : (plug fs (.nil : ColorTree (Elem K V))).toList = ColorTree.before fs ++ ColorTree.after fs := by
      rw [ColorTree.toList_plug]
      simp
    let s₁ : PointerTree K V := { s with size := s.size + 1 }
    have hs₁ : Held s₁ (plug fs .nil) := ⟨h.held.rep, h.held.root, h.held.nodup⟩
    obtain ⟨s', t', himpl, hrep, hsize⟩ := hs₁.insertImpl h.redBlack h.black (k, v)
    -- the source passes the last node and which side of it is empty
    have himpl' : s₁.insertImpl (cameFrom s.root fs) (turn fs) (k, v) = some (s', some s.heap.next) := by
      cases fs with
      | nil =>
          have hroot : s.root = none := h.held.root
          rw [hroot]
          exact himpl
      | cons f fs => exact himpl
    refine ⟨s', t', _, _, ?_, ⟨hrep.held, ?_, hrep.redBlack, hrep.black, ?_⟩, hlist, hrep.elems⟩
    · unfold PointerTree.insert
      simp only [hdesc, Option.bind_eq_bind, Option.bind_some]
      cases fs with
      | nil =>
          have hprev : cameFrom s.root ([] : List (Frame (Elem K V))) = none := h.held.root
          have hnode : rootPtr (.nil : ColorTree (Elem K V)) = cameFrom s.root ([] : List (Frame (Elem K V))) := hprev.symm
          simp only [if_pos hnode, guard, if_pos hprev, Option.pure_def, Option.bind_some, ColorTree.isNil_nil, if_true]
          show (s₁.insertImpl (cameFrom s.root []) (turn []) (k, v)).bind _ = _
          rw [himpl']
          rfl
      | cons f fs =>
          have hres : turn (f :: fs) ≠ 0 := by
            obtain ⟨side, c, y, b⟩ := f
            cases side with
            | left => exact (by decide : (-1 : Int) ≠ 0)
            | right => exact (by decide : (1 : Int) ≠ 0)
          have hprev : (rootPtr (.nil : ColorTree (Elem K V))) ≠ cameFrom s.root (f :: fs) := fun hnil => nomatch hnil
          simp only [if_neg hprev, ColorTree.isNil_nil, if_true, if_neg hres]
          show (s₁.insertImpl (cameFrom s.root (f :: fs)) (turn (f :: fs)) (k, v)).bind _ = _
          rw [himpl']
          rfl
    · have ho := h.ordered
      rw [hlist] at ho
      rw [hrep.elems]
      exact ordered_insert ho hb ha
    · have hs := h.size
      rw [hlist, List.length_append] at hs
      have hs₁size : s₁.size = s.size + 1 := rfl
      rw [hsize, hrep.elems, List.length_append, List.length_cons, hs₁size]
      omega

/-- The elements with a key that is present: one element, wherever it is. -/
theorem seek_present (h : Owned cmp s t) (hx : x ∈ t.toList) (heq : cmp.equiv k (keyOf x) = true) :
    ∃ fs c l r, seek cmp keyOf k t [] = (fs, .node c l x r) ∧ t = plug fs (.node c l x r) := by
  rcases ColorTree.seek_cases h.ordered k with ⟨fs, c, l, y, r, hseek, ht, hky⟩ | ⟨fs, -, ht, hb, ha⟩
  · have hy : y ∈ t.toList := by
      rw [ht, ColorTree.toList_plug]
      simp
    obtain rfl : x = y := h.ordered.eq_of_equiv hx hy (Comparator.equiv_trans (Comparator.equiv_symm heq) hky)
    exact ⟨fs, c, l, r, hseek, ht⟩
  · rw [ht, ColorTree.toList_plug] at hx
    simp only [ColorTree.toList_nil, List.append_nil, List.mem_append] at hx
    rcases hx with hx | hx
    · rw [Comparator.not_equiv_of_less' (hb x hx)] at heq
      cases heq
    · rw [Comparator.not_equiv_of_less (ha x hx)] at heq
      cases heq

/-- A key that is there is found, -/
theorem find_present (h : Owned cmp s t) (hx : x ∈ t.toList) (heq : cmp.equiv k (keyOf x) = true) :
    s.find cmp k = some (some x.1) := by
  obtain ⟨fs, c, l, r, hseek, -⟩ := h.seek_present hx heq
  rw [h.find_eq, hseek]
  rfl

/-- and one that is not there is not. -/
theorem find_absent (h : Owned cmp s t) (habs : ∀ x ∈ t.toList, cmp.equiv k (keyOf x) = false) :
    s.find cmp k = some none := by
  rcases ColorTree.seek_cases h.ordered k with ⟨fs, c, l, y, r, -, ht, hky⟩ | ⟨fs, hseek, -⟩
  · have hy : y ∈ t.toList := by
      rw [ht, ColorTree.toList_plug]
      simp
    rw [habs y hy] at hky
    cases hky
  · rw [h.find_eq, hseek]
    rfl

/-- Another value in the node in focus. -/
theorem setValue {y : Elem K V} (h : Owned cmp s (plug fs (.node c l x r))) (hs : Held s' (plug fs (.node c l y r)))
    (hkey : keyOf y = keyOf x) (hsize : s'.size = s.size) : Owned cmp s' (plug fs (.node c l y r)) := by
  have hkeys : (plug fs (.node c l y r)).toList.map keyOf = (plug fs (.node c l x r)).toList.map keyOf := by
    simp only [ColorTree.toList_plug, ColorTree.toList_node, List.map_append, List.map_cons, hkey]
  have hsorted : ((plug fs (.node c l x r)).toList.map keyOf).Pairwise fun a b => cmp.less a b = true :=
    List.pairwise_map.mpr h.ordered
  rw [← hkeys] at hsorted
  have hlen := congrArg List.length hkeys
  rw [List.length_map, List.length_map] at hlen
  have hskeleton : ∀ n, RedBlack (.node c l x r) n → RedBlack (.node c l y r) n := by
    intro n hn
    cases hn with
    | red h₁ h₂ h₃ h₄ => exact .red h₁ h₂ h₃ h₄
    | black h₁ h₂ => exact .black h₁ h₂
  have hcolor : (ColorTree.node c l y r).isRed = (ColorTree.node c l x r).isRed := by
    cases c <;> rfl
  obtain ⟨hrb, hred⟩ := RedBlack.plug_congr fs hskeleton hcolor
  obtain ⟨m, hm⟩ := h.redBlack
  refine ⟨hs, List.pairwise_map.mp hsorted, ⟨m, hrb m hm⟩, hred.trans h.black, ?_⟩
  rw [hsize, h.size, hlen]

/-- A store of a value into a node. -/
theorem writeValue (h : Owned cmp s t) (hx : x ∈ t.toList) (v : V) :
    ∃ s' t' as bs, s.write (some x.1) (fun n => { n with v := (n.v.1, v) }) = some s' ∧ Owned cmp s' t' ∧
      t.toList = as ++ x :: bs ∧ t'.toList = as ++ (x.1, (x.2.1, v)) :: bs ∧ rootPtr t' = rootPtr t := by
  obtain ⟨as, bs, hlist⟩ := List.append_of_mem hx
  obtain ⟨fs, c, l, r, rfl, has, hbs⟩ := ColorTree.exists_plug hlist
  have hfocus : Held s (plug fs (nodeAt .left c l x r)) := h.held
  obtain ⟨s', hwrite, hs', hsame⟩ := hfocus.store (x.1, (x.2.1, v)) c
    (fun n => { n with v := (n.v.1, v) }) rfl (fun _ _ _ => rfl)
  refine ⟨s', _, as, bs, hwrite, h.setValue hs' rfl hsame.size, hlist, ?_, ?_⟩
  · rw [ColorTree.toList_plug, ColorTree.toList_node, has, hbs]
    simp
  · cases fs with
    | nil => rfl
    | cons f fs => exact rootPtr_plug_cons

/-- **`insert` of a key that is there, below the root**, stores the value into its node. -/
theorem insert_present (h : Owned cmp s t) (hx : x ∈ t.toList) (heq : cmp.equiv k (keyOf x) = true)
    (hroot : rootPtr t ≠ some x.1) (v : V) :
    ∃ s' t' as bs, s.insert cmp (k, v) = some (s', some x.1, false) ∧ Owned cmp s' t' ∧ t.toList = as ++ x :: bs ∧
      t'.toList = as ++ (x.1, (x.2.1, v)) :: bs ∧ rootPtr t' = rootPtr t := by
  obtain ⟨s', t', as, bs, hwrite, h', hlist, hlist', hroot'⟩ := h.writeValue hx v
  refine ⟨s', t', as, bs, ?_, h', hlist, hlist', hroot'⟩
  obtain ⟨fs, c, l, r, hseek, rfl⟩ := h.seek_present hx heq
  have hdesc := h.descend_eq k
  rw [hseek] at hdesc
  cases fs with
  | nil => exact absurd rfl hroot
  | cons f fs =>
      have hfocus : Held s (plug (f :: fs) (nodeAt .left c l x r)) := h.held
      have hne : some x.1 ≠ cameFrom s.root (f :: fs) := by
        intro hcame
        obtain hxf : x.1 = f.x.1 := Option.some.inj hcame
        exact hfocus.apart.2.2 (hxf ▸ List.mem_cons_self)
      unfold PointerTree.insert
      simp only [hdesc, Option.bind_eq_bind, Option.bind_some]
      show (if some x.1 = cameFrom s.root (f :: fs) then _ else (s.write (some x.1) _).bind _) = _
      rw [if_neg hne, hwrite]
      rfl

/-- **`insert` of the root's key fails its assert.** -/
theorem insert_root (h : Owned cmp s t) (hx : x ∈ t.toList) (heq : cmp.equiv k (keyOf x) = true)
    (hroot : rootPtr t = some x.1) (v : V) : s.insert cmp (k, v) = none := by
  obtain ⟨fs, c, l, r, hseek, rfl⟩ := h.seek_present hx heq
  have hdesc := h.descend_eq k
  rw [hseek] at hdesc
  have hnil : fs = [] := by
    cases fs with
    | nil => rfl
    | cons f fs =>
        have hfocus : Held s (plug (f :: fs) (nodeAt .left c l x r)) := h.held
        exact absurd (h.held.root.trans hroot).symm (hfocus.ne_root mem_ids_nodeAt)
  subst hnil
  have hs : s.root = some x.1 := h.held.root
  unfold PointerTree.insert
  simp only [hdesc, Option.bind_eq_bind, Option.bind_some]
  show (if some x.1 = s.root then Option.bind (guard (s.root = none)) _ else _) = none
  rw [if_pos hs.symm, hs]
  rfl

end Owned

end PointerTree
end Snippets
