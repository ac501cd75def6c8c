import Snippets.RBTree.Shape

/-!
# `RBTree.Insert` — `Get` and `Put` on a held tree

`Get` follows `find`, and `Put` of an absent key follows `put`, with the slice that `GetSlice` hands out as the id of
the new element.
-/

namespace Snippets

open Lib

namespace RBTree

open MemoryList (Holding)

variable {K V : Type} {cmp : Comparator K}

variable {h h' : Heap K V} {s : RBTree K V} {t l r : ColorTree (Elem K V)} {x : Elem K V} {c : Color}
  {p i : NodeId} {key : K} {val : V}

/-! ## `Get`

The descent compares as the tree does, so it comes to the same node. -/

/-- **`Get` follows `find`.** -/
theorem Held.get_eq (ht : Held h t p) (key : K) {fuel : Nat} (hfuel : t.toList.length < fuel) :
    h.get cmp key fuel (rootId t) = some (((t.find cmp keyOf key).map Prod.fst).getD kInvalidNodeId) := by
  induction t generalizing p fuel with
  | nil =>
      obtain ⟨fuel, rfl⟩ : ∃ n, fuel = n + 1 := ⟨fuel - 1, by omega⟩
      rfl
  | node c l x r ihl ihr =>
      obtain ⟨fuel, rfl⟩ : ∃ n, fuel = n + 1 := ⟨fuel - 1, by omega⟩
      have hs := held_node.mp ht
      rw [ColorTree.toList_node, List.length_append, List.length_cons] at hfuel
      unfold Heap.get ColorTree.find
      rw [rootId_node, getPointer_of_pos hs.valid, hs.here]
      show (if cmp.less (keyOf x) key then h.get cmp key fuel (rootId r)
        else if cmp.less key (keyOf x) then h.get cmp key fuel (rootId l) else some x.1) = _
      split
      · exact ihr hs.right (by omega)
      · split
        · exact ihl hs.left (by omega)
        · rfl

/-! ## `Put`

On the way up the new subtree is linked and the balance kept, once for each side. -/

/-- The new child of a node, linked both ways. -/
theorem Split.attachLeft {l' : ColorTree (Elem K V)} {q : NodeId} (s : Split h c l x r p) (hx : h' x.1 = h x.1)
    (hr : ∀ k ∈ ids r, h' k = h k) (hl : Held h' l' q) (hne : l' ≠ .nil) (hnot : x.1 ∉ ids l')
    (hap : ∀ i ∈ ids l', i ∉ ids r) :
    Held ((h'.store x.1 fun n => n.setChild .left (rootId l')).store (rootId l') fun n => { n with p := x.1 })
      (.node c l' x r) p := by
  have hmem : rootId l' ∈ ids l' := (rootId_cases l').resolve_left hne
  have hxl : x.1 ≠ rootId l' := fun heq => hnot (heq ▸ hmem)
  refine held_node.mpr ⟨?_, s.valid, ?_, s.right.congr fun k hk => ?_, hnot, s.not_right, hap⟩
  · rw [store_of_ne _ hxl, store_self, hx, s.here]
    rfl
  · apply hl.reparent
    · intro k hk hkr
      rw [store_of_ne _ hkr, store_of_ne _ (by rintro rfl; exact hnot hk)]
    · intro _
      rw [store_self, store_of_ne _ (Ne.symm hxl)]
  · rw [store_of_ne _ (by rintro rfl; exact hap _ hmem hk), store_of_ne _ (by rintro rfl; exact s.not_right hk), hr k hk]

/-- The right link set to a new subtree. -/
theorem Split.attachRight {r' : ColorTree (Elem K V)} {q : NodeId} (s : Split h c l x r p) (hx : h' x.1 = h x.1)
    (hl : ∀ k ∈ ids l, h' k = h k) (hr : Held h' r' q) (hne : r' ≠ .nil) (hnot : x.1 ∉ ids r')
    (hap : ∀ i ∈ ids l, i ∉ ids r') :
    Held ((h'.store x.1 fun n => n.setChild .right (rootId r')).store (rootId r') fun n => { n with p := x.1 })
      (.node c l x r') p := by
  have hmem : rootId r' ∈ ids r' := (rootId_cases r').resolve_left hne
  have hxr : x.1 ≠ rootId r' := fun heq => hnot (heq ▸ hmem)
  refine held_node.mpr ⟨?_, s.valid, s.left.congr fun k hk => ?_, ?_, s.not_left, hnot, hap⟩
  · rw [store_of_ne _ hxr, store_self, hx, s.here]
    rfl
  · rw [store_of_ne _ (by rintro rfl; exact hap _ hk hmem), store_of_ne _ (by rintro rfl; exact s.not_left hk), hl k hk]
  · apply hr.reparent
    · intro k hk hkr
      rw [store_of_ne _ hkr, store_of_ne _ (by rintro rfl; exact hnot hk)]
    · intro _
      rw [store_self, store_of_ne _ (Ne.symm hxr)]

/-- The element `Put` adds. -/
def newElem (new : NodeId) (key : K) (val : V) : Elem K V := (new, (key, val))

/-- The tree after `Put`. -/
def putTree (cmp : Comparator K) (key : K) (val : V) (new : NodeId) (t : ColorTree (Elem K V)) : ColorTree (Elem K V) :=
  t.put cmp keyOf key (newElem new key val) fun x => (x.1, (x.2.1, val))

/-- The ids after `Put` of an absent key: the old ones and the new one. -/
theorem mem_ids_putTree {new : NodeId} (ho : ColorTree.Ordered cmp keyOf t.toList)
    (habs : ∀ x ∈ t.toList, cmp.equiv key (keyOf x) = false) : i ∈ ids (putTree cmp key val new t) ↔ i = new ∨ i ∈ ids t := by
  obtain ⟨as, bs, h₁, h₂, -, -⟩ := ColorTree.put_spec ho habs (newElem new key val) fun x => (x.1, (x.2.1, val))
  unfold ids putTree
  rw [h₁, h₂]
  simp only [List.map_append, List.map_cons, List.mem_append, List.mem_cons, newElem]
  tauto

/-- An insert leaves a tree that is not empty. -/
theorem putTree_ne_nil {new : NodeId} (ho : ColorTree.Ordered cmp keyOf t.toList)
    (habs : ∀ x ∈ t.toList, cmp.equiv key (keyOf x) = false) : putTree cmp key val new t ≠ .nil := by
  intro heq
  have h : new ∈ ids (putTree cmp key val new t) := (mem_ids_putTree ho habs).mpr (Or.inl rfl)
  rw [heq] at h
  cases h

/-- A single new node is a tree of its own. -/
theorem held_newNode {new : NodeId} (hpos : 0 ≤ new) :
    Held (h.store new fun _ => RBNode.init key val) (.node .red .nil (newElem new key val) .nil) kInvalidNodeId := by
  refine held_node.mpr ⟨?_, hpos, held_nil, held_nil, by simp, by simp, by simp⟩
  exact store_self _

/-- The state after a slice was taken and the nodes changed to `g`. -/
def grown (s : RBTree K V) (ml : MemoryList) (g : Heap K V) : RBTree K V :=
  { s with ml := ml, nodes := g, size := toSize (s.size + 1) }

/-- `attach` is `KeepBalance` after the child was linked both ways. -/
theorem attach_eq {s : RBTree K V} {side : Side} {nodeId child : NodeId} (hpos : 0 ≤ child) :
    s.attach side nodeId child =
      (((s.nodes.store nodeId fun n => n.setChild side child).store child fun n => { n with p := nodeId }).keepBalance
        nodeId).map fun r => ({ s with nodes := r.1 }, r.2) := by
  unfold attach store onNodes
  simp only [node_of_pos hpos, Option.bind_eq_bind, Option.bind_some]

/-- The way up from a new left child: it is linked, and `KeepBalance` runs. -/
theorem Split.put_left {l' : ColorTree (Elem K V)} {ml' : MemoryList} {g : Heap K V} {q new : NodeId}
    (hs : Split s.nodes c l x r p) (hmem : ∀ k, k ∈ ids l' ↔ k = new ∨ k ∈ ids l) (hheld : Held g l' q) (hne : l' ≠ .nil)
    (hframe : ∀ k, k ∉ ids l → k ≠ new → g k = s.nodes k) (hfx : x.1 ≠ new) (hfr : new ∉ ids r) :
    ∃ g', (s.grown ml' g).attach .left x.1 (rootId l') = some (s.grown ml' g', rootId (ColorTree.node c l' x r).keepBalance) ∧
      Held g' (ColorTree.node c l' x r).keepBalance p ∧
      ∀ k, k ∉ ids (.node c l x r) → k ≠ new → g' k = s.nodes k := by
  have hroot : rootId l' ∈ ids l' := (rootId_cases l').resolve_left hne
  have hnot : x.1 ∉ ids l' := by
    rw [hmem]
    rintro (heq | hxl)
    · exact hfx heq
    · exact hs.not_left hxl
  have hap : ∀ k ∈ ids l', k ∉ ids r := by
    intro k hk
    rcases (hmem k).mp hk with rfl | hk
    · exact hfr
    · exact hs.apart k hk
  have hr : ∀ k ∈ ids r, g k = s.nodes k := by
    intro k hk
    apply hframe k fun hkl => hs.apart k hkl hk
    rintro rfl
    exact hfr hk
  -- the new child is linked, and the root is balanced above it
  have hatt := hs.attachLeft (hframe _ hs.not_left hfx) hr hheld hne hnot hap
  obtain ⟨g', hkeep, hheld', hframe'⟩ := hatt.keepBalance (by simp)
  rw [rootId_node] at hkeep
  refine ⟨g', ?_, hheld', ?_⟩
  · rw [attach_eq (hheld.pos _ hroot)]
    show ((Heap.store (Heap.store g x.1 _) _ _).keepBalance x.1).map _ = _
    rw [hkeep]
    rfl
  · intro k hk hkn
    rw [mem_ids_node] at hk
    push Not at hk
    have hk' : k ∉ ids (.node c l' x r) := by
      rw [mem_ids_node, hmem]
      push Not
      exact ⟨⟨hkn, hk.1⟩, hk.2⟩
    have hkr : k ≠ rootId l' := by
      rintro rfl
      exact hk' (mem_ids_node.mpr (Or.inl hroot))
    rw [hframe' k hk', store_of_ne _ hkr, store_of_ne _ hk.2.1, hframe k hk.1 hkn]

/-- The way up from a new right child. -/
theorem Split.put_right {r' : ColorTree (Elem K V)} {ml' : MemoryList} {g : Heap K V} {q new : NodeId}
    (hs : Split s.nodes c l x r p) (hmem : ∀ k, k ∈ ids r' ↔ k = new ∨ k ∈ ids r) (hheld : Held g r' q) (hne : r' ≠ .nil)
    (hframe : ∀ k, k ∉ ids r → k ≠ new → g k = s.nodes k) (hfx : x.1 ≠ new) (hfl : new ∉ ids l) :
    ∃ g', (s.grown ml' g).attach .right x.1 (rootId r') = some (s.grown ml' g', rootId (ColorTree.node c l x r').keepBalance) ∧
      Held g' (ColorTree.node c l x r').keepBalance p ∧
      ∀ k, k ∉ ids (.node c l x r) → k ≠ new → g' k = s.nodes k := by
  have hroot : rootId r' ∈ ids r' := (rootId_cases r').resolve_left hne
  have hnot : x.1 ∉ ids r' := by
    rw [hmem]
    rintro (heq | hxr)
    · exact hfx heq
    · exact hs.not_right hxr
  have hap : ∀ k ∈ ids l, k ∉ ids r' := by
    intro k hk hkr
    rcases (hmem k).mp hkr with rfl | hkr
    · exact hfl hk
    · exact hs.apart k hk hkr
  have hl : ∀ k ∈ ids l, g k = s.nodes k := by
    intro k hk
    apply hframe k (hs.apart k hk)
    rintro rfl
    exact hfl hk
  -- the same on the right
  have hatt := hs.attachRight (hframe _ hs.not_right hfx) hl hheld hne hnot hap
  obtain ⟨g', hkeep, hheld', hframe'⟩ := hatt.keepBalance (by simp)
  rw [rootId_node] at hkeep
  refine ⟨g', ?_, hheld', ?_⟩
  · rw [attach_eq (hheld.pos _ hroot)]
    show ((Heap.store (Heap.store g x.1 _) _ _).keepBalance x.1).map _ = _
    rw [hkeep]
    rfl
  · intro k hk hkn
    rw [mem_ids_node] at hk
    push Not at hk
    have hk' : k ∉ ids (.node c l x r') := by
      rw [mem_ids_node, hmem]
      push Not
      exact ⟨hk.1, hk.2.1, hkn, hk.2.2⟩
    have hkr : k ≠ rootId r' := by
      rintro rfl
      exact hk' (mem_ids_node.mpr (Or.inr (Or.inr hroot)))
    rw [hframe' k hk', store_of_ne _ hkr, store_of_ne _ hk.2.1, hframe k hk.2.2 hkn]

/-- **`Put` of an absent key follows `put`**, with the slice that `GetSlice` hands out. -/
theorem put_eq {ml' : MemoryList} {new : NodeId} (val : V) (ht : Held s.nodes t p) (ho : ColorTree.Ordered cmp keyOf t.toList)
    (habs : ∀ x ∈ t.toList, cmp.equiv key (keyOf x) = false) (hget : s.ml.getSlice = some (ml', new)) (hpos : 0 ≤ new)
    (hfresh : new ∉ ids t) {fuel : Nat} (hfuel : t.toList.length < fuel) :
    ∃ g, s.put cmp key val fuel (rootId t) = some (s.grown ml' g, rootId (putTree cmp key val new t)) ∧
      Held g (putTree cmp key val new t) (if t.isNil then kInvalidNodeId else p) ∧
      ∀ k, k ∉ ids t → k ≠ new → g k = s.nodes k := by
  -- by induction on the tree, to the side of the key
  induction t generalizing p fuel with
  | nil =>
      obtain ⟨fuel, rfl⟩ : ∃ n, fuel = n + 1 := ⟨fuel - 1, by omega⟩
      refine ⟨s.nodes.store new fun _ => RBNode.init key val, ?_, held_newNode hpos, fun k _ hk => store_of_ne _ hk⟩
      have hnode : s.newNode key val = some (s.grown ml' (s.nodes.store new fun _ => RBNode.init key val), new) := by
        unfold newNode
        simp only [hget, node_of_pos hpos, Option.bind_eq_bind, Option.bind_some]
        rfl
      exact hnode
  | node c l x r ihl ihr =>
      obtain ⟨fuel, rfl⟩ : ∃ n, fuel = n + 1 := ⟨fuel - 1, by omega⟩
      have hs := held_node.mp ht
      obtain ⟨hol, hor, -, -⟩ := ColorTree.Ordered.node_iff.mp ho
      have habl : ∀ y ∈ l.toList, cmp.equiv key (keyOf y) = false := fun y hy => habs y (by simp [hy])
      have habr : ∀ y ∈ r.toList, cmp.equiv key (keyOf y) = false := fun y hy => habs y (by simp [hy])
      rw [mem_ids_node] at hfresh
      push Not at hfresh
      obtain ⟨hfl, hfx, hfr⟩ := hfresh
      rw [ColorTree.toList_node, List.length_append, List.length_cons] at hfuel
      have hkey : keyOf x = x.2.1 := rfl
      rw [rootId_node, RBTree.put, getPointer_of_pos hs.valid, hs.here]
      dsimp only
      rw [← hkey]
      by_cases hkx : cmp.less key (keyOf x) = true
      · have hlen : l.toList.length < fuel := by omega
        obtain ⟨g, hput, hheld, hframe⟩ := ihl hs.left hol habl hfl hlen
        have htree : putTree cmp key val new (.node c l x r) =
            (ColorTree.node c (putTree cmp key val new l) x r).keepBalance := by
          show ColorTree.put cmp keyOf key _ _ (.node c l x r) = _
          rw [ColorTree.put, if_pos hkx]
          rfl
        rw [if_pos hkx, hput, htree]
        exact hs.put_left (fun k => mem_ids_putTree hol habl) hheld (putTree_ne_nil hol habl) hframe (Ne.symm hfx) hfr
      · have hxk : cmp.less (keyOf x) key = true := by
          by_contra hxk
          have hx := habs x (by simp)
          rw [Comparator.equiv_iff.mpr ⟨by simpa using hkx, by simpa using hxk⟩] at hx
          cases hx
        have hlen : r.toList.length < fuel := by omega
        obtain ⟨g, hput, hheld, hframe⟩ := ihr hs.right hor habr hfr hlen
        have htree : putTree cmp key val new (.node c l x r) =
            (ColorTree.node c l x (putTree cmp key val new r)).keepBalance := by
          show ColorTree.put cmp keyOf key _ _ (.node c l x r) = _
          rw [ColorTree.put, if_neg hkx, if_pos hxk]
          rfl
        rw [if_neg hkx, if_pos hxk, hput, htree]
        exact hs.put_right (fun k => mem_ids_putTree hor habr) hheld (putTree_ne_nil hor habr) hframe (Ne.symm hfx) hfl

end RBTree
end Snippets
