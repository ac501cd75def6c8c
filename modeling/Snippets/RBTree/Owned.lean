import Snippets.RBTree.Delete

/-!
# `RBTree.Owned` — the public interface on a whole tree

`Owned s t` says that the state `s` holds the tree `t` and nothing else: the root and the size are those of `t`, the
slices in use are the ids of `t`, and `t` is an ordered, left-leaning red-black tree with a black root. Every call of
the interface, an erasure of an absent key apart, takes an owned tree to an owned tree and fails no assert.
-/

namespace Snippets

open Lib

namespace RBTree

open MemoryList (Holding)

variable {K V : Type} {cmp : Comparator K} {s : RBTree K V} {t : ColorTree (Elem K V)} {x y : Elem K V} {k : K} {v : V}

/-- What the state is when the tree is `t`. -/
structure Owned (cmp : Comparator K) (s : RBTree K V) (t : ColorTree (Elem K V)) : Prop where
  held : Held s.nodes t kInvalidNodeId
  root : s.root = rootId t
  size : s.size = t.toList.length
  slices : Holding s.ml (ids t)
  ordered : ColorTree.Ordered cmp keyOf t.toList
  balanced : ∃ n, t.Leaning .black n

/-- There are as many ids as elements. -/
theorem ids_length (t : ColorTree (Elem K V)) : (ids t).length = t.toList.length := List.length_map _

/-- A tree fits the slices. -/
theorem Owned.length_le (h : Owned cmp s t) : t.toList.length ≤ s.ml.capacity := by
  rw [← ids_length]
  exact h.slices.length_le

/-- Its depth is below the limit of the descent. -/
theorem Owned.length_lt_limit (h : Owned cmp s t) : t.toList.length < s.limit := Nat.lt_succ_of_le h.length_le

/-- The capacity is an `int`. -/
theorem Owned.capacity_lt (h : Owned cmp s t) : s.ml.capacity < 2 ^ 31 := h.slices.fits.small

/-! ## `find`

The descent in the heap is the descent in the tree, and that finds a key when it is there. -/

/-- `find` gives the id of what the tree finds. -/
theorem Owned.find_eq (h : Owned cmp s t) (k : K) :
    s.find cmp k = some (((t.find cmp keyOf k).map Prod.fst).getD kInvalidNodeId) := by
  unfold RBTree.find
  rw [h.root]
  exact h.held.get_eq k h.length_lt_limit

/-- A key that is there is found, -/
theorem Owned.find_present (h : Owned cmp s t) (hx : x ∈ t.toList) (heq : cmp.equiv k (keyOf x) = true) :
    s.find cmp k = some x.1 := by
  obtain ⟨hsome, hnone⟩ := ColorTree.find_spec h.ordered k
  rw [h.find_eq]
  cases hf : t.find cmp keyOf k with
  | none =>
      rw [hnone hf x hx] at heq
      cases heq
  | some y =>
      obtain ⟨hy, heq'⟩ := hsome y hf
      rw [h.ordered.eq_of_equiv hx hy (Comparator.equiv_trans (Comparator.equiv_symm heq) heq')]
      rfl

/-- and one that is not there is not. -/
theorem Owned.find_absent (h : Owned cmp s t) (habs : ∀ x ∈ t.toList, cmp.equiv k (keyOf x) = false) :
    s.find cmp k = some kInvalidNodeId := by
  rw [h.find_eq]
  cases hf : t.find cmp keyOf k with
  | none => rfl
  | some y =>
      obtain ⟨hy, heq⟩ := (ColorTree.find_spec h.ordered k).1 y hf
      rw [habs y hy] at heq
      cases heq

/-- The ids of the tree are valid. -/
theorem Owned.valid (h : Owned cmp s t) (hx : x ∈ t.toList) : 0 ≤ x.1 := h.held.pos _ (mem_ids_of_mem hx)

/-- An iterator to an element points to its pair. -/
theorem Owned.entry_eq (h : Owned cmp s t) (hx : x ∈ t.toList) : s.entry x.1 = some x.2 := by
  unfold entry
  rw [if_neg (ne_invalid (h.valid hx)), h.held.rep.value hx]

/-- The invalid id stands for the end. -/
theorem entry_invalid : s.entry kInvalidNodeId = none := if_pos rfl

/-! ## `insert`

Three cases: the key is there, there is no slice left, and a new slice becomes a leaf, after which the way back
up keeps the balance. -/

/-- A key that is there is left alone. -/
theorem Owned.insert_present (h : Owned cmp s t) (hx : x ∈ t.toList) (heq : cmp.equiv k (keyOf x) = true) (v : V) :
    s.insert cmp k v = some (s, x.1, false) := by
  unfold RBTree.insert
  simp only [h.find_present hx heq, Option.bind_eq_bind, Option.bind_some, if_neg (ne_invalid (h.valid hx)), Option.pure_def]

/-- A full tree takes nothing in. -/
theorem Owned.insert_full (h : Owned cmp s t) (habs : ∀ x ∈ t.toList, cmp.equiv k (keyOf x) = false) (v : V)
    (hfull : s.size = s.maxSize) : s.insert cmp k v = some (s, kInvalidNodeId, false) := by
  unfold RBTree.insert
  simp only [h.find_absent habs, Option.bind_eq_bind, Option.bind_some, if_true, if_pos hfull, Option.pure_def]

/-- Painting a tree keeps its root. -/
theorem rootId_paint (d : Color) (t : ColorTree (Elem K V)) : rootId (t.paint d) = rootId t := by cases t <;> rfl

/-- The root is painted black, and nothing but the depth changes beside. -/
theorem Held.blackenRoot {s : RBTree K V} (ht : Held s.nodes t kInvalidNodeId) (hroot : s.root = rootId t) (hne : t ≠ .nil) :
    ∃ g d, s.blackenRoot = some { s with nodes := g, depth := d } ∧ Held g (t.paint .black) kInvalidNodeId := by
  cases t with
  | nil => exact absurd rfl hne
  | node c l x r =>
      have hnode : s.nodes.node s.root = some ⟨c, kInvalidNodeId, rootId l, rootId r, x.2⟩ := by
        rw [hroot]
        exact ht.node_eq
      have hrun : s.blackenRoot = if c = .red then
          some { s with nodes := s.nodes.store s.root fun n => { n with c := .black }, depth := toSize (s.depth + 1) }
          else some s := by
        unfold RBTree.blackenRoot
        simp only [hnode, Option.bind_eq_bind, Option.bind_some, Option.pure_def]
        rfl
      rw [hrun]
      cases c with
      | red =>
          rw [hroot]
          exact ⟨_, _, if_pos rfl, ht.recolor .black⟩
      | black => exact ⟨s.nodes, s.depth, if_neg (by decide), ht⟩

/-- **`insert` of a new key** into a tree with room. -/
theorem Owned.insert_new (h : Owned cmp s t) (habs : ∀ x ∈ t.toList, cmp.equiv k (keyOf x) = false) (v : V)
    (hroom : s.size ≠ s.maxSize) :
    ∃ s' t' id, s.insert cmp k v = some (s', id, true) ∧ Owned cmp s' t' ∧ s'.maxSize = s.maxSize ∧
      ∃ as bs, t.toList = as ++ bs ∧ t'.toList = as ++ (id, (k, v)) :: bs := by
  have hlen := h.length_le
  have hlt : (ids t).length < s.ml.capacity := by
    rw [ids_length]
    have hsize := h.size
    unfold maxSize at hroom
    omega
  -- a slice for the node, the descent, and the root painted black
  obtain ⟨ml', new, hget, hpos, hfresh, hslices, hcap⟩ := h.slices.getSlice hlt
  obtain ⟨g, hput, hheld, -⟩ := put_eq v h.held h.ordered habs hget hpos hfresh h.length_lt_limit
  obtain ⟨as, bs, h₁, h₂, h₃, h₄⟩ := ColorTree.put_spec h.ordered habs (newElem new k v) fun x => (x.1, (x.2.1, v))
  have hne : putTree cmp k v new t ≠ .nil := putTree_ne_nil h.ordered habs
  rw [ite_self] at hheld
  obtain ⟨g', d, hblack, hheld'⟩ := Held.blackenRoot
    (s := { s.grown ml' g with root := rootId (putTree cmp k v new t) }) hheld rfl hne
  have hlist : ((putTree cmp k v new t).paint .black).toList = as ++ (new, (k, v)) :: bs := by
    rw [ColorTree.toList_paint]
    exact h₂
  -- the three together hold the new tree
  have howned : Owned cmp { s.grown ml' g with root := rootId (putTree cmp k v new t), nodes := g', depth := d }
      ((putTree cmp k v new t).paint .black) := by
    refine ⟨hheld', (rootId_paint _ _).symm, ?_, ?_, ?_, ?_⟩
    · have hcap' := h.capacity_lt
      have hsize := h.size
      show toSize (s.size + 1) = _
      rw [toSize_of_range (by omega) (by omega), hlist]
      rw [h₁] at hsize
      simp only [List.length_append, List.length_cons] at hsize ⊢
      omega
    · apply hslices.perm
      unfold ids
      rw [hlist, h₁, List.map_append, List.map_append, List.map_cons]
      exact List.perm_middle.symm
    · rw [ColorTree.toList_paint]
      have habs' : ∀ x ∈ t.toList, cmp.equiv (keyOf (newElem new k v)) (keyOf x) = false := habs
      exact ColorTree.put_ordered h.ordered habs' _
    · obtain ⟨n, hn⟩ := h.balanced
      exact (hn.put k (newElem new k v) _).paint_black
  refine ⟨_, _, new, ?_, howned, hcap, as, bs, h₁, hlist⟩
  -- the second lookup, which the source makes for its result, finds the new node
  have hfind := howned.find_present (x := (new, (k, v))) (k := k) (by rw [hlist]; simp) (Comparator.equiv_refl k)
  unfold RBTree.insert
  simp only [h.find_absent habs, Option.bind_eq_bind, Option.bind_some, if_true, if_neg hroom, Option.pure_def]
  rw [h.root, hput]
  simp only [Option.bind_some]
  rw [hblack]
  simp only [Option.bind_some, hfind]

/-! ## `erase`

The root is painted red for the descent and black afterwards. What is taken out is the node with the key, whose
slice is given back. -/

/-- `restoreRoot`, whatever is left of the tree. -/
theorem Held.restoreRoot {s : RBTree K V} (ht : Held s.nodes t kInvalidNodeId) (hroot : s.root = rootId t) :
    ∃ g, s.restoreRoot = some { s with nodes := g } ∧ Held g (t.paint .black) kInvalidNodeId := by
  unfold RBTree.restoreRoot
  cases t with
  | nil =>
      have hnone : s.root = kInvalidNodeId := hroot
      rw [if_pos hnone]
      exact ⟨s.nodes, rfl, held_nil⟩
  | node c l x r =>
      have sp := held_node.mp ht
      have hne : s.root ≠ kInvalidNodeId := by
        rw [hroot]
        exact ne_invalid sp.valid
      have hnode : s.nodes.node s.root = some ⟨c, kInvalidNodeId, rootId l, rootId r, x.2⟩ := by
        rw [hroot]
        exact ht.node_eq
      simp only [if_neg hne, hnode, Option.bind_eq_bind, Option.bind_some, Option.pure_def]
      refine ⟨s.nodes.store s.root fun n => { n with c := .black }, rfl, ?_⟩
      rw [hroot]
      exact ht.recolor .black

/-- Taking the `i`-th id away. -/
theorem ids_erase {t' : ColorTree (Elem K V)} {as bs : List (Elem K V)} (hnodup : (ids t).Nodup)
    (h₁ : t.toList = as ++ x :: bs) (h₂ : t'.toList = as ++ bs) : ((ids t).erase x.1).Perm (ids t') := by
  have hids : ids t = as.map Prod.fst ++ x.1 :: bs.map Prod.fst := by
    unfold ids
    rw [h₁, List.map_append, List.map_cons]
  have hids' : ids t' = as.map Prod.fst ++ bs.map Prod.fst := by
    unfold ids
    rw [h₂, List.map_append]
  rw [hids] at hnodup ⊢
  rw [hids', List.erase_append_right _ fun hmem => (List.nodup_append.mp hnodup).2.2 _ hmem _ List.mem_cons_self rfl,
    List.erase_cons_head]

/-- `erase` on a tree with a root. -/
theorem erase_eq [Zero K] [Zero V] (cmp : Comparator K) (k : K) (hroot : 0 ≤ s.root) :
    s.erase cmp k = ((s.store s.root fun n => { n with c := .red }).delete cmp k s.limit s.root).bind fun a =>
      match a with
      | (s, some root) => ({ s with root := root } : RBTree K V).restoreRoot.bind fun s => some (s, 1)
      | (s, none) => s.restoreRoot.bind fun s => some (s, 0) := by
  unfold RBTree.erase
  simp only [if_neg (ne_invalid hroot), node_of_pos hroot, Option.bind_eq_bind, Option.bind_some]
  rfl

/-- **`erase` of a present key.** -/
theorem Owned.erase_present [Zero K] [Zero V] (h : Owned cmp s t) (hx : x ∈ t.toList) (heq : cmp.equiv k (keyOf x) = true) :
    ∃ s' t', s.erase cmp k = some (s', 1) ∧ Owned cmp s' t' ∧ s'.maxSize = s.maxSize ∧
      ∃ as bs, t.toList = as ++ x :: bs ∧ t'.toList = as ++ bs := by
  obtain ⟨n, hn⟩ := h.balanced
  rcases t with _ | ⟨c, l, y, r⟩
  · cases hx
  · have hblack : c = .black := by
      cases hn
      rfl
    subst hblack
    have hlen := h.length_lt_limit
    obtain ⟨res, hdel, hspec⟩ := hn.delete_top (k := k) h.ordered hlen.le
    cases res with
    -- the descent gives no node only where the key is absent
    | none =>
        rw [hspec x hx] at heq
        cases heq
    | some d =>
        obtain ⟨t', z⟩ := d
        obtain ⟨hz, ⟨m, hbal⟩, as, bs, h₁, h₂⟩ := hspec
        have hlist : (ColorTree.node Color.black l y r).toList = as ++ z :: bs := h₁
        -- the node taken out is the one with the key
        obtain rfl : z = x := h.ordered.eq_of_equiv (by rw [hlist]; simp) hx
          (Comparator.equiv_trans (Comparator.equiv_symm hz) heq)
        obtain ⟨ml', hfree, hslices, hcap⟩ := h.slices.freeSlice (mem_ids_of_mem hx)
        have hroot : s.root = y.1 := h.root
        have hred : Held (s.store s.root fun n => { n with c := .red }).nodes (.node .red l y r) kInvalidNodeId := by
          rw [hroot]
          exact h.held.recolor .red
        have hlink : Linked (s.store s.root fun n => { n with c := .red }).nodes (.node .red l y r) kInvalidNodeId .left :=
          Or.inl rfl
        obtain ⟨g, hrun, hheld, -⟩ := delete_found hred hlink h.ordered hlen.le hdel hfree
        obtain ⟨g', hrest, hheld'⟩ := Held.restoreRoot
          (s := { (s.store s.root fun n => { n with c := .red }).shrunk ml' g with root := rootId t' }) hheld rfl
        have hlist' : (t'.paint .black).toList = as ++ bs := by
          rw [ColorTree.toList_paint]
          exact h₂
        refine ⟨{ (s.store s.root fun n => { n with c := .red }).shrunk ml' g with root := rootId t', nodes := g' },
          t'.paint .black, ?_, ⟨hheld', (rootId_paint _ _).symm, ?_, ?_, ?_, m, hbal⟩, hcap, as, bs, hlist, hlist'⟩
        · rw [rootId_node, ← hroot] at hrun
          rw [erase_eq cmp k (by rw [hroot]; exact (held_node.mp h.held).valid), hrun]
          simp only [Option.bind_some]
          rw [hrest]
          rfl
        · have hsize := h.size
          have hcap' := h.capacity_lt
          have hle := h.length_le
          rw [hlist] at hsize hle
          show toSize (s.size - 1) = _
          simp only [List.length_append, List.length_cons] at hsize hle
          rw [toSize_of_range (by omega) (by omega), hlist', List.length_append]
          omega
        · exact hslices.perm (ids_erase h.held.nodup hlist hlist')
        · have ho := h.ordered
          rw [hlist] at ho
          rw [hlist']
          exact ho.sublist (List.sublist_append_right [z] bs |>.append_left as)

/-! ## `clear` and assignment

`clear` gives every slice back; an assignment stores the value of a key that is there, and inserts another. -/

/-- `clear` leaves the empty tree. -/
theorem Owned.clear (h : Owned cmp s t) :
    ∃ s', s.clear = some s' ∧ Owned cmp s' .nil ∧ s'.maxSize = s.maxSize := by
  obtain ⟨ml', hclear, hslices, hcap⟩ := h.slices.clear
  refine ⟨{ s with ml := ml', size := 0, depth := 0, root := kInvalidNodeId }, ?_, ?_, hcap⟩
  · unfold RBTree.clear
    rw [hclear]
    rfl
  · exact ⟨held_nil, rfl, rfl, hslices, List.Pairwise.nil, 0, .nil⟩

/-- Replace the value of one node. -/
def setAt (i : NodeId) (v : V) (y : Elem K V) : Elem K V := if y.1 = i then (y.1, (y.2.1, v)) else y

/-- Setting the value of one element keeps the ids, -/
theorem setAt_fst (i : NodeId) (v : V) (y : Elem K V) : (setAt i v y).1 = y.1 := by
  unfold setAt
  split <;> rfl

/-- and the keys. -/
theorem keyOf_setAt (i : NodeId) (v : V) (y : Elem K V) : keyOf (setAt i v y) = keyOf y := by
  unfold setAt
  split <;> rfl

/-- A store through the iterator of an element. -/
theorem Owned.store (h : Owned cmp s t) (hx : x ∈ t.toList) (v : V) :
    Owned cmp (s.store x.1 fun n => { n with v := (n.v.1, v) }) (t.map (setAt x.1 v)) := by
  -- neither an id nor a key changes
  have hids : ids (t.map (setAt x.1 v)) = ids t := by
    unfold ids
    rw [ColorTree.toList_map, List.map_map]
    apply List.map_congr_left
    intro y _
    exact setAt_fst _ _ _
  have hroot : rootId (t.map (setAt x.1 v)) = rootId t := by
    cases t with
    | nil => rfl
    | node c l y r => exact setAt_fst _ _ _
  refine ⟨⟨?_, ?_, ?_⟩, ?_, ?_, ?_, ?_, ?_⟩
  · -- a renaming that changes no id
    apply Rep.rename (h := s.nodes) (σ := id) rfl h.held.rep
    · intro y _
      exact setAt_fst _ _ _
    · intro y hy
      have hval := h.held.rep.value hy
      show (s.nodes.store x.1 fun n => { n with v := (n.v.1, v) }) y.1 = ⟨(s.nodes y.1).c, (s.nodes y.1).p,
        (s.nodes y.1).l, (s.nodes y.1).r, (setAt x.1 v y).2⟩
      by_cases heq : y.1 = x.1
      · unfold setAt
        rw [if_pos heq, ← heq, store_self, hval]
      · unfold setAt
        rw [if_neg heq, store_of_ne _ heq, ← hval]
  · rw [hids]
    exact h.held.nodup
  · rw [hids]
    exact h.held.pos
  · rw [hroot]
    exact h.root
  · rw [ColorTree.toList_map, List.length_map]
    exact h.size
  · rw [hids]
    exact h.slices
  · rw [ColorTree.toList_map]
    apply List.pairwise_map.mpr
    apply List.Pairwise.imp _ h.ordered
    intro a b hab
    rw [keyOf_setAt, keyOf_setAt]
    exact hab
  · obtain ⟨n, hn⟩ := h.balanced
    exact ⟨n, hn.map _⟩

/-- An assignment to a key that is there stores the value. -/
theorem Owned.assign_present (h : Owned cmp s t) (hx : x ∈ t.toList) (heq : cmp.equiv k (keyOf x) = true) (junk v : V) :
    s.assign cmp junk k v = some (s.store x.1 fun n => { n with v := (n.v.1, v) }, true) := by
  have hindex : s.index cmp junk k = some (s, some x.1) := by
    unfold index
    simp only [h.find_present hx heq, Option.bind_eq_bind, Option.bind_some, if_neg (ne_invalid (h.valid hx)),
      Option.pure_def]
  unfold assign
  simp only [hindex, Option.bind_eq_bind, Option.bind_some, node_of_pos (h.valid hx)]
  rfl

/-- An assignment of a new key to a full tree fails. -/
theorem Owned.assign_full (h : Owned cmp s t) (habs : ∀ x ∈ t.toList, cmp.equiv k (keyOf x) = false)
    (hfull : s.size = s.maxSize) (junk v : V) : s.assign cmp junk k v = some (s, false) := by
  have hindex : s.index cmp junk k = some (s, none) := by
    unfold index
    simp only [h.find_absent habs, h.insert_full habs junk hfull, Option.bind_eq_bind, Option.bind_some, if_true,
      Option.pure_def]
  unfold assign
  simp only [hindex, Option.bind_eq_bind, Option.bind_some]
  rfl

/-- **Assignment to a new key**: a node with an uninitialised value, and a store into it. -/
theorem Owned.assign_new (h : Owned cmp s t) (habs : ∀ x ∈ t.toList, cmp.equiv k (keyOf x) = false)
    (hroom : s.size ≠ s.maxSize) (junk v : V) :
    ∃ s' t' id, s.assign cmp junk k v = some (s', true) ∧ Owned cmp s' t' ∧ s'.maxSize = s.maxSize ∧
      ∃ as bs, t.toList = as ++ bs ∧ t'.toList = as ++ (id, (k, v)) :: bs := by
  obtain ⟨s₁, t₁, id, hins, h₁, hmax, as, bs, hlist, hlist₁⟩ := h.insert_new habs junk hroom
  have hx : (id, (k, junk)) ∈ t₁.toList := by
    rw [hlist₁]
    simp
  refine ⟨_, _, id, ?_, h₁.store hx v, hmax, as, bs, hlist, ?_⟩
  · have hindex : s.index cmp junk k = some (s₁, some id) := by
      unfold index
      simp only [h.find_absent habs, hins, Option.bind_eq_bind, Option.bind_some, if_true, if_neg (ne_invalid (h₁.valid hx)),
        Option.pure_def]
    unfold assign
    simp only [hindex, Option.bind_eq_bind, Option.bind_some, node_of_pos (h₁.valid hx)]
    rfl
  · -- no other element has this id
    have hnodup := h₁.held.nodup
    unfold ids at hnodup
    rw [hlist₁, List.map_append, List.map_cons, List.nodup_append] at hnodup
    obtain ⟨-, hb, ha⟩ := hnodup
    have hsame : ∀ ys : List (Elem K V), id ∉ ys.map Prod.fst → ys.map (setAt id v) = ys := by
      intro ys hys
      have hkeep : ∀ y ∈ ys, setAt id v y = y := fun y hy => if_neg fun heq => hys (List.mem_map.mpr ⟨y, hy, heq⟩)
      rw [List.map_congr_left hkeep, List.map_id']
    have has : id ∉ as.map Prod.fst := fun hmem => ha _ hmem _ List.mem_cons_self rfl
    have hself : setAt id v (id, (k, junk)) = (id, (k, v)) := if_pos rfl
    rw [ColorTree.toList_map, hlist₁, List.map_append, List.map_cons, hself, hsame as has, hsame bs (List.nodup_cons.mp hb).1]

end RBTree
end Snippets
