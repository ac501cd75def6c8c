import Snippets.RBTree.Insert

/-!
# `RBTree.Swap` — the node and its successor trade places

`Delete` does not copy the successor's pair into the node, it exchanges the two nodes in the tree, so that iterators
stay valid. On a doubly linked tree this is a renaming of ids: `Rep.rename` says what a heap represents when every
link is renamed, and `Held.swapFar` checks that the source renames them all.
-/

namespace Snippets

open Lib

namespace RBTree

variable {K V : Type} {h h' : Heap K V} {t l r : ColorTree (Elem K V)} {x y s : Elem K V} {c : Color}
  {p q i k : NodeId}

/-! ## Links of a held tree

Which node a link leads to, read off the tree: every child's parent field leads back, and the first node of a
right subtree has no left child. -/

/-- The id of an element is an id of the tree. -/
theorem mem_ids_of_mem (hy : y ∈ t.toList) : y.1 ∈ ids t := List.mem_map.mpr ⟨y, hy, rfl⟩

/-- A node holds the pair of its element. -/
theorem Rep.value (hrep : Rep h t p) (hy : y ∈ t.toList) : (h y.1).v = y.2 := by
  induction t generalizing p with
  | nil => cases hy
  | node c l x r ihl ihr =>
      obtain ⟨hx, hl, hr⟩ := hrep
      rw [ColorTree.toList_node, List.mem_append, List.mem_cons] at hy
      rcases hy with hy | rfl | hy
      · exact ihl hl hy
      · rw [hx]
      · exact ihr hr hy

/-- The root's parent field is the link the tree hangs on. -/
theorem Rep.root_parent (hrep : Rep h t p) (hne : t ≠ .nil) : (h (rootId t)).p = p := by
  cases t with
  | nil => exact absurd rfl hne
  | node c l x r => rw [rootId_node, hrep.1]

/-- A child link is invalid, or names a node of the tree that names its parent back. -/
theorem Rep.link (hrep : Rep h t p) (hk : k ∈ ids t) (side : Side) :
    (h k).child side = kInvalidNodeId ∨ ((h k).child side ∈ ids t ∧ (h ((h k).child side)).p = k) := by
  induction t generalizing p with
  | nil => cases hk
  | node c l x r ihl ihr =>
      obtain ⟨hx, hl, hr⟩ := hrep
      rcases mem_ids_node.mp hk with hk | rfl | hk
      · exact (ihl hl hk).imp_right fun ⟨hmem, hp⟩ => ⟨mem_ids_node.mpr (Or.inl hmem), hp⟩
      · rw [hx]
        cases side with
        | left =>
            rcases rootId_cases l with rfl | hmem
            · exact Or.inl rfl
            · exact Or.inr ⟨mem_ids_node.mpr (Or.inl hmem), hl.root_parent (by rintro rfl; cases hmem)⟩
        | right =>
            rcases rootId_cases r with rfl | hmem
            · exact Or.inl rfl
            · exact Or.inr ⟨mem_ids_node.mpr (Or.inr (Or.inr hmem)), hr.root_parent (by rintro rfl; cases hmem)⟩
      · exact (ihr hr hk).imp_right fun ⟨hmem, hp⟩ => ⟨mem_ids_node.mpr (Or.inr (Or.inr hmem)), hp⟩

/-- No link of the tree leads to its root. -/
theorem Held.child_ne_root (ht : Held h t p) (hk : k ∈ ids t) (side : Side) : (h k).child side ≠ rootId t := by
  cases t with
  | nil => cases hk
  | node c l x r =>
      have s := held_node.mp ht
      have haway : ∀ j : NodeId, ∀ u : ColorTree (Elem K V), x.1 ∉ ids u → (j = kInvalidNodeId ∨ j ∈ ids u) → j ≠ x.1 := by
        rintro j u hu hj rfl
        rcases hj with hj | hj
        · exact ne_invalid s.valid hj
        · exact hu hj
      rcases mem_ids_node.mp hk with hk | rfl | hk
      · exact haway _ l s.not_left ((s.left.rep.link hk side).imp_right And.left)
      · rw [s.here]
        cases side with
        | left => exact rootId_ne s.valid s.not_left
        | right => exact rootId_ne s.valid s.not_right
      · exact haway _ r s.not_right ((s.right.rep.link hk side).imp_right And.left)

/-- Every node but the root is a child of its parent. -/
theorem Rep.parent (hrep : Rep h t p) (hk : k ∈ ids t) :
    k = rootId t ∨ ((h k).p ∈ ids t ∧ ∃ side, (h (h k).p).child side = k) := by
  induction t generalizing p with
  | nil => cases hk
  | node c l x r ihl ihr =>
      obtain ⟨hx, hl, hr⟩ := hrep
      rcases mem_ids_node.mp hk with hk | rfl | hk
      · right
        rcases ihl hl hk with rfl | ⟨hmem, hlink⟩
        · rw [hl.root_parent (by rintro rfl; cases hk)]
          exact ⟨mem_ids_node.mpr (Or.inr (Or.inl rfl)), .left, by rw [hx]; rfl⟩
        · exact ⟨mem_ids_node.mpr (Or.inl hmem), hlink⟩
      · exact Or.inl rfl
      · right
        rcases ihr hr hk with rfl | ⟨hmem, hlink⟩
        · rw [hr.root_parent (by rintro rfl; cases hk)]
          exact ⟨mem_ids_node.mpr (Or.inr (Or.inl rfl)), .right, by rw [hx]; rfl⟩
        · exact ⟨mem_ids_node.mpr (Or.inr (Or.inr hmem)), hlink⟩

/-- The two children of a node are different. -/
theorem Held.children_ne (ht : Held h t p) (hk : k ∈ ids t) (heq : (h k).l = (h k).r) : (h k).l = kInvalidNodeId := by
  induction t generalizing p with
  | nil => cases hk
  | node c l x r ihl ihr =>
      have s := held_node.mp ht
      rcases mem_ids_node.mp hk with hk | rfl | hk
      · exact ihl s.left hk
      · rw [s.here] at heq ⊢
        rcases rootId_cases l with rfl | hmem
        · rfl
        · have heq' : rootId l = rootId r := heq
          rcases rootId_cases r with rfl | hmem'
          · exact heq'
          · exact absurd (heq' ▸ hmem') (s.apart _ hmem)
      · exact ihr s.right hk

/-- The first node has no left child, and is the left child of its parent. -/
theorem Rep.first (hrep : Rep h t p) (hs : t.first = some s) :
    s ∈ t.toList ∧ (h s.1).l = kInvalidNodeId ∧
      (s.1 = rootId t ∨ ((h s.1).p ∈ ids t ∧ (h (h s.1).p).l = s.1)) := by
  induction t generalizing p with
  | nil => cases hs
  | node c l x r ihl _ =>
      obtain ⟨hx, hl, hr⟩ := hrep
      cases l with
      | nil =>
          obtain rfl : x = s := Option.some.inj hs
          exact ⟨by simp, by rw [hx]; rfl, Or.inl rfl⟩
      | node d a z b =>
          obtain ⟨hmem, hleft, hparent⟩ := ihl hl hs
          refine ⟨List.mem_append_left _ hmem, hleft, Or.inr ?_⟩
          rcases hparent with hroot | ⟨hmem', hlink⟩
          · rw [hroot, hl.root_parent (by simp)]
            exact ⟨mem_ids_node.mpr (Or.inr (Or.inl rfl)), by rw [hx]⟩
          · exact ⟨mem_ids_node.mpr (Or.inl hmem'), hlink⟩

/-- `GetMin` finds the first node. -/
theorem Held.getMin_eq (ht : Held h t p) (hs : t.first = some s) {fuel : Nat} (hfuel : t.toList.length ≤ fuel) :
    h.getMin fuel (rootId t) = some s.1 := by
  induction t generalizing p fuel with
  | nil => cases hs
  | node c l x r ihl _ =>
      have hsp := held_node.mp ht
      rw [ColorTree.toList_node, List.length_append, List.length_cons] at hfuel
      obtain ⟨fuel, rfl⟩ : ∃ n, fuel = n + 1 := ⟨fuel - 1, by omega⟩
      have hrun : h.getMin (fuel + 1) x.1 = if rootId l ≠ kInvalidNodeId then h.getMin fuel (rootId l) else some x.1 := by
        rw [Heap.getMin, ht.node_eq]
      rw [rootId_node, hrun]
      cases l with
      | nil =>
          obtain rfl : x = s := Option.some.inj hs
          exact if_neg fun hne => hne rfl
      | node d a z b =>
          have hlen : (ColorTree.node d a z b).toList.length ≤ fuel := by omega
          rw [if_pos fun heq => absurd (hsp.left.rootId_eq.mp heq) (by simp)]
          exact ihl hsp.left hs hlen

/-! ## Renaming

A doubly linked tree is known by its links. If they are renamed throughout by `σ`, the heap represents the tree
whose elements are renamed, so exchanging two nodes needs no case for where they stand. -/

/-- The root of a renamed tree is the renamed root. -/
theorem rootId_map {f : Elem K V → Elem K V} {σ : NodeId → NodeId} (hσ : σ kInvalidNodeId = kInvalidNodeId)
    (hf : ∀ y ∈ t.toList, (f y).1 = σ y.1) : rootId (t.map f) = σ (rootId t) := by
  cases t with
  | nil => exact hσ.symm
  | node c l x r => exact hf x (by simp)

/-- **A renamed heap represents the renamed tree.** -/
theorem Rep.rename {f : Elem K V → Elem K V} {σ : NodeId → NodeId} (hσ : σ kInvalidNodeId = kInvalidNodeId)
    (hrep : Rep h t p) (hf : ∀ y ∈ t.toList, (f y).1 = σ y.1)
    (hh : ∀ y ∈ t.toList, h' (σ y.1) = ⟨(h y.1).c, σ (h y.1).p, σ (h y.1).l, σ (h y.1).r, (f y).2⟩) :
    Rep h' (t.map f) (σ p) := by
  induction t generalizing p with
  | nil => trivial
  | node c l x r ihl ihr =>
      obtain ⟨hx, hl, hr⟩ := hrep
      have hfl : ∀ y ∈ l.toList, (f y).1 = σ y.1 := fun y hy => hf y (by simp [hy])
      have hfr : ∀ y ∈ r.toList, (f y).1 = σ y.1 := fun y hy => hf y (by simp [hy])
      have hfx : (f x).1 = σ x.1 := hf x (by simp)
      refine ⟨?_, ?_, ?_⟩
      · rw [hfx, hh x (by simp), hx, rootId_map hσ hfl, rootId_map hσ hfr]
      · rw [hfx]
        exact ihl hl hfl fun y hy => hh y (by simp [hy])
      · rw [hfx]
        exact ihr hr hfr fun y hy => hh y (by simp [hy])

/-- A renaming that moves none of the elements changes nothing. -/
theorem map_eq_self {f : Elem K V → Elem K V} (hf : ∀ y ∈ t.toList, f y = y) : t.map f = t := by
  induction t with
  | nil => rfl
  | node c l x r ihl ihr =>
      show ColorTree.node c (l.map f) (f x) (r.map f) = _
      rw [ihl fun y hy => hf y (by simp [hy]), ihr fun y hy => hf y (by simp [hy]), hf x (by simp)]

/-- Setting the first element is renaming it. -/
theorem setFirst_eq_map {f : Elem K V → Elem K V} (hnodup : (ids t).Nodup) (hs : t.first = some s) (hfs : f s = x)
    (hf : ∀ y ∈ t.toList, y.1 ≠ s.1 → f y = y) : t.setFirst x = t.map f := by
  induction t with
  | nil => rfl
  | node c l z r ihl _ =>
      have hids : ids (.node c l z r) = ids l ++ z.1 :: ids r := by
        unfold ids
        rw [ColorTree.toList_node, List.map_append, List.map_cons]
      rw [hids, List.nodup_append] at hnodup
      obtain ⟨hnl, hnzr, hdis⟩ := hnodup
      have hright : s.1 ∉ ids r → r.map f = r := fun hnot =>
        map_eq_self fun y hy => hf y (by simp [hy]) (by rintro heq; exact hnot (heq ▸ mem_ids_of_mem hy))
      cases l with
      | nil =>
          obtain rfl : z = s := Option.some.inj hs
          show ColorTree.node c .nil x r = .node c .nil (f z) (r.map f)
          rw [hright (List.nodup_cons.mp hnzr).1, hfs]
      | node d a w b =>
          have hsmem : s.1 ∈ ids (.node d a w b) := by
            obtain ⟨rest, hrest, -⟩ := ColorTree.toList_setFirst (t := .node d a w b) hs s
            apply mem_ids_of_mem
            rw [hrest]
            exact List.mem_cons_self
          show ColorTree.node c ((ColorTree.node d a w b).setFirst x) z r = .node c ((ColorTree.node d a w b).map f) (f z) (r.map f)
          rw [ihl hnl hs fun y hy => hf y (List.mem_append_left _ hy), hright, hf z (by simp)]
          · exact fun heq => hdis _ hsmem _ List.mem_cons_self heq.symm
          · exact fun hmem => hdis _ hsmem _ (List.mem_cons_of_mem _ hmem) rfl

/-! ## The swap

`swapFar` is the case where the successor is not the child of the node. Its writes are followed one by one first
(`swapFar_run`), then compared with the renaming that exchanges the two ids. -/

/-- How the tree hangs below its parent: at `side` of it, or nowhere. -/
def Linked (h : Heap K V) (t : ColorTree (Elem K V)) (p : NodeId) (side : Side) : Prop :=
  p = kInvalidNodeId ∨
    (0 ≤ p ∧ p ∉ ids t ∧ (h p).child side = rootId t ∧ (side = .right → (h p).l ≠ rootId t))

/-- Nothing outside the tree changed, up to the link of the parent to it. -/
def Outside (h h' : Heap K V) (t : ColorTree (Elem K V)) (p : NodeId) (side : Side) : Prop :=
  (∀ k, 0 ≤ k → k ∉ ids t → k ≠ p → h' k = h k) ∧ (0 ≤ p → p ∉ ids t → ∃ q, h' p = (h p).setChild side q)

/-- Setting a child to what it is changes nothing. -/
theorem setChild_child (n : RBNode K V) (side : Side) : n.setChild side (n.child side) = n := by cases side <;> rfl

/-- A heap that is the same off the tree is so at its parent too. -/
theorem Outside.of_frame {side : Side} (hframe : ∀ k, 0 ≤ k → k ∉ ids t → h' k = h k) : Outside h h' t p side :=
  ⟨fun k hk₀ hk _ => hframe k hk₀ hk, fun hp₀ hp => ⟨(h p).child side, by rw [hframe p hp₀ hp, setChild_child]⟩⟩

/-- `setParent`, seen from any node. -/
theorem setParent_apply (hi : i = kInvalidNodeId ∨ 0 ≤ i) (q : NodeId) :
    ∃ g, h.setParent i q = some g ∧ ∀ k, 0 ≤ k → g k = { h k with p := if k = i then q else (h k).p } := by
  rcases hi with rfl | hi
  · refine ⟨h, rfl, fun k hk => ?_⟩
    rw [if_neg (ne_invalid hk)]
  · refine ⟨_, setParent_of_pos hi, fun k hk => ?_⟩
    by_cases hki : k = i
    · subst hki
      rw [store_self, if_pos rfl]
    · rw [store_of_ne _ hki, if_neg hki]

/-- `redirect`, seen from any node but the parent, and from the parent. -/
theorem Linked.redirect {side : Side} (hlink : Linked h t p side) (q : NodeId) :
    ∃ g, h.redirect p (rootId t) q = some g ∧ (∀ k, k ≠ p → g k = h k) ∧ ∃ q', g p = (h p).setChild side q' := by
  unfold Heap.redirect
  rcases hlink with rfl | ⟨hp, -, hchild, hside⟩
  · exact ⟨h, rfl, fun k _ => rfl, (h kInvalidNodeId).child side, (setChild_child _ _).symm⟩
  · rw [getPointer_of_pos hp]
    cases side with
    | left =>
        have hl : (h p).l = rootId t := hchild
        refine ⟨h.store p fun n => { n with l := q }, by simp only [Option.map_some, if_pos hl], fun k hk => store_of_ne _ hk, q, ?_⟩
        exact store_self _
    | right =>
        refine ⟨h.store p fun n => { n with r := q }, by simp only [Option.map_some, if_neg (hside rfl)], fun k hk => store_of_ne _ hk, q, ?_⟩
        exact store_self _

/-- What `swapFar` does before it exchanges the two records: it changes the links to them. -/
theorem swapFar_run {side : Side} {n : RBNode K V} (ht : Held h (.node c l x r) p)
    (hlink : Linked h (.node c l x r) p side) (hs₀ : 0 ≤ s.1) (hn : h s.1 = n) (hps : n.p ∈ ids r)
    (hpl : (h n.p).l = s.1) (hrs : n.r = kInvalidNodeId ∨ n.r ∈ ids r) :
    ∃ g : Heap K V, h.swapFar x.1 s.1 = some ((g.store s.1 fun m => { g x.1 with v := m.v }).store x.1
        fun m => { g s.1 with v := m.v }) ∧
      (∀ k, 0 ≤ k → k ≠ p → g k = { h k with
        p := if k = n.r then x.1 else if k = rootId r then s.1 else if k = rootId l then s.1 else (h k).p
        l := if k = n.p then x.1 else (h k).l }) ∧
      (0 ≤ p → p ∉ ids (.node c l x r) → ∃ q, g p = (h p).setChild side q) := by
  have sx := held_node.mp ht
  -- the successor's parent is in the right subtree, so it is not the parent of the tree
  have hp : n.p ≠ p := by
    rcases hlink with rfl | ⟨-, hnot, -⟩
    · exact ne_invalid (sx.right.pos _ hps)
    · rintro rfl
      exact hnot (mem_ids_node.mpr (Or.inr (Or.inr hps)))
  have hps₀ := sx.right.pos _ hps
  obtain ⟨g₁, hg₁, hk₁, q, hq⟩ := hlink.redirect s.1
  obtain ⟨g₂, hg₂, hk₂⟩ := setParent_apply (h := g₁) sx.left.rootId_or s.1
  obtain ⟨g₃, hg₃, hk₃⟩ := setParent_apply (h := g₂) sx.right.rootId_or s.1
  obtain ⟨g₅, hg₅, hk₅⟩ := setParent_apply (h := g₃.store n.p fun m => { m with l := x.1 })
    (hrs.imp_right (sx.right.pos _)) x.1
  -- the assert that the successor is the left child of its parent
  have hpl₃ : (g₃ n.p).l = s.1 := by
    rw [hk₃ _ hps₀, hk₂ _ hps₀, hk₁ _ hp]
    exact hpl
  refine ⟨g₅, ?_, ?_, ?_⟩
  · unfold Heap.swapFar
    rw [rootId_node] at hg₁
    simp only [ht.node_eq, node_of_pos hs₀, hn, Option.bind_eq_bind, Option.bind_some, hg₁, hg₂, hg₃, node_of_pos hps₀,
      hpl₃, guard, if_true, Option.pure_def, hg₅]
  · intro k hk hkp
    by_cases hkn : k = n.p
    · subst hkn
      rw [hk₅ _ hk, store_self, hk₃ _ hk, hk₂ _ hk, hk₁ _ hkp, if_pos rfl]
    · rw [hk₅ _ hk, store_of_ne _ hkn, hk₃ _ hk, hk₂ _ hk, hk₁ _ hkp, if_neg hkn]
  · intro hp₀ hnot
    rw [mem_ids_node] at hnot
    push Not at hnot
    have h₁ : p ≠ n.r := by
      rintro rfl
      exact hrs.elim (ne_invalid hp₀) hnot.2.2
    refine ⟨q, ?_⟩
    rw [hk₅ _ hp₀, store_of_ne _ (Ne.symm hp), hk₃ _ hp₀, hk₂ _ hp₀, hq, if_neg h₁,
      if_neg (rootId_ne hp₀ hnot.2.2).symm, if_neg (rootId_ne hp₀ hnot.1).symm]

/-- The renaming: two ids change places. -/
def exchange (a b j : NodeId) : NodeId := if j = a then b else if j = b then a else j

/-- What the first id becomes, -/
theorem exchange_left (a b : NodeId) : exchange a b a = b := if_pos rfl

/-- the second, -/
theorem exchange_right {a b : NodeId} (hab : a ≠ b) : exchange a b b = a := by
  unfold exchange
  rw [if_neg (Ne.symm hab), if_pos rfl]

/-- and any other. -/
theorem exchange_other {a b j : NodeId} (ha : j ≠ a) (hb : j ≠ b) : exchange a b j = j := by
  unfold exchange
  rw [if_neg ha, if_neg hb]

/-- **The source renames every link**: the stores of `swapFar` into a node other than the two are the renaming of
    its links, because the tree is doubly linked. -/
theorem exchange_links (ht : Held h (.node c l x r) p) (hs : r.first = some s) (hfar : s.1 ≠ rootId r)
    (hk : k ∈ ids (.node c l x r)) (hkx : k ≠ x.1) :
    (if k = (h s.1).r then x.1 else if k = rootId r then s.1 else if k = rootId l then s.1 else (h k).p) =
        exchange x.1 s.1 (h k).p ∧
      (if k = (h s.1).p then x.1 else (h k).l) = exchange x.1 s.1 (h k).l ∧
      (h k).r = exchange x.1 s.1 (h k).r := by
  have sx := held_node.mp ht
  obtain ⟨hsmem, hsl, hparent⟩ := sx.right.rep.first hs
  obtain ⟨hps, hpl⟩ := hparent.resolve_left hfar
  have hsr : s.1 ∈ ids r := mem_ids_of_mem hsmem
  have hs₀ := sx.right.pos _ hsr
  have hsx : x.1 ≠ s.1 := fun heq => sx.not_right (heq ▸ hsr)
  have hk₀ := ht.pos k hk
  refine ⟨?_, ?_, ?_⟩
  · by_cases hkrs : k = (h s.1).r
    · have hup := (sx.right.rep.link hsr .right).resolve_left (fun heq => ne_invalid hk₀ (hkrs.trans heq))
      have hup' : (h k).p = s.1 := by
        rw [hkrs]
        exact hup.2
      rw [if_pos hkrs, hup', exchange_right hsx]
    · rw [if_neg hkrs]
      by_cases hkr : k = rootId r
      · have hne : r ≠ .nil := by rintro rfl; cases hs
        rw [if_pos hkr, hkr, sx.right.rep.root_parent hne, exchange_left]
      · rw [if_neg hkr]
        by_cases hkl : k = rootId l
        · have hne : l ≠ .nil := by rintro rfl; exact ne_invalid hk₀ hkl
          rw [if_pos hkl, hkl, sx.left.rep.root_parent hne, exchange_left]
        · -- its parent is neither of the two, whose children are accounted for
          rw [if_neg hkl]
          obtain ⟨-, side, hside⟩ := (ht.rep.parent hk).resolve_left hkx
          rw [exchange_other]
          · intro heq
            rw [heq, sx.here] at hside
            cases side with
            | left => exact hkl hside.symm
            | right => exact hkr hside.symm
          · intro heq
            rw [heq] at hside
            cases side with
            | left => exact ne_invalid hk₀ (hside.symm.trans hsl)
            | right => exact hkrs hside.symm
  -- the left link: only the parent of the successor has it there
  · by_cases hkp : k = (h s.1).p
    · rw [if_pos hkp, hkp, hpl, exchange_right hsx]
    · have hne : (h k).l ≠ x.1 := ht.child_ne_root hk .left
      rw [if_neg hkp, exchange_other hne]
      intro heq
      have hup := (ht.rep.link hk .left).resolve_left (fun hnone => ne_invalid hs₀ (heq.symm.trans hnone))
      apply hkp
      rw [← heq]
      exact hup.2.symm
  -- the right link: no node has the successor there, and only the tree's parent could have the node
  · have hne : (h k).r ≠ x.1 := ht.child_ne_root hk .right
    rw [exchange_other hne]
    intro heq
    have hup := (ht.rep.link hk .right).resolve_left (fun hnone => ne_invalid hs₀ (heq.symm.trans hnone))
    have hkp : (h s.1).p = k := by
      rw [← heq]
      exact hup.2
    rw [hkp] at hpl
    exact ne_invalid hs₀ (hpl.symm.trans (ht.children_ne hk (hpl.trans heq.symm)))

/-- The links of the successor: none of them leads to itself. -/
theorem Held.first_links (ht : Held h t p) (hs : t.first = some s) (hfar : s.1 ≠ rootId t) :
    (h s.1).p ≠ s.1 ∧ (h s.1).r ≠ s.1 := by
  obtain ⟨hsmem, hsl, hparent⟩ := ht.rep.first hs
  obtain ⟨-, hpl⟩ := hparent.resolve_left hfar
  have hsr : s.1 ∈ ids t := mem_ids_of_mem hsmem
  have hs₀ := ht.pos _ hsr
  have hne : (h s.1).p ≠ s.1 := fun heq => by
    rw [heq, hsl] at hpl
    exact ne_invalid hs₀ hpl.symm
  refine ⟨hne, fun heq => hne ?_⟩
  have hup : (h (h s.1).r).p = s.1 :=
    ((ht.rep.link hsr .right).resolve_left fun hnone => ne_invalid hs₀ (heq.symm.trans hnone)).2
  rw [heq] at hup
  exact hup

/-- The links of the two nodes themselves do not change. -/
theorem exchange_own (ht : Held h (.node c l x r) p) (hp : p ≠ x.1) (hp' : p ≠ s.1) (hs : r.first = some s)
    (hfar : s.1 ≠ rootId r) {i : NodeId} (hi : i = x.1 ∨ i = s.1) :
    exchange x.1 s.1 (h i).p = (h i).p ∧ exchange x.1 s.1 (h i).l = (h i).l ∧ exchange x.1 s.1 (h i).r = (h i).r := by
  have sx := held_node.mp ht
  obtain ⟨hsmem, hsl, hparent⟩ := sx.right.rep.first hs
  obtain ⟨hps, -⟩ := hparent.resolve_left hfar
  have hsr : s.1 ∈ ids r := mem_ids_of_mem hsmem
  have hs₀ := sx.right.pos _ hsr
  rcases hi with rfl | rfl
  · rw [sx.here]
    refine ⟨exchange_other hp hp', exchange_other ?_ ?_, exchange_other ?_ hfar.symm⟩
    · exact rootId_ne sx.valid sx.not_left
    · exact rootId_ne hs₀ fun hmem => sx.apart _ hmem hsr
    · exact rootId_ne sx.valid sx.not_right
  · obtain ⟨h₁, h₂⟩ := sx.right.first_links hs hfar
    have hst : s.1 ∈ ids (.node c l x r) := mem_ids_node.mpr (Or.inr (Or.inr hsr))
    refine ⟨exchange_other ?_ h₁, exchange_other ?_ ?_, exchange_other (ht.child_ne_root hst .right) h₂⟩
    · exact fun heq => sx.not_right (heq ▸ hps)
    · exact fun heq => ne_invalid sx.valid (heq.symm.trans hsl)
    · exact fun heq => ne_invalid hs₀ (heq.symm.trans hsl)

/-- The elements of the swapped tree. -/
theorem toList_swap (hs : r.first = some s) :
    (ids (.node c l s (r.setFirst x))).Perm (ids (.node c l x r)) := by
  obtain ⟨rest, h₁, h₂⟩ := ColorTree.toList_setFirst hs x
  unfold ids
  rw [ColorTree.toList_node, ColorTree.toList_node, h₁, h₂]
  exact ((List.Perm.swap x s rest).append_left _).map _

/-- A heap that represents a tree with the same ids holds it. -/
theorem Held.of_perm (ht : Held h t p) {t' : ColorTree (Elem K V)} (hperm : (ids t').Perm (ids t)) (hrep : Rep h' t' q) :
    Held h' t' q :=
  ⟨hrep, hperm.nodup_iff.mpr ht.nodup, fun i hi => ht.pos i (hperm.mem_iff.mp hi)⟩

/-- **The swap with a deeper successor**: on the tree, the two elements change places. -/
theorem Held.swapFar {side : Side} (ht : Held h (.node c l x r) p) (hlink : Linked h (.node c l x r) p side)
    (hs : r.first = some s) (hfar : s.1 ≠ rootId r) :
    ∃ g, h.swapFar x.1 s.1 = some g ∧ Held g (.node c l s (r.setFirst x)) p ∧ Outside h g (.node c l x r) p side := by
  have sx := held_node.mp ht
  obtain ⟨hsmem, hsl, hparent⟩ := sx.right.rep.first hs
  obtain ⟨hps, hpl⟩ := hparent.resolve_left hfar
  have hsr : s.1 ∈ ids r := mem_ids_of_mem hsmem
  have hs₀ := sx.right.pos _ hsr
  have hxs : x.1 ≠ s.1 := fun heq => sx.not_right (heq ▸ hsr)
  have hxt : x.1 ∈ ids (.node c l x r) := mem_ids_node.mpr (Or.inr (Or.inl rfl))
  have hst : s.1 ∈ ids (.node c l x r) := mem_ids_node.mpr (Or.inr (Or.inr hsr))
  have hrs := sx.right.rep.link hsr .right
  have hpout : ∀ k ∈ ids (.node c l x r), k ≠ p := by
    rintro k hk rfl
    rcases hlink with hinv | ⟨-, hnot, -⟩
    · exact ne_invalid (ht.pos k hk) hinv
    · exact hnot hk
  obtain ⟨g, hrun, hg, hgp⟩ := swapFar_run ht hlink hs₀ rfl hps hpl (hrs.imp_right And.left)
  -- what the writes leave in a node other than the two
  have hgk : ∀ k ∈ ids (.node c l x r), k ≠ x.1 → g k =
      ⟨(h k).c, exchange x.1 s.1 (h k).p, exchange x.1 s.1 (h k).l, exchange x.1 s.1 (h k).r, (h k).v⟩ := by
    intro k hk hkx
    obtain ⟨h₁, h₂, h₃⟩ := exchange_links ht hs hfar hk hkx
    rw [hg k (ht.pos k hk) (hpout k hk), h₁, h₂, ← h₃]
  -- the two nodes keep their own links until the records are exchanged
  have hgx : g x.1 = h x.1 := by
    have h₁ : x.1 ≠ (h s.1).r := fun heq => ht.child_ne_root hst .right heq.symm
    have h₂ : x.1 ≠ (h s.1).p := fun heq => sx.not_right (heq ▸ hps)
    rw [hg _ sx.valid (hpout _ hxt), if_neg h₁, if_neg (rootId_ne sx.valid sx.not_right).symm,
      if_neg (rootId_ne sx.valid sx.not_left).symm, if_neg h₂]
  have hgs : g s.1 = h s.1 := by
    obtain ⟨h₁, h₂⟩ := sx.right.first_links hs hfar
    have h₃ : s.1 ≠ rootId l := (rootId_ne hs₀ fun hmem => sx.apart _ hmem hsr).symm
    rw [hg _ hs₀ (hpout _ hst), if_neg h₂.symm, if_neg hfar, if_neg h₃, if_neg h₁.symm]
  refine ⟨_, hrun, ?_, ?_⟩
  · -- the tree with the two elements exchanged is the renamed tree
    let f : Elem K V → Elem K V := fun y => if y.1 = x.1 then s else if y.1 = s.1 then x else y
    have hfx : f x = s := if_pos rfl
    have hfs : f s = x := (if_neg hxs.symm).trans (if_pos rfl)
    have hfy : ∀ y : Elem K V, y.1 ≠ x.1 → y.1 ≠ s.1 → f y = y := fun y h₁ h₂ => (if_neg h₁).trans (if_neg h₂)
    have hl : l.map f = l := by
      apply map_eq_self
      intro y hy
      have hyl := mem_ids_of_mem hy
      exact hfy y (by rintro heq; exact sx.not_left (heq ▸ hyl)) (by rintro heq; exact sx.apart _ hyl (heq ▸ hsr))
    have hr : r.setFirst x = r.map f := by
      apply setFirst_eq_map sx.right.nodup hs hfs
      intro y hy hys
      exact hfy y (by rintro heq; exact sx.not_right (heq ▸ mem_ids_of_mem hy)) hys
    have hmap : ColorTree.node c l s (r.setFirst x) = (ColorTree.node c l x r).map f := by
      show _ = ColorTree.node c (l.map f) (f x) (r.map f)
      rw [hfx, hl, hr]
    apply ht.of_perm (toList_swap hs)
    have hp : exchange x.1 s.1 p = p := exchange_other (hpout _ hxt).symm (hpout _ hst).symm
    rw [hmap, ← hp]
    apply Rep.rename (h := h) (exchange_other (ne_invalid sx.valid).symm (ne_invalid hs₀).symm) ht.rep
    · intro y hy
      by_cases hyx : y.1 = x.1
      · rw [hyx, exchange_left]
        exact congrArg Prod.fst (if_pos hyx)
      · by_cases hys : y.1 = s.1
        · rw [hys, exchange_right hxs]
          exact congrArg Prod.fst ((if_neg hyx).trans (if_pos hys))
        · rw [exchange_other hyx hys, hfy y hyx hys]
    -- and every node holds the renamed links and its own pair
    · intro y hy
      have hval := ht.rep.value hy
      have hown := fun i => exchange_own (i := i) ht (hpout _ hxt).symm (hpout _ hst).symm hs hfar
      by_cases hyx : y.1 = x.1
      · have hyf : f y = s := if_pos hyx
        obtain ⟨h₁, h₂, h₃⟩ := hown x.1 (Or.inl rfl)
        rw [hyx, exchange_left, store_of_ne _ hxs.symm, store_self, hgx, hgs, hyf, sx.right.rep.value hsmem, h₁, h₂, h₃]
      · by_cases hys : y.1 = s.1
        · have hyf : f y = x := (if_neg hyx).trans (if_pos hys)
          have hxv : (h x.1).v = x.2 := by rw [sx.here]
          obtain ⟨h₁, h₂, h₃⟩ := hown s.1 (Or.inr rfl)
          rw [hys, exchange_right hxs, store_self, store_of_ne _ hxs, hgx, hgs, hyf, hxv, h₁, h₂, h₃]
        · rw [exchange_other hyx hys, store_of_ne _ hyx, store_of_ne _ hys, hgk _ (mem_ids_of_mem hy) hyx, hfy y hyx hys, hval]
  -- nodes off the tree, the parent apart, are not written
  · refine ⟨?_, ?_⟩
    · intro k hk₀ hk hkp
      rw [mem_ids_node] at hk
      push Not at hk
      have h₁ : k ≠ (h s.1).r := by
        rintro rfl
        exact hrs.elim (ne_invalid hk₀) fun hmem => hk.2.2 hmem.1
      have h₂ : k ≠ (h s.1).p := by
        rintro rfl
        exact hk.2.2 hps
      have h₃ : k ≠ s.1 := by
        rintro rfl
        exact hk.2.2 hsr
      rw [store_of_ne _ hk.2.1, store_of_ne _ h₃, hg k hk₀ hkp, if_neg h₁, if_neg (rootId_ne hk₀ hk.2.2).symm,
        if_neg (rootId_ne hk₀ hk.1).symm, if_neg h₂]
    · intro hp₀ hnot
      rw [store_of_ne _ (hpout _ hxt).symm, store_of_ne _ (hpout _ hst).symm]
      exact hgp hp₀ hnot

/-- Two heaps with the same nodes are one. -/
theorem heap_ext (hext : ∀ k, h k = h' k) : h = h' := by
  cases h
  cases h'
  exact congrArg Heap.mk (funext hext)

/-- **The swap with the right child**, a red leaf as it always is here: the node keeps a link to itself, which nothing
    follows before it is freed. -/
theorem Held.swapNear {side : Side} (ht : Held h (.node c l x (.node .red .nil s .nil)) p)
    (hlink : Linked h (.node c l x (.node .red .nil s .nil)) p side) :
    ∃ g, h.swapNear x.1 s.1 = some g ∧ g s.1 = ⟨c, p, rootId l, x.1, s.2⟩ ∧
      g x.1 = ⟨.red, s.1, kInvalidNodeId, x.1, x.2⟩ ∧ Held g l s.1 ∧
      Outside h g (.node c l x (.node .red .nil s .nil)) p side := by
  have sx := held_node.mp ht
  have ss := held_node.mp sx.right
  have hsr : s.1 ∈ ids (.node .red .nil s .nil) := mem_ids_node.mpr (Or.inr (Or.inl rfl))
  have hxs : x.1 ≠ s.1 := fun heq => sx.not_right (heq ▸ hsr)
  have hsl : s.1 ∉ ids l := fun hmem => sx.apart _ hmem hsr
  have hpout : ∀ k ∈ ids (.node c l x (.node .red .nil s .nil)), k ≠ p := by
    rintro k hk rfl
    rcases hlink with hinv | ⟨-, hnot, -⟩
    · exact ne_invalid (ht.pos k hk) hinv
    · exact hnot hk
  have hxp := hpout x.1 (mem_ids_node.mpr (Or.inr (Or.inl rfl)))
  have hsp := hpout s.1 (mem_ids_node.mpr (Or.inr (Or.inr hsr)))
  obtain ⟨g₁, hg₁, hk₁, q, hq⟩ := hlink.redirect s.1
  have hl₁ : Held g₁ l x.1 := sx.left.congr fun k hk => hk₁ k (hpout k (mem_ids_node.mpr (Or.inl hk)))
  obtain ⟨g₂, hg₂, hl₂, -, hk₂⟩ := hl₁.setParent_eq s.1
  -- the two nodes before the records are exchanged
  have hx₂ : g₂ x.1 = ⟨c, p, rootId l, s.1, x.2⟩ := by
    rw [hk₂ _ (rootId_ne sx.valid sx.not_left).symm, hk₁ _ hxp, sx.here, rootId_node]
  have hs₂ : g₂ s.1 = ⟨.red, x.1, kInvalidNodeId, kInvalidNodeId, s.2⟩ := by
    rw [hk₂ _ (rootId_ne ss.valid hsl).symm, hk₁ _ hsp, ss.here, rootId_nil]
  rw [rootId_node] at hg₁
  have hrun : h.swapNear x.1 s.1 = some ((g₂.write s.1 ⟨c, p, rootId l, x.1, s.2⟩).write x.1
      ⟨.red, s.1, kInvalidNodeId, x.1, x.2⟩) := by
    unfold Heap.swapNear
    simp only [ht.node_eq, rootId_node, sx.right.node_eq, rootId_nil, Option.bind_eq_bind, Option.bind_some, guard, if_true,
      Option.pure_def, hg₁, hg₂, setParent_invalid]
    apply congrArg some
    -- the source's stores one by one come to two whole records
    apply heap_ext
    intro k
    by_cases hkx : k = x.1
    · subst hkx
      simp [store_of_ne, hxs, hxs.symm, hx₂, hs₂]
    · by_cases hks : k = s.1
      · subst hks
        simp [store_of_ne, write_of_ne, hxs, hxs.symm, hx₂, hs₂]
      · simp [store_of_ne, write_of_ne, hkx, hks]
  refine ⟨_, hrun, ?_, write_self _, ?_, ?_, ?_⟩
  · rw [write_of_ne _ hxs.symm, write_self]
  · apply hl₂.congr
    intro k hk
    rw [write_of_ne _ (by rintro rfl; exact sx.not_left hk), write_of_ne _ (by rintro rfl; exact hsl hk)]
  · intro k hk₀ hk hkp
    rw [mem_ids_node, mem_ids_node] at hk
    push Not at hk
    rw [write_of_ne _ hk.2.1, write_of_ne _ hk.2.2.2.1, hk₂ _ (rootId_ne hk₀ hk.1).symm, hk₁ _ hkp]
  · intro hp₀ hnot
    refine ⟨q, ?_⟩
    rw [mem_ids_node] at hnot
    push Not at hnot
    rw [write_of_ne _ hxp.symm, write_of_ne _ hsp.symm, hk₂ _ (rootId_ne hp₀ hnot.1).symm, hq]

end RBTree
end Snippets
