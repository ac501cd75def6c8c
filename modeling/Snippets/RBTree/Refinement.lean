import Snippets.RBTree.Owned
import Snippets.Lib.BoundedMap

/-!
# `RBTree.Refinement` — the arena tree is a bounded map

A client makes calls one after the other, and erases only keys that are present. `exec` runs them on the tree and
`BoundedMap.exec` on a bounded map: the answers are the same (`refines_boundedMap`), no assert fails, and the tree is
a left-leaning red-black tree all along (`leftLeaning_of_exec`).
-/

namespace Snippets

open Lib

namespace RBTree

open BoundedMap (Op Answer)

variable {K V : Type} {cmp : Comparator K} {cap : Nat}

/-- The tree `t` of the state holds the pairs of the map. -/
structure Refines (s : RBTree K V) (m : BoundedMap cmp V cap) (t : ColorTree (Elem K V)) : Prop where
  owned : Owned cmp s t
  pairs : (t.toList.map Prod.snd).Perm m.pairs
  cap : s.maxSize = cap

variable {s : RBTree K V} {m : BoundedMap cmp V cap} {t : ColorTree (Elem K V)} {k : K} {v junk : V}

/-- The tree counts the pairs, -/
theorem Refines.size (h : Refines s m t) : s.size = m.pairs.length := by
  rw [h.owned.size, ← h.pairs.length_eq, List.length_map]

/-- A present key is that of an element, whose pair is the one stored. -/
theorem Refines.present (h : Refines s m t) (hk : m.has k) :
    ∃ x ∈ t.toList, cmp.equiv k (keyOf x) = true ∧ m.lookup k = some x.2 := by
  obtain ⟨p, hp, heq⟩ := hk
  obtain ⟨x, hx, rfl⟩ := List.mem_map.mp (h.pairs.mem_iff.mpr hp)
  exact ⟨x, hx, heq, BoundedMap.lookup_eq hp heq⟩

/-- has no key that the map has not, -/
theorem Refines.absent (h : Refines s m t) (hk : ¬ m.has k) : ∀ x ∈ t.toList, cmp.equiv k (keyOf x) = false := by
  intro x hx
  rw [Bool.eq_false_iff]
  intro heq
  exact hk ⟨x.2, h.pairs.mem_iff.mp (List.mem_map_of_mem hx), heq⟩

/-- and is full when the map is. -/
theorem Refines.full_iff (h : Refines s m t) : s.size = s.maxSize ↔ m.pairs.length = cap := by
  rw [h.size, h.cap]

/-- A new element in its place is a new pair. -/
theorem perm_add {t' : ColorTree (Elem K V)} {as bs : List (Elem K V)} {id : NodeId} {ps : List (K × V)}
    (hp : (t.toList.map Prod.snd).Perm ps) (h₁ : t.toList = as ++ bs) (h₂ : t'.toList = as ++ (id, (k, v)) :: bs) :
    (t'.toList.map Prod.snd).Perm ((k, v) :: ps) := by
  rw [h₁, List.map_append] at hp
  rw [h₂, List.map_append, List.map_cons]
  exact List.perm_middle.trans (hp.cons _)

/-- Taking the element with the key out is filtering the key away. -/
theorem perm_remove {t' : ColorTree (Elem K V)} {x : Elem K V} {as bs : List (Elem K V)} {ps : List (K × V)}
    (hp : (t.toList.map Prod.snd).Perm ps) (ho : ColorTree.Ordered cmp keyOf t.toList)
    (heq : cmp.equiv k (keyOf x) = true) (h₁ : t.toList = as ++ x :: bs) (h₂ : t'.toList = as ++ bs) :
    (t'.toList.map Prod.snd).Perm (ps.filter fun p => !cmp.equiv k p.1) := by
  rw [h₁] at ho hp
  obtain ⟨-, hx, hax⟩ := List.pairwise_append.mp ho
  -- the one pair that goes is the one with the key
  have hne : ∀ y : Elem K V, cmp.equiv (keyOf x) (keyOf y) = false → (!cmp.equiv k y.2.1) = true := by
    intro y hy
    rw [Bool.not_eq_true', Bool.eq_false_iff]
    intro hky
    have hxy : cmp.equiv (keyOf x) (keyOf y) = true := Comparator.equiv_trans (Comparator.equiv_symm heq) hky
    rw [hxy] at hy
    cases hy
  have has : (as.map Prod.snd).filter (fun p => !cmp.equiv k p.1) = as.map Prod.snd := by
    apply List.filter_eq_self.mpr
    intro p hp
    obtain ⟨y, hy, rfl⟩ := List.mem_map.mp hp
    exact hne y (Comparator.not_equiv_of_less' (hax y hy x List.mem_cons_self))
  have hbs : (bs.map Prod.snd).filter (fun p => !cmp.equiv k p.1) = bs.map Prod.snd := by
    apply List.filter_eq_self.mpr
    intro p hp
    obtain ⟨y, hy, rfl⟩ := List.mem_map.mp hp
    exact hne y (Comparator.not_equiv_of_less ((List.pairwise_cons.mp hx).1 y hy))
  have hself : (x.2 :: bs.map Prod.snd).filter (fun p => !cmp.equiv k p.1) = (bs.map Prod.snd).filter fun p => !cmp.equiv k p.1 := by
    apply List.filter_cons_of_neg
    have heq' : cmp.equiv k x.2.1 = true := heq
    rw [heq']
    decide
  have hfilter := hp.filter fun p => !cmp.equiv k p.1
  rw [List.map_append, List.map_cons, List.filter_append, hself, has, hbs] at hfilter
  rw [h₂, List.map_append]
  exact hfilter

/-- A store into the element with the key is a new value for the key. -/
theorem perm_set {x : Elem K V} {ps : List (K × V)} (howned : Owned cmp s t) (hp : (t.toList.map Prod.snd).Perm ps)
    (hx : x ∈ t.toList) (heq : cmp.equiv k (keyOf x) = true) :
    ((t.map (setAt x.1 v)).toList.map Prod.snd).Perm (ps.map fun p => if cmp.equiv k p.1 then (p.1, v) else p) := by
  -- the one pair that changes is the one with the key
  have hmap : (t.map (setAt x.1 v)).toList.map Prod.snd =
      (t.toList.map Prod.snd).map fun p => if cmp.equiv k p.1 then (p.1, v) else p := by
    rw [ColorTree.toList_map, List.map_map, List.map_map]
    apply List.map_congr_left
    intro y hy
    show (setAt x.1 v y).2 = if cmp.equiv k y.2.1 then (y.2.1, v) else y.2
    unfold setAt
    by_cases hyx : y.1 = x.1
    · have hv : y.2 = x.2 := by
        rw [← howned.held.rep.value hy, hyx, howned.held.rep.value hx]
      have hky : cmp.equiv k y.2.1 = true := by
        rw [hv]
        exact heq
      rw [if_pos hyx, if_pos hky]
    · have hky : ¬ cmp.equiv k y.2.1 = true := by
        intro hky
        exact hyx (congrArg Prod.fst (howned.ordered.eq_of_equiv hy hx
          (Comparator.equiv_trans (Comparator.equiv_symm hky) heq)))
      rw [if_neg hyx, if_neg hky]
  rw [hmap]
  exact hp.map _

/-! ## Runs

One call of the tree is one of the map. -/

variable [Zero K] [Zero V]

/-- One call, with what it returns. An iterator is seen as the pair it points to. -/
def step (cmp : Comparator K) (junk : V) (s : RBTree K V) : Op K V → Option (RBTree K V × Answer K V)
  | .insert k v => (s.insert cmp k v).map fun r => (r.1, .inserted (r.1.entry r.2.1) r.2.2)
  | .assign k v => (s.assign cmp junk k v).map fun r => (r.1, .assigned r.2)
  | .find k => (s.find cmp k).map fun id => (s, .found (s.entry id))
  | .count k => (s.count cmp k).map fun n => (s, .counted n)
  | .clear => s.clear.map fun s => (s, .cleared)
  | .erase k => (s.erase cmp k).map fun r => (r.1, .erased r.2)

/-- The calls in order, with their answers. -/
def exec (cmp : Comparator K) (junk : V) : RBTree K V → List (Op K V) → Option (RBTree K V × List (Answer K V))
  | s, [] => some (s, [])
  | s, op :: ops =>
      match s.step cmp junk op with
      | none => none
      | some (s, answer) => (exec cmp junk s ops).map fun r => (r.1, answer :: r.2)

/-- **One call**: the tree does what the map does, and gives the same answer. -/
theorem Refines.step (h : Refines s m t) (junk : V) {op : Op K V} (hop : ∀ k, op = .erase k → m.has k) :
    ∃ s' t', s.step cmp junk op = some (s', (m.step op).2) ∧ Refines s' (m.step op).1 t' := by
  -- one case per call; most of them split by whether the key is there
  cases op with
  | insert k v =>
      by_cases hk : m.has k
      · obtain ⟨x, hx, heq, hlook⟩ := h.present hk
        refine ⟨s, t, ?_, ?_⟩
        · simp only [RBTree.step, BoundedMap.step, dif_pos hk, h.owned.insert_present hx heq v, Option.map_some,
            h.owned.entry_eq hx, hlook]
        · simp only [BoundedMap.step, dif_pos hk]
          exact h
      · by_cases hfull : m.pairs.length = cap
        · refine ⟨s, t, ?_, ?_⟩
          · simp only [RBTree.step, BoundedMap.step, dif_neg hk, dif_pos hfull,
              h.owned.insert_full (h.absent hk) v (h.full_iff.mpr hfull), Option.map_some, entry_invalid]
          · simp only [BoundedMap.step, dif_neg hk, dif_pos hfull]
            exact h
        · obtain ⟨s', t', id, hins, howned, hmax, as, bs, h₁, h₂⟩ :=
            h.owned.insert_new (h.absent hk) v (mt h.full_iff.mp hfull)
          refine ⟨s', t', ?_, ?_⟩
          · have hentry := howned.entry_eq (x := (id, (k, v))) (by rw [h₂]; simp)
            simp only [RBTree.step, BoundedMap.step, dif_neg hk, dif_neg hfull, hins, Option.map_some, hentry]
          · simp only [BoundedMap.step, dif_neg hk, dif_neg hfull]
            exact ⟨howned, perm_add h.pairs h₁ h₂, hmax.trans h.cap⟩
  | assign k v =>
      by_cases hk : m.has k
      · obtain ⟨x, hx, heq, -⟩ := h.present hk
        refine ⟨s.store x.1 fun n => { n with v := (n.v.1, v) }, t.map (setAt x.1 v), ?_, ?_⟩
        · simp only [RBTree.step, BoundedMap.step, dif_pos hk, h.owned.assign_present hx heq junk v, Option.map_some]
        · simp only [BoundedMap.step, dif_pos hk]
          exact ⟨h.owned.store hx v, perm_set h.owned h.pairs hx heq, h.cap⟩
      · by_cases hfull : m.pairs.length = cap
        · refine ⟨s, t, ?_, ?_⟩
          · simp only [RBTree.step, BoundedMap.step, dif_neg hk, dif_pos hfull,
              h.owned.assign_full (h.absent hk) (h.full_iff.mpr hfull) junk v, Option.map_some]
          · simp only [BoundedMap.step, dif_neg hk, dif_pos hfull]
            exact h
        · obtain ⟨s', t', id, hins, howned, hmax, as, bs, h₁, h₂⟩ :=
            h.owned.assign_new (h.absent hk) (mt h.full_iff.mp hfull) junk v
          refine ⟨s', t', ?_, ?_⟩
          · simp only [RBTree.step, BoundedMap.step, dif_neg hk, dif_neg hfull, hins, Option.map_some]
          · simp only [BoundedMap.step, dif_neg hk, dif_neg hfull]
            exact ⟨howned, perm_add h.pairs h₁ h₂, hmax.trans h.cap⟩
  | find k =>
      refine ⟨s, t, ?_, h⟩
      by_cases hk : m.has k
      · obtain ⟨x, hx, heq, hlook⟩ := h.present hk
        simp only [RBTree.step, BoundedMap.step, h.owned.find_present hx heq, Option.map_some, h.owned.entry_eq hx, hlook]
      · simp only [RBTree.step, BoundedMap.step, h.owned.find_absent (h.absent hk), Option.map_some, entry_invalid,
          BoundedMap.lookup_none hk]
  | count k =>
      refine ⟨s, t, ?_, h⟩
      by_cases hk : m.has k
      · obtain ⟨x, hx, heq, -⟩ := h.present hk
        simp only [RBTree.step, BoundedMap.step, count, h.owned.find_present hx heq, Option.map_some,
          if_neg (ne_invalid (h.owned.valid hx)), if_pos hk]
      · simp only [RBTree.step, BoundedMap.step, count, h.owned.find_absent (h.absent hk), Option.map_some, if_true,
          if_neg hk]
  | clear =>
      obtain ⟨s', hclear, howned, hmax⟩ := h.owned.clear
      refine ⟨s', .nil, ?_, howned, List.Perm.nil, hmax.trans h.cap⟩
      simp only [RBTree.step, BoundedMap.step, hclear, Option.map_some]
  | erase k =>
      have hk := hop k rfl
      obtain ⟨x, hx, heq, -⟩ := h.present hk
      obtain ⟨s', t', herase, howned, hmax, as, bs, h₁, h₂⟩ := h.owned.erase_present hx heq
      refine ⟨s', t', ?_, howned, perm_remove h.pairs h.owned.ordered heq h₁ h₂, hmax.trans h.cap⟩
      simp only [RBTree.step, BoundedMap.step, herase, Option.map_some, if_pos hk]

/-- **Any number of calls.** -/
theorem Refines.exec (h : Refines s m t) (junk : V) {ops : List (Op K V)} (hops : m.ErasesPresent ops) :
    ∃ s' t', s.exec cmp junk ops = some (s', (m.exec ops).2) ∧ Refines s' (m.exec ops).1 t' := by
  induction ops generalizing s m t with
  | nil => exact ⟨s, t, rfl, h⟩
  | cons op ops ih =>
      obtain ⟨hop, hrest⟩ := hops
      obtain ⟨s₁, t₁, hstep, h₁⟩ := h.step junk hop
      obtain ⟨s', t', hexec, h'⟩ := ih h₁ hrest
      refine ⟨s', t', ?_, h'⟩
      simp only [RBTree.exec, hstep, hexec, Option.map_some, BoundedMap.exec]

/-! ## From `CreateFrom` on

A created tree refines the empty map. -/

section Created

variable {start len nodeSize : Nat} {mem : Mem} {nodes : Heap K V} {s₀ : RBTree K V} {ops : List (Op K V)}

omit [Zero K] [Zero V] in
/-- A new tree is empty, as long as the sums the allocator computes over its buffer fit. -/
theorem refines_createFrom (hfit : MemoryList.SumsFit (start + kHeaderSize) (len - kHeaderSize) nodeSize)
    (hc : createFrom start len nodeSize mem nodes = some (some s₀)) :
    Refines s₀ (BoundedMap.empty : BoundedMap cmp V s₀.maxSize) .nil := by
  unfold createFrom at hc
  split at hc
  · cases hc
  · obtain ⟨a, ha, hmap⟩ := Option.map_eq_some_iff.mp hc
    obtain ⟨ml, rfl, hs⟩ := Option.map_eq_some_iff.mp hmap
    have hinv := MemoryList.holding_createFrom hfit ha
    rw [← hs]
    exact ⟨⟨held_nil, rfl, rfl, hinv, List.Pairwise.nil, 0, .nil⟩, List.Perm.nil, rfl⟩

/-- What a state says about its map. -/
structure MapSpec (s : RBTree K V) (m : BoundedMap cmp V cap) : Prop where
  size : s.size = m.pairs.length
  find : ∀ k, ∃ id, s.find cmp k = some id ∧ s.entry id = m.lookup k
  present : ∀ k v, m.has k → ∃ id, s.find cmp k = some id ∧ id ≠ kInvalidNodeId ∧ s.insert cmp k v = some (s, id, false)
  full : ∀ k v, ¬ m.has k → (s.insert cmp k v = some (s, kInvalidNodeId, false) ↔ s.size = s.maxSize)
  room : ∀ k v, ¬ m.has k → s.size ≠ s.maxSize → ∃ s' id, s.insert cmp k v = some (s', id, true) ∧
    s'.find cmp k = some id ∧ s'.entry id = some (k, v)

omit [Zero K] [Zero V] in
/-- What a client sees is the map's. -/
theorem Refines.mapSpec (h : Refines s m t) : MapSpec s m := by
  refine ⟨h.size, ?_, ?_, ?_, ?_⟩
  · intro k
    by_cases hk : m.has k
    · obtain ⟨x, hx, heq, hlook⟩ := h.present hk
      exact ⟨x.1, h.owned.find_present hx heq, by rw [h.owned.entry_eq hx, hlook]⟩
    · exact ⟨_, h.owned.find_absent (h.absent hk), by rw [entry_invalid, BoundedMap.lookup_none hk]⟩
  · intro k v hk
    obtain ⟨x, hx, heq, -⟩ := h.present hk
    exact ⟨x.1, h.owned.find_present hx heq, ne_invalid (h.owned.valid hx), h.owned.insert_present hx heq v⟩
  · intro k v hk
    constructor
    · intro hins
      by_contra hroom
      obtain ⟨s', t', id, hins', -⟩ := h.owned.insert_new (h.absent hk) v hroom
      rw [hins] at hins'
      cases hins'
    · exact h.owned.insert_full (h.absent hk) v
  · intro k v hk hroom
    obtain ⟨s', t', id, hins, howned, -, as, bs, -, h₂⟩ := h.owned.insert_new (h.absent hk) v hroom
    have hx : (id, (k, v)) ∈ t'.toList := by
      rw [h₂]
      simp
    exact ⟨s', id, hins, howned.find_present hx (Comparator.equiv_refl k), howned.entry_eq hx⟩

/-- The order of the natural numbers. -/
def natural : Comparator Nat where
  less a b := decide (a < b)
  irrefl := Comparator.nat.irrefl
  trans := Comparator.nat.trans
  incomp := Comparator.nat.incomp

/-- Nodes that nobody has used. -/
def blank : Heap Nat Nat := ⟨fun _ => ⟨.red, 0, 0, 0, (0, 0)⟩⟩

/-- A buffer with room for two nodes of 24 bytes. -/
theorem createFrom_two : ∃ s₀, createFrom 4096 144 24 (fun _ => 0) blank = some (some s₀) ∧ s₀.maxSize = 2 := by
  have hc : (createFrom 4096 144 24 (fun _ => 0) blank).join.map maxSize = some 2 := by decide +kernel
  obtain ⟨s₀, hj, hmax⟩ := Option.map_eq_some_iff.mp hc
  exact ⟨s₀, Option.join_eq_some_iff.mp hj, hmax⟩

/-- A buffer with room for three nodes of 24 bytes. -/
theorem createFrom_threeNodes : ∃ s₀, createFrom 4096 176 24 (fun _ => 0) blank = some (some s₀) ∧ s₀.maxSize = 3 := by
  have hc : (createFrom 4096 176 24 (fun _ => 0) blank).join.map maxSize = some 3 := by decide +kernel
  obtain ⟨s₀, hj, hmax⟩ := Option.map_eq_some_iff.mp hc
  exact ⟨s₀, Option.join_eq_some_iff.mp hj, hmax⟩

/-- Three keys go in, a fourth finds the map full, one is replaced, and the middle one is erased. -/
def threeKeys : List (Op Nat Nat) :=
  [.insert 1 10, .insert 2 20, .insert 3 30, .insert 4 40, .assign 1 11, .erase 2, .find 3, .count 2]

/-- The example erases a key that is there. -/
theorem erasesPresent_threeKeys {capacity : Nat} (h : capacity = 3) :
    (BoundedMap.empty : BoundedMap natural Nat capacity).ErasesPresent threeKeys := by
  subst h
  unfold threeKeys
  simp only [BoundedMap.ErasesPresent]
  refine ⟨?_, ?_, ?_, ?_, ?_, ?_, ?_, ?_, trivial⟩
  all_goals intro k hk; cases hk
  decide

/-- **The arena tree refines a bounded map.** Whatever is called, the answers are those of the map, and the state that
    is reached says so of every key. -/
theorem refines_boundedMap (hfit : MemoryList.SumsFit (start + kHeaderSize) (len - kHeaderSize) nodeSize)
    (hc : createFrom start len nodeSize mem nodes = some (some s₀)) (junk : V)
    (hops : (BoundedMap.empty : BoundedMap cmp V s₀.maxSize).ErasesPresent ops) :
    ∃ s, s₀.exec cmp junk ops = some (s, ((BoundedMap.empty : BoundedMap cmp V s₀.maxSize).exec ops).2) ∧
      MapSpec s ((BoundedMap.empty : BoundedMap cmp V s₀.maxSize).exec ops).1 := by
  obtain ⟨s, t, hexec, h⟩ := (refines_createFrom hfit hc).exec junk hops
  exact ⟨s, hexec, h.mapSpec⟩

/-- Three keys, of which one is erased, in a tree of three slices. -/
theorem refines_boundedMap_threeKeys : ∃ s₀ s, createFrom 4096 176 24 (fun _ => 0) blank = some (some s₀) ∧
    s₀.exec natural 0 threeKeys = some (s, [.inserted (some (1, 10)) true, .inserted (some (2, 20)) true,
      .inserted (some (3, 30)) true, .inserted none false, .assigned true, .erased 1, .found (some (3, 30)),
      .counted 0]) ∧ s.size = 2 := by
  obtain ⟨s₀, hc, hmax⟩ := createFrom_threeNodes
  have hops := erasesPresent_threeKeys hmax
  obtain ⟨s, hexec, hspec⟩ := refines_boundedMap (by decide) hc 0 hops
  have hsize := hspec.size
  rw [hmax] at hexec hsize
  exact ⟨s₀, s, hc, hexec, hsize⟩

/-- The state holds a left-leaning red-black tree, and every `p` names the parent. -/
structure LeftLeaningTree (cmp : Comparator K) (s : RBTree K V) (t : ColorTree (Elem K V)) : Prop where
  represents : Rep s.nodes t kInvalidNodeId
  distinct : (ids t).Nodup
  root : s.root = rootId t
  rootBlack : t.isRed = false
  ordered : ColorTree.Ordered cmp keyOf t.toList
  rightBlack : ∀ u ∈ t.subtrees, u.right.isRed = false
  redLeftBlack : ∀ u ∈ t.subtrees, u.isRed = true → u.left.isRed = false
  blackHeight : ∀ a ∈ t.blackCounts, ∀ b ∈ t.blackCounts, a = b

omit [Zero K] [Zero V] in
/-- Such a tree is left-leaning, as the theorem states it. -/
theorem Owned.leftLeaningTree (h : Owned cmp s t) : LeftLeaningTree cmp s t := by
  obtain ⟨n, hn⟩ := h.balanced
  refine ⟨h.held.rep, h.held.nodup, h.root, hn.isRed_black, h.ordered, ?_, ?_, ?_⟩
  · intro u hu
    exact (hn.subtrees u hu).1
  · intro u hu
    exact (hn.subtrees u hu).2
  · intro a ha b hb
    rw [hn.blackCounts a ha, hn.blackCounts b hb]

/-- **Every state is a left-leaning red-black tree**, and no call on the way fails an assert. -/
theorem leftLeaning_of_exec (hfit : MemoryList.SumsFit (start + kHeaderSize) (len - kHeaderSize) nodeSize)
    (hc : createFrom start len nodeSize mem nodes = some (some s₀)) (junk : V)
    (hops : (BoundedMap.empty : BoundedMap cmp V s₀.maxSize).ErasesPresent ops) :
    ∃ s answers t, s₀.exec cmp junk ops = some (s, answers) ∧ LeftLeaningTree cmp s t := by
  obtain ⟨s, t, hexec, h⟩ := (refines_createFrom hfit hc).exec junk hops
  exact ⟨s, _, t, hexec, h.owned.leftLeaningTree⟩

/-- So is the example's. -/
theorem leftLeaning_threeKeys : ∃ s₀ s answers t, createFrom 4096 176 24 (fun _ => 0) blank = some (some s₀) ∧
    s₀.exec natural 0 threeKeys = some (s, answers) ∧ LeftLeaningTree natural s t := by
  obtain ⟨s₀, hc, hmax⟩ := createFrom_threeNodes
  have hops := erasesPresent_threeKeys hmax
  obtain ⟨s, answers, t, hexec, htree⟩ := leftLeaning_of_exec (by decide) hc 0 hops
  exact ⟨s₀, s, answers, t, hc, hexec, htree⟩

end Created

end RBTree
end Snippets
