import Snippets.RBTree.Refinement
import Snippets.MemoryList.Reopen
import Snippets.Lib.Reopening

/-!
# `RBTree.Restore` — a tree that is saved and restored

The meta data, the allocator's header, its slices and the nodes in them all lie in one buffer, and name each other by
ids. `RestoreFrom` over a copy of the buffer, at any address, therefore gives back the tree. `Life` is the life of such
a tree: calls, and now and then a copy of the buffer that is opened in its place; over the whole of it the tree is one
bounded map.
-/

namespace Snippets

open Lib

namespace RBTree

open MemoryList (Kept Stamped Holding SumsFit)
open BoundedMap (Op Answer)
open Reopening (Event Life calls)

variable {K V : Type} {cmp : Comparator K} {cap : Nat}

/-! ## `RestoreFrom`

It checks the magic number of the tree and restores the allocator over the rest of the buffer; root, size and
nodes are in the copied bytes. -/

/-- The constant that marks a tree. -/
def kMagicNumber : Int := 1050165255719967046

/-- The first bytes of the buffer. -/
structure MetaData where
  magicNumber : Int
  root : NodeId
  size : Nat
  depth : Nat

/-- The meta data that `CreateFrom` and the calls keep in the buffer. -/
def metaData (s : RBTree K V) : MetaData := ⟨kMagicNumber, s.root, s.size, s.depth⟩

/-- `RestoreFrom` on a buffer that holds `md`, then the allocator's `header`, with the payloads `nodes`; `none` is
    `NULL`. -/
def restoreFrom (start len nodeSize : Nat) (md : MetaData) (header : MemoryList.Header) (mem : Mem) (nodes : Heap K V) :
    Option (RBTree K V) :=
  if len < kHeaderSize then none
  else if md.magicNumber ≠ kMagicNumber then none
  else (MemoryList.restoreFrom (toSize (start + kHeaderSize)) (len - kHeaderSize) nodeSize header mem).map fun ml =>
    ⟨md.root, md.size, md.depth, ml, nodes⟩

/-! ## What the calls keep of the allocator's header

Only `GetSlice` and `FreeSlice` reach the allocator, so every call of the tree keeps what they keep. The lemmas
follow the source's functions from the inside out. -/

section Kept

variable {s s' : RBTree K V} {id : NodeId} {key : K} {val : V} {fuel : Nat}

/-- A function that works on nodes alone, -/
theorem kept_onNodes {f : Heap K V → Option (Heap K V × NodeId)} {r : RBTree K V × NodeId} (h : s.onNodes f = some r) :
    Kept s.ml r.1.ml := by
  obtain ⟨p, -, rfl⟩ := Option.map_eq_some_iff.mp h
  exact Kept.refl _

/-- the link on the way up, -/
theorem kept_attach {side : Side} {child : NodeId} {r : RBTree K V × NodeId} (h : s.attach side id child = some r) :
    Kept s.ml r.1.ml := by
  simp only [attach, Option.bind_eq_bind, Option.bind_eq_some_iff] at h
  obtain ⟨-, -, h⟩ := h
  have h₁ := kept_onNodes h
  exact h₁

/-- the new node, -/
theorem kept_newNode {r : RBTree K V × NodeId} (h : s.newNode key val = some r) : Kept s.ml r.1.ml := by
  simp only [newNode, Option.bind_eq_bind, Option.bind_eq_some_iff] at h
  obtain ⟨⟨ml, new⟩, hget, -, -, h⟩ := h
  obtain rfl := Option.some.inj h
  exact MemoryList.kept_getSlice hget

/-- the descent of `insert` -/
theorem kept_put {r : RBTree K V × NodeId} (h : s.put cmp key val fuel id = some r) : Kept s.ml r.1.ml := by
  induction fuel generalizing s id r with
  | zero => cases h
  | succ fuel ih =>
      simp only [put] at h
      split at h
      · cases h
      · exact kept_newNode h
      · split at h
        · split at h
          · cases h
          · exact (ih ‹_›).trans (kept_attach h)
        · split at h
          · split at h
            · cases h
            · exact (ih ‹_›).trans (kept_attach h)
          · obtain rfl := Option.some.inj h
            exact Kept.refl _

/-- and the root painted black, -/
theorem kept_blackenRoot (h : s.blackenRoot = some s') : Kept s.ml s'.ml := by
  simp only [blackenRoot, Option.bind_eq_bind, Option.bind_eq_some_iff] at h
  obtain ⟨node, -, h⟩ := h
  split at h
  all_goals
    obtain rfl := Option.some.inj h
    exact Kept.refl _

/-- so `insert` keeps it, -/
theorem kept_insert {r : RBTree K V × NodeId × Bool} (h : s.insert cmp key val = some r) : Kept s.ml r.1.ml := by
  simp only [insert, Option.bind_eq_bind, Option.bind_eq_some_iff] at h
  obtain ⟨iter, -, h⟩ := h
  split at h
  · split at h
    · obtain rfl := Option.some.inj h
      exact Kept.refl _
    · simp only [Option.bind_eq_some_iff] at h
      obtain ⟨⟨s₁, root⟩, hput, s₂, hblack, id, -, h⟩ := h
      obtain rfl := Option.some.inj h
      have h₁ := kept_blackenRoot hblack
      exact (kept_put hput).trans h₁
  · obtain rfl := Option.some.inj h
    exact Kept.refl _

/-- `operator[]` -/
theorem kept_index {junk : V} {r : RBTree K V × Option NodeId} (h : s.index cmp junk key = some r) : Kept s.ml r.1.ml := by
  simp only [index, Option.bind_eq_bind, Option.bind_eq_some_iff] at h
  obtain ⟨iter, -, h⟩ := h
  split at h
  · obtain ⟨⟨s₁, id, b⟩, hins, h⟩ := Option.bind_eq_some_iff.mp h
    obtain rfl := Option.some.inj h
    exact kept_insert hins
  · obtain rfl := Option.some.inj h
    exact Kept.refl _

/-- and an assignment too. -/
theorem kept_assign {junk : V} {r : RBTree K V × Bool} (h : s.assign cmp junk key val = some r) : Kept s.ml r.1.ml := by
  simp only [assign, Option.bind_eq_bind, Option.bind_eq_some_iff] at h
  obtain ⟨⟨s₁, id⟩, hindex, h⟩ := h
  cases id with
  | none =>
      obtain rfl := Option.some.inj h
      exact kept_index hindex
  | some id =>
      obtain ⟨-, -, h⟩ := Option.bind_eq_some_iff.mp h
      obtain rfl := Option.some.inj h
      exact kept_index hindex

variable [Zero K] [Zero V]

/-- A node given back, -/
theorem kept_freeNode (h : s.freeNode id = some s') : Kept s.ml s'.ml := by
  simp only [freeNode, Option.bind_eq_bind, Option.bind_eq_some_iff] at h
  obtain ⟨ml, hfree, h⟩ := h
  obtain rfl := Option.some.inj h
  exact MemoryList.kept_freeSlice hfree

/-- `DeleteMin`, -/
theorem kept_deleteMin {r : RBTree K V × NodeId} (h : deleteMin fuel s id = some r) : Kept s.ml r.1.ml := by
  induction fuel generalizing s id r with
  | zero => cases h
  | succ fuel ih =>
      simp only [deleteMin, Option.bind_eq_bind, Option.bind_eq_some_iff] at h
      obtain ⟨node, -, h⟩ := h
      split at h
      · simp only [Option.bind_eq_some_iff] at h
        obtain ⟨-, -, s₁, hfree, h⟩ := h
        obtain rfl := Option.some.inj h
        exact kept_freeNode hfree
      · simp only [Option.bind_eq_some_iff] at h
        obtain ⟨⟨s₁, id₁⟩, hspare, node₁, -, ⟨s₂, child⟩, hrest, h⟩ := h
        have h₁ := (kept_onNodes hspare).trans (ih hrest)
        have h₂ := kept_onNodes h
        exact h₁.trans h₂

/-- the node itself -/
theorem kept_deleteHere {r : RBTree K V × NodeId} (h : s.deleteHere fuel id = some r) : Kept s.ml r.1.ml := by
  simp only [deleteHere, Option.bind_eq_bind, Option.bind_eq_some_iff] at h
  obtain ⟨node, -, successorId, -, successor, -, -, -, h⟩ := h
  split at h
  -- however the two nodes change places, only payloads are written
  all_goals
    simp only [Option.bind_eq_some_iff] at h
    obtain ⟨heap, -, node, -, ⟨s₁, child⟩, hmin, h⟩ := h
    have h₁ := kept_deleteMin hmin
    have h₂ := kept_onNodes h
    exact h₁.trans h₂

/-- and the descent of `erase`, -/
theorem kept_delete {r : RBTree K V × Option NodeId} (h : s.delete cmp key fuel id = some r) : Kept s.ml r.1.ml := by
  -- by induction on the descent, branch by branch
  induction fuel generalizing s id r with
  | zero => cases h
  | succ fuel ih =>
      simp only [delete, Option.bind_eq_bind, Option.bind_eq_some_iff] at h
      obtain ⟨node, -, h⟩ := h
      split at h
      · split at h
        · obtain rfl := Option.some.inj h
          exact Kept.refl _
        · simp only [Option.bind_eq_some_iff] at h
          obtain ⟨⟨s₁, id₁⟩, hspare, node₁, -, ⟨s₂, child⟩, hrest, h⟩ := h
          have h₁ := (kept_onNodes hspare).trans (ih hrest)
          cases child with
          | none =>
              obtain rfl := Option.some.inj h
              exact h₁
          | some child =>
              obtain ⟨⟨s₃, id₃⟩, hkeep, h⟩ := Option.bind_eq_some_iff.mp h
              obtain rfl := Option.some.inj h
              exact h₁.trans (kept_onNodes hkeep)
      · simp only [Option.bind_eq_some_iff] at h
        obtain ⟨⟨s₁, id₁⟩, hlean, node₁, -, h⟩ := h
        have h₁ := kept_onNodes hlean
        split at h
        · obtain ⟨s₂, hfree, h⟩ := Option.bind_eq_some_iff.mp h
          obtain rfl := Option.some.inj h
          exact h₁.trans (kept_freeNode hfree)
        · simp only [Option.bind_eq_some_iff] at h
          obtain ⟨⟨s₂, id₂⟩, hspare, node₂, -, h⟩ := h
          have h₂ := h₁.trans (kept_onNodes hspare)
          split at h
          · obtain ⟨⟨s₃, id₃⟩, hhere, h⟩ := Option.bind_eq_some_iff.mp h
            obtain rfl := Option.some.inj h
            exact h₂.trans (kept_deleteHere hhere)
          · split at h
            · obtain rfl := Option.some.inj h
              exact h₂
            · obtain ⟨⟨s₃, child⟩, hrest, h⟩ := Option.bind_eq_some_iff.mp h
              have h₃ := h₂.trans (ih hrest)
              cases child with
              | none =>
                  obtain rfl := Option.some.inj h
                  exact h₃
              | some child =>
                  obtain ⟨⟨s₄, id₄⟩, hkeep, h⟩ := Option.bind_eq_some_iff.mp h
                  obtain rfl := Option.some.inj h
                  exact h₃.trans (kept_onNodes hkeep)

omit [Zero K] [Zero V] in
/-- with the root painted black again, -/
theorem kept_restoreRoot (h : s.restoreRoot = some s') : Kept s.ml s'.ml := by
  unfold restoreRoot at h
  split at h
  · obtain rfl := Option.some.inj h
    exact Kept.refl _
  · obtain ⟨-, -, h⟩ := Option.bind_eq_some_iff.mp h
    obtain rfl := Option.some.inj h
    exact Kept.refl _

/-- so `erase` keeps it. -/
theorem kept_erase {r : RBTree K V × Nat} (h : s.erase cmp key = some r) : Kept s.ml r.1.ml := by
  unfold erase at h
  split at h
  · obtain rfl := Option.some.inj h
    exact Kept.refl _
  · simp only [Option.bind_eq_bind, Option.bind_eq_some_iff] at h
    obtain ⟨-, -, ⟨s₁, root⟩, hdelete, h⟩ := h
    have h₁ : Kept s.ml s₁.ml := kept_delete hdelete
    cases root with
    | none =>
        obtain ⟨s₂, hroot, h⟩ := Option.bind_eq_some_iff.mp h
        obtain rfl := Option.some.inj h
        exact h₁.trans (kept_restoreRoot hroot)
    | some root =>
        obtain ⟨s₂, hroot, h⟩ := Option.bind_eq_some_iff.mp h
        obtain rfl := Option.some.inj h
        have h₂ := kept_restoreRoot hroot
        exact h₁.trans h₂

end Kept

/-! ## The life of a tree

Calls, and copies that are opened at other addresses, in any order. `Stands` is what holds in between: the state
refines the map, and the buffer is the one the header names. -/

section Life

variable [Zero K] [Zero V] {start start' len nodeSize : Nat} {mem mem' : Mem} {nodes nodes' : Heap K V} {junk : V}
  {s s' s₀ : RBTree K V} {t : ColorTree (Elem K V)} {m : BoundedMap cmp V cap}

/-- A call that is not an erasure of an absent key. -/
def Legal (cmp : Comparator K) (s : RBTree K V) (op : Op K V) : Prop :=
  ∀ k, op = .erase k → ∃ id, s.find cmp k = some id ∧ id ≠ kInvalidNodeId

/-- At `start'` lies a copy of the tree's buffer at `start`: the same bytes behind the meta data, so the same nodes. -/
structure Copied (s : RBTree K V) (start len start' : Nat) (mem' : Mem) (nodes' : Heap K V) : Prop where
  bytes : ∀ j : Nat, j < len - kHeaderSize →
    mem' ((start' + kHeaderSize : Nat) + j) = s.ml.mem ((start + kHeaderSize : Nat) + j)
  nodes : ∀ i : NodeId, 0 ≤ i → i < s.ml.capacity → nodes' i = s.nodes i

/-- A copy of the buffer: where it lies, its bytes and its payloads. -/
structure Copy (K V : Type) where
  start : Nat
  mem : Mem
  nodes : Heap K V

/-- A call on the tree that lies at an address, and its answer. -/
def Called (cmp : Comparator K) (junk : V) (x : Nat × RBTree K V) (c : Op K V × Answer K V) (y : Nat × RBTree K V) :
    Prop :=
  Legal cmp x.2 c.1 ∧ x.2.step cmp junk c.1 = some (y.2, c.2) ∧ y.1 = x.1

/-- A copy is opened in place of the tree. -/
def Opened (len nodeSize : Nat) (x : Nat × RBTree K V) (c : Copy K V) (y : Nat × RBTree K V) : Prop :=
  SumsFit (c.start + kHeaderSize) (len - kHeaderSize) nodeSize ∧ Copied x.2 x.1 len c.start c.mem c.nodes ∧
    restoreFrom c.start len nodeSize x.2.metaData x.2.ml.header c.mem c.nodes = some y.2 ∧ y.1 = c.start

/-- A call of the bounded map, and its answer. -/
def MapCall (m : BoundedMap cmp V cap) (c : Op K V × Answer K V) (m' : BoundedMap cmp V cap) : Prop :=
  m.step c.1 = (m', c.2)

/-- Every call keeps what `CreateFrom` has stamped on the buffer. -/
theorem stamped_call (h : Refines s m t) (hs : Stamped start len nodeSize s.ml) {op : Op K V} {answer : Answer K V}
    (hstep : s.step cmp junk op = some (s', answer)) : Stamped start len nodeSize s'.ml := by
  cases op with
  | insert k v =>
      obtain ⟨r, hr, heq⟩ := Option.map_eq_some_iff.mp hstep
      obtain ⟨rfl, -⟩ := Prod.mk.inj heq
      exact (kept_insert hr).stamped hs
  | assign k v =>
      obtain ⟨r, hr, heq⟩ := Option.map_eq_some_iff.mp hstep
      obtain ⟨rfl, -⟩ := Prod.mk.inj heq
      exact (kept_assign hr).stamped hs
  | find k =>
      obtain ⟨r, -, heq⟩ := Option.map_eq_some_iff.mp hstep
      obtain ⟨rfl, -⟩ := Prod.mk.inj heq
      exact hs
  | count k =>
      obtain ⟨r, -, heq⟩ := Option.map_eq_some_iff.mp hstep
      obtain ⟨rfl, -⟩ := Prod.mk.inj heq
      exact hs
  | clear =>
      obtain ⟨r, hr, heq⟩ := Option.map_eq_some_iff.mp hstep
      obtain ⟨rfl, -⟩ := Prod.mk.inj heq
      simp only [clear, Option.bind_eq_bind, Option.bind_eq_some_iff] at hr
      obtain ⟨ml, hclear, hr⟩ := hr
      obtain rfl := Option.some.inj hr
      exact hs.clear h.owned.slices hclear
  | erase k =>
      obtain ⟨r, hr, heq⟩ := Option.map_eq_some_iff.mp hstep
      obtain ⟨rfl, -⟩ := Prod.mk.inj heq
      exact (kept_erase hr).stamped hs

omit [Zero K] [Zero V] in
/-- The start of the slices does not wrap. -/
theorem toSize_start (hfit : SumsFit (start + kHeaderSize) (len - kHeaderSize) nodeSize) :
    toSize (start + kHeaderSize) = start + kHeaderSize := by
  unfold SumsFit at hfit
  rw [toSize_of_range (by omega) (by exact_mod_cast (by omega : start + kHeaderSize < 2 ^ 64))]
  omega

omit [Zero K] [Zero V] in
/-- The copy is the same tree, over an allocator of its own. -/
theorem Refines.reopen (h : Refines s m t) (hs : Stamped (start + kHeaderSize) (len - kHeaderSize) nodeSize s.ml)
    (hlen : MemoryList.kHeaderSize < len - kHeaderSize)
    (hfit : SumsFit (start' + kHeaderSize) (len - kHeaderSize) nodeSize) (hcopy : Copied s start len start' mem' nodes') :
    ∃ s', restoreFrom start' len nodeSize s.metaData s.ml.header mem' nodes' = some s' ∧ Refines s' m t ∧
      Stamped (start' + kHeaderSize) (len - kHeaderSize) nodeSize s'.ml := by
  obtain ⟨ml', hrestore, hslices, hs', hcap, -⟩ := h.owned.slices.reopen hs hlen hfit hcopy.bytes
  have hstart := toSize_start hfit
  let s' : RBTree K V := ⟨s.root, s.size, s.depth, ml', nodes'⟩
  have heq : restoreFrom start' len nodeSize s.metaData s.ml.header mem' nodes' = some s' := by
    unfold restoreFrom
    rw [if_neg (by omega), if_neg (by simp [metaData]), hstart, hrestore]
    rfl
  have hheld : Held nodes' t kInvalidNodeId := by
    refine h.owned.held.congr fun i hi => hcopy.nodes i (h.owned.held.pos i hi) ?_
    obtain ⟨F, W, hpart, hW⟩ := h.owned.slices.lists
    exact (hpart.mem_iff.mp (Or.inr (hW.mem_iff.mpr hi))).2
  exact ⟨s', heq, ⟨⟨hheld, h.owned.root, h.owned.size, hslices, h.owned.ordered, h.owned.balanced⟩, h.pairs,
    hcap.trans h.cap⟩, hs'⟩

omit [Zero K] [Zero V] in
/-- A legal erasure is of a key that is there. -/
theorem Refines.has_of_legal (h : Refines s m t) {op : Op K V} (hop : Legal cmp s op) : ∀ k, op = .erase k → m.has k := by
  intro k hk
  obtain ⟨id, hfind, hid⟩ := hop k hk
  by_contra hhas
  rw [h.owned.find_absent (h.absent hhas)] at hfind
  exact hid (Option.some.inj hfind).symm

/-- A tree for the map `m`, over a buffer that is stamped for its place. -/
def Stands (cmp : Comparator K) (cap len nodeSize : Nat) (x : Nat × RBTree K V) (m : BoundedMap cmp V cap) : Prop :=
  Stamped (x.1 + kHeaderSize) (len - kHeaderSize) nodeSize x.2.ml ∧ ∃ t, Refines x.2 m t

/-- A call keeps it, with the map's answer, -/
theorem Stands.called {x y : Nat × RBTree K V} {c : Op K V × Answer K V} (h : Stands cmp cap len nodeSize x m)
    (hcall : Called cmp junk x c y) : ∃ m', MapCall m c m' ∧ Stands cmp cap len nodeSize y m' := by
  obtain ⟨hs, t, href⟩ := h
  obtain ⟨start', s'⟩ := y
  obtain ⟨hop, hstep, rfl⟩ := hcall
  obtain ⟨s₁, t', hstep', href'⟩ := href.step junk (href.has_of_legal hop)
  obtain ⟨rfl, hanswer⟩ := Prod.mk.inj (Option.some.inj (hstep.symm.trans hstep'))
  exact ⟨(m.step c.1).1, Prod.ext rfl hanswer.symm, stamped_call href hs hstep, t', href'⟩

omit [Zero K] [Zero V] in
/-- and so does opening a copy. -/
theorem Stands.opened {x y : Nat × RBTree K V} {c : Copy K V} (h : Stands cmp cap len nodeSize x m)
    (hlen : MemoryList.kHeaderSize < len - kHeaderSize) (hopen : Opened len nodeSize x c y) :
    Stands cmp cap len nodeSize y m := by
  obtain ⟨hs, t, href⟩ := h
  obtain ⟨start', s'⟩ := y
  obtain ⟨hfit, hcopy, hrestore, rfl⟩ := hopen
  obtain ⟨s₁, hrestore', href', hs'⟩ := href.reopen hs hlen hfit hcopy
  obtain rfl := Option.some.inj (hrestore.symm.trans hrestore')
  exact ⟨hs', t, href'⟩

omit [Zero K] [Zero V] in
/-- It holds of a created tree. -/
theorem stands_createFrom (hfit : SumsFit (start + kHeaderSize) (len - kHeaderSize) nodeSize)
    (hc : createFrom start len nodeSize mem nodes = some (some s₀)) :
    Stands cmp s₀.maxSize len nodeSize (start, s₀) BoundedMap.empty := by
  refine ⟨?_, .nil, refines_createFrom hfit hc⟩
  unfold createFrom at hc
  split at hc
  · cases hc
  · obtain ⟨a, ha, hmap⟩ := Option.map_eq_some_iff.mp hc
    obtain ⟨ml, rfl, hs⟩ := Option.map_eq_some_iff.mp hmap
    rw [toSize_start hfit] at ha
    rw [← hs]
    exact MemoryList.stamped_createFrom hfit ha

/-- **A tree that is saved and restored is one bounded map all its life.** Calls, and openings of copies at other
    addresses in any number and order: the answers are those of one map, the state says so of every key, the next
    legal call has an answer, and the next copy is accepted and is the same map again. -/
theorem life_refines (hfit : SumsFit (start + kHeaderSize) (len - kHeaderSize) nodeSize)
    (hlen : MemoryList.kHeaderSize < len - kHeaderSize)
    (hc : createFrom start len nodeSize mem nodes = some (some s₀)) {es : List (Event (Op K V × Answer K V) (Copy K V))}
    {x : Nat × RBTree K V} (hlife : Run (Life (Called cmp junk) (Opened len nodeSize)) (start, s₀) es x) :
    ∃ m : BoundedMap cmp V s₀.maxSize, Run MapCall BoundedMap.empty (calls es) m ∧ MapSpec x.2 m ∧
      (∀ op, Legal cmp x.2 op → (x.2.step cmp junk op).isSome) ∧
      ∀ start' mem' nodes', SumsFit (start' + kHeaderSize) (len - kHeaderSize) nodeSize →
        Copied x.2 x.1 len start' mem' nodes' →
        ∃ s', restoreFrom start' len nodeSize x.2.metaData x.2.ml.header mem' nodes' = some s' ∧ MapSpec s' m := by
  obtain ⟨m, hrun, hs, t, href⟩ := Reopening.simulates hlife (stands_createFrom hfit hc)
    (fun _ _ _ _ h hcall => h.called hcall) (fun _ _ _ _ h hopen => h.opened hlen hopen)
  refine ⟨m, hrun, href.mapSpec, ?_, ?_⟩
  · intro op hop
    obtain ⟨s', t', hstep, -⟩ := href.step junk (href.has_of_legal hop)
    simp [hstep]
  · intro start' mem' nodes' hfit' hcopy
    obtain ⟨s', hrestore, href', -⟩ := href.reopen hs hlen hfit' hcopy
    exact ⟨s', hrestore, href'.mapSpec⟩

end Life

/-- A key is inserted, the buffer is copied from 4096 to 8192 and opened there, and the key is looked up. -/
theorem life_refines_moved : ∃ (s₀ : RBTree Nat Nat) (c : Copy Nat Nat) (x : Nat × RBTree Nat Nat),
    createFrom 4096 144 24 (fun _ => 0) blank = some (some s₀) ∧ c.start = 8192 ∧
      Run (Life (Called natural 0) (Opened 144 24)) (4096, s₀)
        [.call (.insert 1 10, .inserted (some (1, 10)) true), .reopen c, .call (.find 1, .found (some (1, 10)))] x ∧
      ∃ m : BoundedMap natural Nat s₀.maxSize, MapSpec x.2 m := by
  obtain ⟨s₀, hc, hmax⟩ := createFrom_two
  have hfit : SumsFit (4096 + kHeaderSize) (144 - kHeaderSize) 24 := by decide
  have hstands : Stands natural s₀.maxSize 144 24 (4096, s₀) BoundedMap.empty := stands_createFrom hfit hc
  obtain ⟨hs, t, href⟩ := hstands
  rw [hmax] at href
  have hfit' : SumsFit (8192 + kHeaderSize) (144 - kHeaderSize) 24 := by decide
  have hlegal : ∀ op : Op Nat Nat, (∀ k, op ≠ .erase k) → ∀ s : RBTree Nat Nat, Legal natural s op :=
    fun _ hop _ k hk => absurd hk (hop k)
  obtain ⟨s₁, t₁, hinsert, href₁⟩ := href.step 0 fun k (hk : Op.insert 1 10 = .erase k) => nomatch hk
  have hs₁ := stamped_call href hs hinsert
  let c : Copy Nat Nat := ⟨8192, fun a => s₁.ml.mem (a - 4096), s₁.nodes⟩
  have hcopy : Copied s₁ 4096 144 c.start c.mem c.nodes := by
    refine ⟨fun j _ => congrArg s₁.ml.mem ?_, fun _ _ _ => rfl⟩
    show ((8192 + kHeaderSize : Nat) + (j : Int)) - 4096 = (4096 + kHeaderSize : Nat) + (j : Int)
    omega
  obtain ⟨s₂, hrestore, href₂, -⟩ := href₁.reopen hs₁ (by decide) hfit' hcopy
  obtain ⟨s₃, t₃, hfind, -⟩ := href₂.step 0 fun k (hk : Op.find 1 = .erase k) => nomatch hk
  have hlife : Run (Life (Called natural 0) (Opened 144 24)) (4096, s₀)
      [.call (.insert 1 10, .inserted (some (1, 10)) true), .reopen c, .call (.find 1, .found (some (1, 10)))] (8192, s₃) := by
    refine (Run.single (t := (4096, s₁)) ?_).trans ((Run.single (t := (8192, s₂)) ?_).trans (Run.single ?_))
    · exact ⟨hlegal (.insert 1 10) nofun s₀, hinsert, rfl⟩
    · exact ⟨hfit', hcopy, hrestore, rfl⟩
    · exact ⟨hlegal (.find 1) nofun s₂, hfind, rfl⟩
  obtain ⟨m, -, hspec, -⟩ := life_refines hfit (by decide) hc hlife
  exact ⟨s₀, c, (8192, s₃), hc, rfl, hlife, m, hspec⟩

end RBTree
end Snippets
