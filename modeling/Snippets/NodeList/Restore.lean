import Snippets.NodeList.Refinement
import Snippets.MemoryList.Reopen
import Snippets.Lib.Reopening

/-!
# `NodeList.Restore` — a list that is saved and restored

Header, allocator and nodes lie in one buffer and name each other by ids, so `RestoreFrom` over a copy of the buffer, at
any address, gives back the list: a sequence's handles stay good when the process that made them is gone.
-/

namespace Snippets

open Lib

namespace NodeList

open MemoryList (Kept Stamped Holding SumsFit)
open BoundedDeque (Op Answer ids)
open Reopening (Event Life calls)

variable {T : Type}

/-! ## `RestoreFrom` -/

/-- `RestoreFrom` on a buffer that holds the list's `header`, then the allocator's, with the payloads `nodes`; `none` is
    `NULL`. -/
def restoreFrom (start len nodeSize : Nat) (header : Header) (slices : MemoryList.Header) (mem : Mem)
    (nodes : NodeId → Node T) : Option (NodeList T) :=
  if len < kHeaderSize then none
  else if header.magicNumber ≠ kMagicNumber then none
  else (MemoryList.restoreFrom (toSize (start + kHeaderSize)) (len - kHeaderSize) nodeSize slices mem).map fun ml =>
    ⟨header, ml, nodes⟩

/-! ## What the calls keep of the two headers

What `RestoreFrom` looks at is set once, by `CreateFrom`. The calls write links, payloads and sizes. -/

/-- Between two states no call writes a magic number, or what the allocator's header says of the buffer. -/
structure Keeps (s s' : NodeList T) : Prop where
  magic : s'.header.magicNumber = s.header.magicNumber
  slices : Kept s.ml s'.ml

variable {s s' s'' : NodeList T} {e : End} {id : NodeId} {val : T}

/-- Nothing has happened. -/
theorem Keeps.refl (s : NodeList T) : Keeps s s := ⟨rfl, Kept.refl _⟩

/-- One thing after another. -/
theorem Keeps.trans (h₁ : Keeps s s') (h₂ : Keeps s' s'') : Keeps s s'' :=
  ⟨h₂.magic.trans h₁.magic, h₁.slices.trans h₂.slices⟩

@[simp] theorem setEnd_ml (s : NodeList T) (e : End) (id : NodeId) : (s.setEnd e id).ml = s.ml := rfl

@[simp] theorem setEnd_magic (s : NodeList T) (e : End) (id : NodeId) :
    (s.setEnd e id).header.magicNumber = s.header.magicNumber := by
  cases e <;> rfl

@[simp] theorem store_ml (s : NodeList T) (id : NodeId) (change : Node T → Node T) : (s.store id change).ml = s.ml := rfl

@[simp] theorem store_header (s : NodeList T) (id : NodeId) (change : Node T → Node T) :
    (s.store id change).header = s.header := rfl

@[simp] theorem setSize_ml (s : NodeList T) (n : Int) : (s.setSize n).ml = s.ml := rfl

@[simp] theorem setSize_magic (s : NodeList T) (n : Int) : (s.setSize n).header.magicNumber = s.header.magicNumber := rfl

/-- Only nodes, ends and the size are written. -/
theorem Keeps.of_eq (hmagic : s'.header.magicNumber = s.header.magicNumber) (hml : s'.ml = s.ml) : Keeps s s' :=
  ⟨hmagic, by rw [hml]; exact Kept.refl _⟩

/-- The first node of a list. -/
theorem keeps_linkFirst (h : s.linkFirst e id = some s') : Keeps s s' := by
  simp only [linkFirst, Option.bind_eq_bind, Option.bind_eq_some_iff] at h
  obtain ⟨-, -, h⟩ := h
  obtain rfl := Option.some.inj h
  exact .of_eq (by simp) (by simp)

/-- A node beyond the last one at an end. -/
theorem keeps_linkBeyond (h : s.linkBeyond e id = some s') : Keeps s s' := by
  simp only [linkBeyond, Option.bind_eq_bind, Option.bind_eq_some_iff] at h
  obtain ⟨-, -, -, -, h⟩ := h
  obtain rfl := Option.some.inj h
  exact .of_eq (by simp) (by simp)

/-- `Push` at either end. -/
theorem keeps_push {r : NodeList T × NodeId} (h : s.push e val = some r) : Keeps s r.1 := by
  unfold push at h
  split at h
  · obtain rfl := Option.some.inj h
    exact Keeps.refl s
  · simp only [Option.bind_eq_bind, Option.bind_eq_some_iff] at h
    obtain ⟨⟨ml, id⟩, hget, -, -, s₁, hlink, h⟩ := h
    obtain rfl := Option.some.inj h
    have h₁ : Keeps s { s with ml := ml } := ⟨rfl, MemoryList.kept_getSlice hget⟩
    have h₂ : Keeps (({ s with ml := ml } : NodeList T).store id fun n => { n with val := val }) s₁ := by
      unfold link at hlink
      split at hlink
      · exact keeps_linkFirst hlink
      · exact keeps_linkBeyond hlink
    exact ⟨h₂.magic, h₁.slices.trans h₂.slices⟩

/-- `Unlink`. -/
theorem keeps_unlink {r : NodeList T × T} (h : s.unlink id = some r) : Keeps s r.1 := by
  simp only [unlink, Option.bind_eq_bind, Option.bind_eq_some_iff] at h
  obtain ⟨-, -, node, -, prev, -, next, -, ml, hfree, h⟩ := h
  obtain rfl := Option.some.inj h
  -- the neighbours, or the ends, are written first, and then the slice is freed
  split at hfree
  all_goals
    split at hfree
    all_goals
      refine ⟨?_, ?_⟩
      · simp [*]
      · have h₁ := MemoryList.kept_freeSlice hfree
        exact h₁

/-- `erase`. -/
theorem keeps_erase {r : NodeList T × NodeId} (h : s.erase id = some r) : Keeps s r.1 := by
  simp only [erase, Option.bind_eq_bind, Option.bind_eq_some_iff] at h
  obtain ⟨-, -, node, -, ⟨s₁, val⟩, hunlink, h⟩ := h
  obtain rfl := Option.some.inj h
  have h₁ := keeps_unlink hunlink
  exact h₁

/-! ## The life of a list

A run on a list is a sequence of calls, and of copies of the buffer to other addresses that are opened with
`RestoreFrom`. The marks in the two headers are what `RestoreFrom` looks at. -/

section Life

variable {start start' len nodeSize : Nat} {mem mem' : Mem} {nodes nodes' : NodeId → Node T} {s₀ : NodeList T}
  {xs : List (NodeId × T)} {cap : Nat}

/-- The buffer at `start` was made by `CreateFrom`. -/
structure Marked (start len nodeSize : Nat) (s : NodeList T) : Prop where
  magic : s.header.magicNumber = kMagicNumber
  slices : Stamped (start + kHeaderSize) (len - kHeaderSize) nodeSize s.ml

/-- The marks stay. -/
theorem Keeps.marked (h : Keeps s s') (hs : Marked start len nodeSize s) : Marked start len nodeSize s' :=
  ⟨h.magic.trans hs.magic, h.slices.stamped hs.slices⟩

/-- `clear` rewrites the links and leaves the marks. -/
theorem marked_clear (h : Holds s xs) (hs : Marked start len nodeSize s) (hclear : s.clear = some s') :
    Marked start len nodeSize s' := by
  simp only [clear, Option.bind_eq_bind, Option.bind_eq_some_iff] at hclear
  obtain ⟨ml, hml, hclear⟩ := hclear
  obtain rfl := Option.some.inj hclear
  exact ⟨hs.magic, hs.slices.clear h.slices hml⟩

/-- Every call keeps the marks. -/
theorem marked_call (h : Holds s xs) (hs : Marked start len nodeSize s) {op : Op NodeId T} {answer : Answer NodeId T}
    (hstep : s.step op = some (s', answer)) : Marked start len nodeSize s' := by
  cases op with
  | push e val =>
      rw [step_push] at hstep
      obtain ⟨r, hr, heq⟩ := Option.map_eq_some_iff.mp hstep
      obtain ⟨rfl, -⟩ := Prod.mk.inj heq
      exact (keeps_push hr).marked hs
  | pop e =>
      rw [step_pop] at hstep
      obtain ⟨r, hr, heq⟩ := Option.map_eq_some_iff.mp hstep
      obtain ⟨rfl, -⟩ := Prod.mk.inj heq
      simp only [pop, Option.bind_eq_bind, Option.bind_eq_some_iff] at hr
      obtain ⟨-, -, -, -, hr⟩ := hr
      exact (keeps_unlink hr).marked hs
  | peek e =>
      rw [step_peek] at hstep
      obtain ⟨r, -, heq⟩ := Option.map_eq_some_iff.mp hstep
      obtain ⟨rfl, -⟩ := Prod.mk.inj heq
      exact hs
  | unlink id =>
      obtain ⟨r, hr, heq⟩ := Option.map_eq_some_iff.mp hstep
      obtain ⟨rfl, -⟩ := Prod.mk.inj heq
      exact (keeps_unlink hr).marked hs
  | erase id =>
      obtain ⟨r, hr, heq⟩ := Option.map_eq_some_iff.mp hstep
      obtain ⟨rfl, -⟩ := Prod.mk.inj heq
      exact (keeps_erase hr).marked hs
  | size =>
      obtain ⟨r, -, heq⟩ := Option.map_eq_some_iff.mp hstep
      obtain ⟨rfl, -⟩ := Prod.mk.inj heq
      exact hs
  | clear =>
      obtain ⟨r, hr, heq⟩ := Option.map_eq_some_iff.mp hstep
      obtain ⟨rfl, -⟩ := Prod.mk.inj heq
      exact marked_clear h hs hr

/-- At `start'` lies a copy of the list's buffer at `start`. -/
structure Copied (s : NodeList T) (start len start' : Nat) (mem' : Mem) (nodes' : NodeId → Node T) : Prop where
  bytes : ∀ j : Nat, j < len - kHeaderSize →
    mem' ((start' + kHeaderSize : Nat) + j) = s.ml.mem ((start + kHeaderSize : Nat) + j)
  nodes : ∀ i : NodeId, 0 ≤ i → i < s.ml.capacity → nodes' i = s.nodes i

/-- The list on the copied nodes is the same list. -/
theorem Holds.congr {ml' : MemoryList} (h : Holds s xs) (hml : Holding ml' (ids xs))
    (hnodes : ∀ i ∈ ids xs, nodes' i = s.nodes i) : Holds ⟨s.header, ml', nodes'⟩ xs := by
  refine ⟨?_, hml, h.size, ?_⟩
  · intro e
    refine (h.chain e).congr fun i hi => ?_
    have hi' : i ∈ ids xs := (End.perm_order e _).mem_iff.mp hi
    simp [links, hnodes i hi']
  · intro y hy
    have hy' : y.1 ∈ ids xs := List.mem_map_of_mem hy
    simp [hnodes y.1 hy', h.vals y hy]

/-- The start of the allocator's part fits a `size_t`. -/
theorem toSize_start (hfit : SumsFit (start + kHeaderSize) (len - kHeaderSize) nodeSize) :
    toSize (start + kHeaderSize) = start + kHeaderSize := by
  unfold SumsFit at hfit
  rw [toSize_of_range (by omega) (by exact_mod_cast (by omega : start + kHeaderSize < 2 ^ 64))]
  omega

/-- The copy is the same sequence, over an allocator of its own. -/
theorem Holds.reopen (h : Holds s xs) (hs : Marked start len nodeSize s)
    (hlen : MemoryList.kHeaderSize < len - kHeaderSize)
    (hfit : SumsFit (start' + kHeaderSize) (len - kHeaderSize) nodeSize) (hcopy : Copied s start len start' mem' nodes') :
    ∃ s', restoreFrom start' len nodeSize s.header s.ml.header mem' nodes' = some s' ∧ Holds s' xs ∧
      Marked start' len nodeSize s' ∧ s'.capacity = s.capacity := by
  obtain ⟨ml', hrestore, hslices, hs', hcap, -⟩ := h.slices.reopen hs.slices hlen hfit hcopy.bytes
  have heq : restoreFrom start' len nodeSize s.header s.ml.header mem' nodes' = some ⟨s.header, ml', nodes'⟩ := by
    unfold restoreFrom
    rw [if_neg (by omega), if_neg (not_not_intro hs.magic), toSize_start hfit, hrestore]
    rfl
  have hnodes : ∀ i ∈ ids xs, nodes' i = s.nodes i := by
    intro i hi
    refine hcopy.nodes i (h.valid hi) ?_
    obtain ⟨F, W, hpart, hW⟩ := h.slices.lists
    exact (hpart.mem_iff.mp (Or.inr (hW.mem_iff.mpr hi))).2
  exact ⟨⟨s.header, ml', nodes'⟩, heq, h.congr hslices hnodes, ⟨hs.magic, hs'⟩, hcap⟩

/-- A copy of the buffer: where it lies, its bytes and its payloads. -/
structure Copy (T : Type) where
  start : Nat
  mem : Mem
  nodes : NodeId → Node T

/-- A call on the list that lies at an address, with its answer. It is legal for what a walk finds. -/
def Called (x : Nat × NodeList T) (c : Op NodeId T × Answer NodeId T) (y : Nat × NodeList T) : Prop :=
  (∃ xs, x.2.walk .front = some xs ∧ BoundedDeque.Legal xs c.1) ∧ x.2.step c.1 = some (y.2, c.2) ∧ y.1 = x.1

/-- A copy is opened in place of the list. -/
def Opened (len nodeSize : Nat) (x : Nat × NodeList T) (c : Copy T) (y : Nat × NodeList T) : Prop :=
  SumsFit (c.start + kHeaderSize) (len - kHeaderSize) nodeSize ∧ Copied x.2 x.1 len c.start c.mem c.nodes ∧
    restoreFrom c.start len nodeSize x.2.header x.2.ml.header c.mem c.nodes = some y.2 ∧ y.1 = c.start

/-- A list that keeps `xs`, over a buffer that is marked for its place. -/
def Stands (cap len nodeSize : Nat) (x : Nat × NodeList T) (xs : List (NodeId × T)) : Prop :=
  Marked x.1 len nodeSize x.2 ∧ Holds x.2 xs ∧ x.2.capacity = cap

/-- A call, by the refinement of the deque. -/
theorem Stands.called {x y : Nat × NodeList T} {c : Op NodeId T × Answer NodeId T} (h : Stands cap len nodeSize x xs)
    (hcall : Called x c y) : ∃ xs', BoundedDeque.Step kInvalidNodeId cap xs c xs' ∧ Stands cap len nodeSize y xs' := by
  obtain ⟨hs, hholds, rfl⟩ := h
  obtain ⟨start', s'⟩ := y
  obtain ⟨⟨zs, hwalk, hlegal⟩, hstep, rfl⟩ := hcall
  obtain rfl : xs = zs := Option.some.inj ((hholds.walk_eq .front).symm.trans hwalk)
  obtain ⟨s₁, answer, xs', hstep', hspec, hholds', hcap⟩ := hholds.step hlegal
  obtain ⟨rfl, hanswer⟩ := Prod.mk.inj (Option.some.inj (hstep.symm.trans hstep'))
  rw [← hanswer] at hspec
  exact ⟨xs', hspec, marked_call hholds hs hstep, hholds', hcap⟩

/-- A copy is opened, and holds what the list held. -/
theorem Stands.opened {x y : Nat × NodeList T} {c : Copy T} (h : Stands cap len nodeSize x xs)
    (hlen : MemoryList.kHeaderSize < len - kHeaderSize) (hopen : Opened len nodeSize x c y) :
    Stands cap len nodeSize y xs := by
  obtain ⟨hs, hholds, rfl⟩ := h
  obtain ⟨start', s'⟩ := y
  obtain ⟨hfit, hcopy, hrestore, rfl⟩ := hopen
  obtain ⟨s₁, hrestore', hholds', hs', hcap⟩ := hholds.reopen hs hlen hfit hcopy
  obtain rfl := Option.some.inj (hrestore.symm.trans hrestore')
  exact ⟨hs', hholds', hcap⟩

/-- A new list holds nothing. -/
theorem stands_createFrom (hfit : SumsFit (start + kHeaderSize) (len - kHeaderSize) nodeSize)
    (hc : createFrom start len nodeSize mem nodes = some (some s₀)) :
    Stands s₀.capacity len nodeSize (start, s₀) [] := by
  refine ⟨?_, holds_createFrom hfit hc, rfl⟩
  unfold createFrom at hc
  split at hc
  · cases hc
  · obtain ⟨a, ha, hmap⟩ := Option.map_eq_some_iff.mp hc
    obtain ⟨ml, rfl, hs⟩ := Option.map_eq_some_iff.mp hmap
    rw [toSize_start hfit] at ha
    rw [← hs]
    exact ⟨rfl, MemoryList.stamped_createFrom hfit ha⟩

/-- **A list that is saved and restored is one sequence all its life.** Calls, and openings of copies at other
    addresses in any number and order: the answers, handles included, are those of one bounded double-ended sequence,
    both walks show it, no legal call fails, and the next copy is accepted and shows the same sequence. -/
theorem deque_all_its_life (hfit : SumsFit (start + kHeaderSize) (len - kHeaderSize) nodeSize)
    (hlen : MemoryList.kHeaderSize < len - kHeaderSize)
    (hc : createFrom start len nodeSize mem nodes = some (some s₀))
    {es : List (Event (Op NodeId T × Answer NodeId T) (Copy T))} {x : Nat × NodeList T}
    (hlife : Run (Life Called (Opened len nodeSize)) (start, s₀) es x) :
    ∃ xs, Run (BoundedDeque.Step kInvalidNodeId s₀.capacity) [] (calls es) xs ∧ Shows x.2 xs ∧
      (∀ op, BoundedDeque.Legal xs op → (x.2.step op).isSome) ∧
      ∀ start' mem' nodes', SumsFit (start' + kHeaderSize) (len - kHeaderSize) nodeSize →
        Copied x.2 x.1 len start' mem' nodes' →
        ∃ s', restoreFrom start' len nodeSize x.2.header x.2.ml.header mem' nodes' = some s' ∧ Shows s' xs := by
  obtain ⟨xs, hrun, hs, hholds, -⟩ := Reopening.simulates hlife (stands_createFrom hfit hc)
    (fun _ _ _ _ h hcall => h.called hcall) (fun _ _ _ _ h hopen => h.opened hlen hopen)
  refine ⟨xs, hrun, hholds.shows, ?_, ?_⟩
  · intro op hop
    obtain ⟨s', answer, xs', hstep, -⟩ := hholds.step hop
    simp [hstep]
  · intro start' mem' nodes' hfit' hcopy
    obtain ⟨s', hrestore, hholds', -⟩ := hholds.reopen hs hlen hfit' hcopy
    exact ⟨s', hrestore, hholds'.shows⟩

end Life

/-- A value is pushed, the buffer is copied from 4096 to 8192 and opened there, and the value is popped. -/
theorem deque_all_its_life_moved : ∃ (s₀ : NodeList Nat) (i : NodeId) (c : Copy Nat) (x : Nat × NodeList Nat),
    createFrom 4096 120 16 (fun _ => 0) (fun _ => ⟨0, 0, 0⟩) = some (some s₀) ∧ c.start = 8192 ∧
      Run (Life Called (Opened 120 16)) (4096, s₀)
        [.call (.push .back 7, .pushed i), .reopen c, .call (.pop .front, .value 7)] x ∧
      ∃ xs, Shows x.2 xs := by
  obtain ⟨s₀, hc, hcap⟩ := createFrom_two
  have hfit : SumsFit (4096 + kHeaderSize) (120 - kHeaderSize) 16 := by decide
  have hfit' : SumsFit (8192 + kHeaderSize) (120 - kHeaderSize) 16 := by decide
  obtain ⟨hs, hholds, -⟩ := stands_createFrom hfit hc
  have hroom : ([] : List (NodeId × Nat)).length < s₀.capacity := by simp [hcap]
  obtain ⟨s₁, i, hpush, hi, hnew, hholds₁, hcap₁⟩ := hholds.push hroom .back 7
  have hstep₁ : s₀.step (.push .back 7) = some (s₁, .pushed i) := by
    rw [step_push, hpush]
    rfl
  have hs₁ := marked_call hholds hs hstep₁
  let c : Copy Nat := ⟨8192, fun a => s₁.ml.mem (a - 4096), s₁.nodes⟩
  have hcopy : Copied s₁ 4096 120 c.start c.mem c.nodes := by
    refine ⟨fun j _ => congrArg s₁.ml.mem ?_, fun _ _ _ => rfl⟩
    show ((8192 + kHeaderSize : Nat) + (j : Int)) - 4096 = (4096 + kHeaderSize : Nat) + (j : Int)
    omega
  obtain ⟨s₂, hrestore, hholds₂, -⟩ := hholds₁.reopen hs₁ (by decide) hfit' hcopy
  have hholds₂' : Holds s₂ (End.front.push (i, 7) []) := hholds₂
  obtain ⟨s₃, hpop, -⟩ := hholds₂'.pop
  have hstep₃ : s₂.step (.pop .front) = some (s₃, .value 7) := by
    rw [step_pop, hpop]
    rfl
  have hlife : Run (Life Called (Opened 120 16)) (4096, s₀)
      [.call (.push .back 7, .pushed i), .reopen c, .call (.pop .front, .value 7)] (8192, s₃) := by
    refine (Run.single (t := (4096, s₁)) ?_).trans ((Run.single (t := (8192, s₂)) ?_).trans (Run.single ?_))
    · exact ⟨⟨[], hholds.walk_eq .front, trivial⟩, hstep₁, rfl⟩
    · exact ⟨hfit', hcopy, hrestore, rfl⟩
    · exact ⟨⟨[(i, 7)], hholds₂.walk_eq .front, List.cons_ne_nil _ _⟩, hstep₃, rfl⟩
  obtain ⟨xs, -, hshows, -⟩ := deque_all_its_life hfit (by decide) hc hlife
  exact ⟨s₀, i, c, (8192, s₃), hc, rfl, hlife, xs, hshows⟩

end NodeList
end Snippets
