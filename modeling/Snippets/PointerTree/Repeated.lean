import Snippets.PointerTree.Walk
import Mathlib.Data.List.Nodup

/-!
# `PointerTree.Repeated` — keys that are written again

`insert` and `operator[]` are called with any keys. `Entries` is what a map would remember of the calls: for each key
the pair that is stored, with the value written last. `insert` tells an empty tree from a key that it has found by
comparing two cursors, and takes the root's own key for the empty tree: its assert then fails. As long as no call has
the key of the root, the tree is the map (`repeatSpec_iff`).
-/

namespace Snippets

open Lib

namespace PointerTree

open ColorTree (plug Frame)

variable {K V : Type} {cmp : Comparator K} {s s' : PointerTree K V} {t : ColorTree (Elem K V)} {x : Elem K V} {k : K}
  {zero : V}

/-! ## Calls

The calls that can write a pair, with what they return. -/

/-- `insert` of a pair, `operator[]` by itself, and `operator[]` with a store through its result. -/
inductive Op (K V : Type)
  | insert (k : K) (v : V)
  | index (k : K)
  | assign (k : K) (v : V)

/-- The key of a call. -/
def Op.key : Op K V → K
  | insert k _ => k
  | index k => k
  | assign k _ => k

/-- The value that is in place after the call. `operator[]` first stores `mapped_type()`. -/
def Op.val (zero : V) : Op K V → V
  | insert _ v => v
  | index _ => zero
  | assign _ v => v

/-- The pair an iterator points to; `end()` points to none. -/
def entry (s : PointerTree K V) (q : Ptr) : Option (K × V) := (s.deref q).map RBNode.v

/-- What `insert` returned: the pair behind its iterator, and whether it is new. -/
inductive Answer (K V : Type)
  | inserted (pair : Option (K × V)) (new : Bool)
  | referred (pair : Option (K × V))
  | assigned
deriving DecidableEq

/-- One call of the tree, -/
def step (cmp : Comparator K) (zero : V) (s : PointerTree K V) : Op K V → Option (PointerTree K V × Answer K V)
  | .insert k v => (s.insert cmp (k, v)).map fun r => (r.1, .inserted (r.1.entry r.2.1) r.2.2)
  | .index k => (s.index cmp zero k).map fun r => (r.1, .referred (r.1.entry r.2))
  | .assign k v => (s.assign cmp zero k v).map fun s => (s, .assigned)

/-- and a list of them. -/
def exec (cmp : Comparator K) (zero : V) : PointerTree K V → List (Op K V) → Option (PointerTree K V × List (Answer K V))
  | s, [] => some (s, [])
  | s, op :: ops =>
      match s.step cmp zero op with
      | none => none
      | some (s, answer) => (exec cmp zero s ops).map fun r => (r.1, answer :: r.2)

/-! ## What is written

What a map would keep of the calls, with its size. -/

/-- The pairs of a map, by key, and their number. -/
structure Entries (K V : Type) where
  pair : K → Option (K × V)
  count : Nat

namespace Entries

/-- Nothing written yet. -/
def empty : Entries K V := ⟨fun _ => none, 0⟩

/-- Write a value. The first key that was written stays. -/
def write (cmp : Comparator K) (m : Entries K V) (k : K) (v : V) : Entries K V where
  pair j := if cmp.equiv k j then some (((m.pair k).map Prod.fst).getD k, v) else m.pair j
  count := if (m.pair k).isSome then m.count else m.count + 1

def step (cmp : Comparator K) (zero : V) (m : Entries K V) (op : Op K V) : Entries K V × Answer K V :=
  let m' := m.write cmp op.key (op.val zero)
  (m', match op with
    | .insert k _ => .inserted (m'.pair k) (m.pair k).isNone
    | .index k => .referred (m'.pair k)
    | .assign _ _ => .assigned)

def exec (cmp : Comparator K) (zero : V) : Entries K V → List (Op K V) → Entries K V × List (Answer K V)
  | m, [] => (m, [])
  | m, op :: ops =>
      let r := exec cmp zero (m.step cmp zero op).1 ops
      (r.1, (m.step cmp zero op).2 :: r.2)

end Entries

/-! ## One call

The tree's pairs are the entries. A call with a new key adds one, a call with an old key stores the value. -/

/-- The tree holds the pairs of the map. -/
structure Refines (cmp : Comparator K) (s : PointerTree K V) (m : Entries K V) (t : ColorTree (Elem K V)) : Prop where
  owned : Owned cmp s t
  pairs : ∀ k p, m.pair k = some p ↔ ∃ x ∈ t.toList, x.2 = p ∧ cmp.equiv k p.1 = true
  count : m.count = t.toList.length

variable {m : Entries K V}

/-- A key with an entry is in the tree, -/
theorem Refines.present (h : Refines cmp s m t) (hk : m.pair k ≠ none) :
    ∃ x ∈ t.toList, cmp.equiv k (keyOf x) = true ∧ m.pair k = some x.2 := by
  obtain ⟨p, hp⟩ := Option.ne_none_iff_exists'.mp hk
  obtain ⟨x, hx, rfl, heq⟩ := (h.pairs k p).mp hp
  exact ⟨x, hx, heq, hp⟩

/-- and one without is not. -/
theorem Refines.absent (h : Refines cmp s m t) (hk : m.pair k = none) : ∀ x ∈ t.toList, cmp.equiv k (keyOf x) = false := by
  intro x hx
  rw [Bool.eq_false_iff]
  intro heq
  have hp := (h.pairs k x.2).mpr ⟨x, hx, rfl, heq⟩
  rw [hk] at hp
  cases hp

/-- A new element is a new pair. -/
theorem Refines.add {t' : ColorTree (Elem K V)} {as bs : List (Elem K V)} {a : Nat} {v : V} (h : Refines cmp s m t)
    (hk : m.pair k = none) (ho : Owned cmp s' t') (hlist : t.toList = as ++ bs)
    (hlist' : t'.toList = as ++ (a, (k, v)) :: bs) : Refines cmp s' (m.write cmp k v) t' := by
  have hmem : ∀ x, x ∈ t'.toList ↔ x = (a, (k, v)) ∨ x ∈ t.toList := by
    intro x
    rw [hlist, hlist']
    simp only [List.mem_append, List.mem_cons]
    tauto
  refine ⟨ho, ?_, ?_⟩
  -- an entry is the new pair or an old one
  · intro j p
    show (if cmp.equiv k j then some (((m.pair k).map Prod.fst).getD k, v) else m.pair j) = some p ↔ _
    by_cases hkj : cmp.equiv k j = true
    · rw [if_pos hkj, hk]
      constructor
      · intro hp
        obtain rfl := Option.some.inj hp
        exact ⟨(a, (k, v)), (hmem _).mpr (Or.inl rfl), rfl, Comparator.equiv_symm hkj⟩
      · rintro ⟨x, hx, rfl, heq⟩
        rcases (hmem x).mp hx with rfl | hx
        · rfl
        · have hkx : cmp.equiv k (keyOf x) = true := Comparator.equiv_trans hkj heq
          rw [h.absent hk x hx] at hkx
          cases hkx
    · rw [if_neg hkj, h.pairs j p]
      constructor
      · rintro ⟨x, hx, hp, heq⟩
        exact ⟨x, (hmem x).mpr (Or.inr hx), hp, heq⟩
      · rintro ⟨x, hx, rfl, heq⟩
        rcases (hmem x).mp hx with rfl | hx
        · exact absurd (Comparator.equiv_symm heq) hkj
        · exact ⟨x, hx, rfl, heq⟩
  · show (if (m.pair k).isSome then m.count else m.count + 1) = _
    rw [hk, hlist', h.count, hlist]
    simp
    omega

/-- Another value in an element is another value for its key. -/
theorem Refines.set {t' : ColorTree (Elem K V)} {as bs : List (Elem K V)} {v : V} (h : Refines cmp s m t)
    (hx : cmp.equiv k (keyOf x) = true) (ho : Owned cmp s' t') (hlist : t.toList = as ++ x :: bs)
    (hlist' : t'.toList = as ++ (x.1, (x.2.1, v)) :: bs) : Refines cmp s' (m.write cmp k v) t' := by
  have hxt : x ∈ t.toList := by
    rw [hlist]
    simp
  have hmk : m.pair k = some x.2 := (h.pairs k x.2).mpr ⟨x, hxt, rfl, hx⟩
  -- no other element has the key
  have hold : ∀ y ∈ as ++ bs, cmp.equiv k (keyOf y) = false := by
    intro y hy
    rw [Bool.eq_false_iff]
    intro hky
    have hyt : y ∈ t.toList := by
      rw [hlist]
      rcases List.mem_append.mp hy with hy | hy
      · exact List.mem_append_left _ hy
      · exact List.mem_append_right _ (List.mem_cons_of_mem _ hy)
    obtain rfl := h.owned.ordered.eq_of_equiv hxt hyt (Comparator.equiv_trans (Comparator.equiv_symm hx) hky)
    have hnd := h.owned.ordered
    rw [hlist] at hnd
    have hself : cmp.less (keyOf x) (keyOf x) = true := by
      obtain ⟨-, h₂, h₃⟩ := List.pairwise_append.mp hnd
      rcases List.mem_append.mp hy with hy | hy
      · exact h₃ x hy x List.mem_cons_self
      · exact (List.pairwise_cons.mp h₂).1 x hy
    rw [cmp.irrefl] at hself
    cases hself
  have hmem : ∀ y, y ∈ t'.toList ↔ y = (x.1, (x.2.1, v)) ∨ y ∈ as ++ bs := by
    intro y
    rw [hlist']
    simp only [List.mem_append, List.mem_cons]
    tauto
  refine ⟨ho, ?_, ?_⟩
  -- an entry is the pair with its new value or an old one
  · intro j p
    show (if cmp.equiv k j then some (((m.pair k).map Prod.fst).getD k, v) else m.pair j) = some p ↔ _
    by_cases hkj : cmp.equiv k j = true
    · rw [if_pos hkj, hmk]
      show some (x.2.1, v) = some p ↔ _
      constructor
      · intro hp
        obtain rfl := Option.some.inj hp
        exact ⟨_, (hmem _).mpr (Or.inl rfl), rfl, Comparator.equiv_trans (Comparator.equiv_symm hkj) hx⟩
      · rintro ⟨y, hy, rfl, heq⟩
        rcases (hmem y).mp hy with rfl | hy
        · rfl
        · have hky : cmp.equiv k (keyOf y) = true := Comparator.equiv_trans hkj heq
          rw [hold y hy] at hky
          cases hky
    · rw [if_neg hkj, h.pairs j p]
      constructor
      · rintro ⟨y, hy, rfl, heq⟩
        rw [hlist] at hy
        have hne : y ≠ x := by
          rintro rfl
          exact hkj (Comparator.equiv_trans hx (Comparator.equiv_symm heq))
        refine ⟨y, (hmem y).mpr (Or.inr ?_), rfl, heq⟩
        rcases List.mem_append.mp hy with hy | hy
        · exact List.mem_append_left _ hy
        · exact List.mem_append_right _ ((List.mem_cons.mp hy).resolve_left hne)
      · rintro ⟨y, hy, rfl, heq⟩
        rcases (hmem y).mp hy with rfl | hy
        · exact absurd (Comparator.equiv_trans hx (Comparator.equiv_symm heq)) hkj
        · refine ⟨y, ?_, rfl, heq⟩
          rw [hlist]
          rcases List.mem_append.mp hy with hy | hy
          · exact List.mem_append_left _ hy
          · exact List.mem_append_right _ (List.mem_cons_of_mem _ hy)
  · show (if (m.pair k).isSome then m.count else m.count + 1) = _
    rw [hmk, hlist', h.count, hlist]
    simp

/-- Is this the key of the root? -/
def atRoot (cmp : Comparator K) (s : PointerTree K V) (k : K) : Bool :=
  (s.deref s.root).any fun n => cmp.equiv k n.v.1

theorem Owned.atRoot_iff (h : Owned cmp s t) (hx : x ∈ t.toList) (heq : cmp.equiv k (keyOf x) = true) :
    s.atRoot cmp k = true ↔ rootPtr t = some x.1 := by
  unfold atRoot
  rw [h.held.root]
  cases t with
  | nil => cases hx
  | node c l y r =>
      have hy : s.deref (rootPtr (.node c l y r)) = some ⟨y.2, none, rootPtr l, rootPtr r, c⟩ := h.held.rep.1
      rw [hy]
      show cmp.equiv k (keyOf y) = true ↔ some y.1 = some x.1
      have hyt : y ∈ (ColorTree.node c l y r).toList := by simp
      constructor
      · intro hky
        obtain rfl := h.ordered.eq_of_equiv hx hyt (Comparator.equiv_trans (Comparator.equiv_symm heq) hky)
        rfl
      · intro hid
        -- elements with one address are one element
        have hinj : x = y := List.inj_on_of_nodup_map h.held.nodup hx hyt (Option.some.inj hid).symm
        rw [← hinj]
        exact heq

/-- The pair of a node. -/
theorem Owned.entry_eq (h : Owned cmp s t) (hx : x ∈ t.toList) : s.entry (some x.1) = some x.2 := by
  obtain ⟨as, bs, hlist⟩ := List.append_of_mem hx
  obtain ⟨fs, c, l, r, rfl, -, -⟩ := ColorTree.exists_plug hlist
  have hfocus : Held s (plug fs (.node c l x r)) := h.held
  unfold entry
  rw [deref_eq hfocus.focus.2.1]
  rfl

/-- **`insert` of any key that is not the root's.** -/
theorem Refines.insert (h : Refines cmp s m t) (hroot : s.atRoot cmp k = false) (v : V) :
    ∃ s' t' x, s.insert cmp (k, v) = some (s', some x.1, (m.pair k).isNone) ∧ Refines cmp s' (m.write cmp k v) t' ∧
      x ∈ t'.toList ∧ cmp.equiv k (keyOf x) = true ∧ (m.pair k ≠ none → s.find cmp k = some (some x.1)) := by
  by_cases hk : m.pair k = none
  · obtain ⟨s', t', as, bs, hins, ho, hlist, hlist'⟩ := h.owned.insert_new (h.absent hk) v
    refine ⟨s', t', (s.heap.next, (k, v)), ?_, h.add hk ho hlist hlist', ?_, Comparator.equiv_refl k, ?_⟩
    · rw [hins, hk]
      rfl
    · rw [hlist']
      simp
    · exact fun hne => absurd hk hne
  · obtain ⟨x, hx, heq, hmk⟩ := h.present hk
    have hbelow : rootPtr t ≠ some x.1 := by
      intro hat
      rw [(h.owned.atRoot_iff hx heq).mpr hat] at hroot
      cases hroot
    obtain ⟨s', t', as, bs, hins, ho, hlist, hlist', -⟩ := h.owned.insert_present hx heq hbelow v
    refine ⟨s', t', (x.1, (x.2.1, v)), ?_, h.set heq ho hlist hlist', ?_, heq, ?_⟩
    · rw [hins, hmk]
      rfl
    · rw [hlist']
      simp
    · have hfind := h.owned.find_present hx heq
      exact fun _ => hfind

/-- `insert` of the root's key has no result. -/
theorem Refines.insert_root (h : Refines cmp s m t) (hroot : s.atRoot cmp k = true) (v : V) : s.insert cmp (k, v) = none := by
  cases t with
  | nil =>
      unfold atRoot at hroot
      rw [h.owned.held.root] at hroot
      cases hroot
  | node c l y r =>
      have hy : s.deref s.root = some ⟨y.2, none, rootPtr l, rootPtr r, c⟩ := by
        rw [h.owned.held.root]
        exact h.owned.held.rep.1
      have heq : cmp.equiv k (keyOf y) = true := by
        unfold atRoot at hroot
        rw [hy] at hroot
        exact hroot
      exact h.owned.insert_root (by simp) heq rfl v

/-- The entry of a key is the pair in the tree. -/
theorem Refines.pair_eq (h : Refines cmp s m t) (hx : x ∈ t.toList) (heq : cmp.equiv k (keyOf x) = true) :
    m.pair k = some x.2 := (h.pairs k x.2).mpr ⟨x, hx, rfl, heq⟩

/-- The value written last counts. -/
theorem Entries.write_write (m : Entries K V) (k : K) (u v : V) : (m.write cmp k u).write cmp k v = m.write cmp k v := by
  have hself : (if cmp.equiv k k = true then some (((m.pair k).map Prod.fst).getD k, u) else m.pair k) =
      some (((m.pair k).map Prod.fst).getD k, u) := if_pos (Comparator.equiv_refl k)
  unfold Entries.write
  simp only [Entries.mk.injEq]
  constructor
  · funext j
    by_cases hkj : cmp.equiv k j = true
    · rw [if_pos hkj, if_pos hkj, hself]
      rfl
    · rw [if_neg hkj, if_neg hkj, if_neg hkj]
  · rw [hself]
    rfl

/-- **One call**: the tree does what the map does, exactly when the key is not the root's. -/
theorem Refines.step (h : Refines cmp s m t) (zero : V) (op : Op K V) (hroot : s.atRoot cmp op.key = false) :
    ∃ s' t', s.step cmp zero op = some (s', (m.step cmp zero op).2) ∧ Refines cmp s' (m.step cmp zero op).1 t' := by
  cases op with
  | insert k v =>
      have hk : s.atRoot cmp k = false := hroot
      obtain ⟨s', t', x, hins, h', hx, heq, -⟩ := h.insert hk v
      refine ⟨s', t', ?_, h'⟩
      simp only [PointerTree.step, hins, Option.map_some, h'.owned.entry_eq hx, ← h'.pair_eq hx heq]
      rfl
  | index k =>
      have hk : s.atRoot cmp k = false := hroot
      obtain ⟨s', t', x, hins, h', hx, heq, -⟩ := h.insert hk zero
      refine ⟨s', t', ?_, h'⟩
      have hentry := h'.owned.entry_eq hx
      obtain ⟨n, hn, -⟩ := Option.map_eq_some_iff.mp hentry
      simp only [PointerTree.step, index, hins, Option.bind_eq_bind, Option.bind_some, hn, Option.pure_def, Option.map_some,
        hentry, ← h'.pair_eq hx heq]
      rfl
  | assign k v =>
      have hk : s.atRoot cmp k = false := hroot
      obtain ⟨s₁, t₁, x, hins, h₁, hx, heq, -⟩ := h.insert hk zero
      obtain ⟨n, hn, -⟩ := Option.map_eq_some_iff.mp (h₁.owned.entry_eq hx)
      obtain ⟨s', t', as, bs, hwrite, ho, hlist, hlist', -⟩ := h₁.owned.writeValue hx v
      have h' := h₁.set heq ho hlist hlist'
      rw [Entries.write_write] at h'
      refine ⟨s', t', ?_, h'⟩
      simp only [PointerTree.step, assign, index, hins, Option.bind_eq_bind, Option.bind_some, hn, Option.pure_def, hwrite,
        Option.map_some]
      rfl

/-- A call with the root's key fails its assert, since the descent of `insert` cannot tell the root from an empty
    tree. -/
theorem Refines.step_root (h : Refines cmp s m t) (zero : V) (op : Op K V) (hroot : s.atRoot cmp op.key = true) :
    s.step cmp zero op = none := by
  have hnone := h.insert_root hroot
  cases op with
  | insert k v =>
      have hins : s.insert cmp (k, v) = none := hnone v
      simp only [PointerTree.step, hins, Option.map_none]
  | index k =>
      have hins : s.insert cmp (k, zero) = none := hnone zero
      simp only [PointerTree.step, index, hins, Option.bind_eq_bind, Option.bind_none, Option.map_none]
  | assign k v =>
      have hins : s.insert cmp (k, zero) = none := hnone zero
      simp only [PointerTree.step, assign, index, hins, Option.bind_eq_bind, Option.bind_none, Option.map_none]

/-! ## Runs

As long as no call has the key of the root, the answers are those of the entries. -/

/-- No call has the key that is at the root when it is made. -/
def AvoidsRoot (cmp : Comparator K) (zero : V) : PointerTree K V → List (Op K V) → Prop
  | _, [] => True
  | s, op :: ops => s.atRoot cmp op.key = false ∧ ∀ s' answer, s.step cmp zero op = some (s', answer) →
      AvoidsRoot cmp zero s' ops

/-- A list of calls, by induction. -/
theorem Refines.exec {ops : List (Op K V)} (h : Refines cmp s m t) (hops : AvoidsRoot cmp zero s ops) :
    ∃ s' t', s.exec cmp zero ops = some (s', (m.exec cmp zero ops).2) ∧ Refines cmp s' (m.exec cmp zero ops).1 t' := by
  induction ops generalizing s m t with
  | nil => exact ⟨s, t, rfl, h⟩
  | cons op ops ih =>
      obtain ⟨hroot, hrest⟩ := hops
      obtain ⟨s₁, t₁, hstep, h₁⟩ := h.step zero op hroot
      obtain ⟨s', t', hexec, h'⟩ := ih h₁ (hrest s₁ _ hstep)
      refine ⟨s', t', ?_, h'⟩
      simp only [PointerTree.exec, hstep, hexec, Option.map_some, Entries.exec]

/-- A run that has a result has met no root key. -/
theorem Refines.avoidsRoot {ops : List (Op K V)} (h : Refines cmp s m t) (hexec : s.exec cmp zero ops ≠ none) :
    AvoidsRoot cmp zero s ops := by
  induction ops generalizing s m t with
  | nil => trivial
  | cons op ops ih =>
      have hroot : s.atRoot cmp op.key = false := by
        rw [Bool.eq_false_iff]
        intro hat
        apply hexec
        simp only [PointerTree.exec, h.step_root zero op hat]
      refine ⟨hroot, ?_⟩
      intro s' answer hstep
      obtain ⟨s₁, t₁, hstep₁, h₁⟩ := h.step zero op hroot
      rw [hstep] at hstep₁
      obtain ⟨rfl, -⟩ := Prod.mk.inj (Option.some.inj hstep₁)
      apply ih h₁
      intro hnone
      apply hexec
      simp only [PointerTree.exec, hstep, hnone, Option.map_none]

/-- What a state shows of the map: the pairs, their number, and what `insert` of a present key does. -/
structure Shows (cmp : Comparator K) (s : PointerTree K V) (m : Entries K V) : Prop where
  find : ∀ k, ∃ q, s.find cmp k = some q ∧ s.entry q = m.pair k
  size : s.size = m.count
  present : ∀ k v, m.pair k ≠ none → s.atRoot cmp k = false → ∃ s' q, s.find cmp k = some q ∧ q ≠ none ∧
    s.insert cmp (k, v) = some (s', q, false) ∧ s'.size = s.size ∧
    ∀ j, cmp.equiv k j = false → ∃ q', s'.find cmp j = some q' ∧ s'.entry q' = m.pair j

/-- A lookup finds the entry. -/
theorem Refines.find (h : Refines cmp s m t) (k : K) : ∃ q, s.find cmp k = some q ∧ s.entry q = m.pair k := by
  by_cases hk : m.pair k = none
  · exact ⟨none, h.owned.find_absent (h.absent hk), hk.symm⟩
  · obtain ⟨x, hx, heq, hmk⟩ := h.present hk
    exact ⟨some x.1, h.owned.find_present hx heq, (h.owned.entry_eq hx).trans hmk.symm⟩

/-- What the tree shows. -/
theorem Refines.shows (h : Refines cmp s m t) : Shows cmp s m := by
  refine ⟨h.find, h.owned.size.trans h.count.symm, ?_⟩
  intro k v hk hroot
  obtain ⟨s', t', x, hins, h', -, -, hfind⟩ := h.insert hroot v
  obtain ⟨p, hp⟩ := Option.ne_none_iff_exists'.mp hk
  have hwrite : (m.write cmp k v).count = m.count := by
    unfold Entries.write
    rw [hp]
    rfl
  refine ⟨s', some x.1, hfind hk, by simp, ?_, ?_, ?_⟩
  · rw [hins, hp]
    rfl
  · rw [h'.owned.size, ← h'.count, hwrite, h.count, h.owned.size]
  · intro j hj
    obtain ⟨q, hq, hentry⟩ := h'.find j
    refine ⟨q, hq, hentry.trans ?_⟩
    show (if cmp.equiv k j then _ else m.pair j) = m.pair j
    rw [hj]
    rfl

/-- The empty tree has no entries. -/
theorem refines_empty : Refines cmp (empty : PointerTree K V) Entries.empty .nil := by
  refine ⟨owned_empty, ?_, rfl⟩
  intro k p
  constructor
  · intro hp
    cases hp
  · rintro ⟨x, hx, -⟩
    cases hx

/-- The run gives the answers of the map, and ends in a state that shows it. -/
def RepeatSpec (cmp : Comparator K) (zero : V) (ops : List (Op K V)) : Prop :=
  ∃ s, (empty : PointerTree K V).exec cmp zero ops = some (s, ((Entries.empty : Entries K V).exec cmp zero ops).2) ∧
    Shows cmp s ((Entries.empty : Entries K V).exec cmp zero ops).1

/-- **Keys may be written again, except the root's.** -/
theorem repeatSpec_iff (cmp : Comparator K) (zero : V) (ops : List (Op K V)) :
    RepeatSpec cmp zero ops ↔ AvoidsRoot cmp zero empty ops := by
  constructor
  · rintro ⟨s, hexec, -⟩
    apply refines_empty.avoidsRoot
    rw [hexec]
    exact fun h => nomatch h
  · intro hops
    obtain ⟨s, t, hexec, h⟩ := refines_empty.exec hops
    exact ⟨s, hexec, h.shows⟩

/-- **The key of the only node, inserted again.** -/
theorem not_repeatSpec_twice : ¬ RepeatSpec Comparator.nat 0 [.insert 1 10, .insert 1 11] := by
  rintro ⟨s, hexec, -⟩
  have hnone : ((empty : PointerTree Nat Nat).exec Comparator.nat 0 [.insert 1 10, .insert 1 11]).isNone = true := by
    decide +kernel
  rw [hexec] at hnone
  cases hnone

end PointerTree
end Snippets
