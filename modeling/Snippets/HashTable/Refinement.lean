import Snippets.HashTable.Model
import Mathlib.Data.List.Perm.Subperm
import Mathlib.Data.List.Nodup

/-!
# `HashTable.Refinement` — the chains of a table are a finite map

Every bucket has a chain of nodes, and a node is in the chain of its own key's bucket (`Chained`). No two nodes have the
same key, so the first node that a search meets is the only one. `insert_unique` puts a node before a chain and `erase`
takes one out of it, from the front or from behind another node; the nodes themselves keep their values.
-/

namespace Snippets

open Lib

namespace HashTable

variable {K V : Type} {tr : HashTraits K V} {t : HashTable V} {k : K} {v : V} {p h : Nat} {is pre suf : List Nat} {fuel : Nat}

/-- The link of a node. -/
def nextOf (t : HashTable V) (p : Nat) : Nat :=
  match t.heap p with
  | some node => node.next
  | none => 0

/-- The node has the key. -/
def matchesKey (tr : HashTraits K V) (t : HashTable V) (k : K) (p : Nat) : Bool :=
  match t.value p with
  | some v => tr.keyEqual k (tr.keyOfValue v)
  | none => false

/-- **The chains of a table.** -/
structure Chained (tr : HashTraits K V) (t : HashTable V) (cs : Nat → List Nat) : Prop where
  threads : ∀ b, Thread t.nextOf 0 (t.buckets b) (cs b)
  owner : ∀ b, ∀ p ∈ cs b, ∃ node, t.heap p = some node ∧ bucketIndex tr (tr.keyOfValue node.v) = b
  unique : ∀ b, ∀ p ∈ cs b, ∀ q ∈ cs b, ∀ v w, t.value p = some v → t.value q = some w →
    tr.keyEqual (tr.keyOfValue v) (tr.keyOfValue w) = true → p = q
  given : ∀ p, t.fresh ≤ p → t.heap p = none
  null : t.heap 0 = none
  fresh_pos : 0 < t.fresh

/-- The node under a key. -/
def nodeOf (tr : HashTraits K V) (t : HashTable V) (cs : Nat → List Nat) (k : K) : Option Nat :=
  (cs (bucketIndex tr k)).find? (matchesKey tr t k)

/-- The map that the chains are. -/
def contents (tr : HashTraits K V) (t : HashTable V) (cs : Nat → List Nat) : KeyMap K V :=
  fun k => (nodeOf tr t cs k).bind t.value

variable {cs : Nat → List Nat}

/-- The link of a node, -/
theorem nextOf_eq {node : HashTableNode V} (h : t.heap p = some node) : t.nextOf p = node.next := by
  unfold nextOf
  rw [h]

/-- its value, -/
theorem value_eq {node : HashTableNode V} (h : t.heap p = some node) : t.value p = some node.v := by
  unfold value
  rw [h]
  rfl

/-- and whether it has the key. -/
theorem matchesKey_eq {node : HashTableNode V} (h : t.heap p = some node) :
    matchesKey tr t k p = tr.keyEqual k (tr.keyOfValue node.v) := by
  unfold matchesKey
  rw [value_eq h]

/-- A chain is shorter than the addresses that were given. -/
theorem Chained.length_lt (hc : Chained tr t cs) (b : Nat) : (cs b).length < t.fresh := by
  have hsub : cs b ⊆ List.range' 1 (t.fresh - 1) := by
    intro p hp
    have hne := (hc.threads b).ne_nil p hp
    obtain ⟨node, hnode, -⟩ := hc.owner b p hp
    have hlt : p < t.fresh := by
      by_contra hge
      rw [hc.given p (Nat.le_of_not_lt hge)] at hnode
      cases hnode
    rw [List.mem_range'_1]
    omega
  have hlen := ((hc.threads b).nodup.subperm hsub).length_le
  rw [List.length_range'] at hlen
  have := hc.fresh_pos
  omega

/-! ## Searching

A search goes along one chain, so it finds what stands first there with an equal key. -/

/-- The loop over a chain gives the first node of it that has the key, or null at the end. -/
theorem seek_eq (ht : Thread t.nextOf 0 h is) (hnodes : ∀ p ∈ is, ∃ node, t.heap p = some node) (hfuel : is.length < fuel) :
    t.seek tr k fuel h = some ((is.find? (matchesKey tr t k)).getD 0) := by
  -- by induction on the chain
  induction is generalizing h fuel with
  | nil =>
      obtain ⟨fuel, rfl⟩ : ∃ f, fuel = f + 1 := ⟨fuel - 1, by omega⟩
      have hnull : h = 0 := ht
      rw [seek, if_pos hnull]
      rfl
  | cons p is ih =>
      obtain ⟨rfl, hne, hrest⟩ := ht
      rw [List.length_cons] at hfuel
      obtain ⟨fuel, rfl⟩ : ∃ f, fuel = f + 1 := ⟨fuel - 1, by omega⟩
      obtain ⟨node, hnode⟩ := hnodes h List.mem_cons_self
      rw [nextOf_eq hnode] at hrest
      rw [seek, if_neg hne]
      simp only [hnode, Option.bind_eq_bind, Option.bind_some]
      by_cases hk : tr.keyEqual k (tr.keyOfValue node.v) = true
      · rw [if_pos hk, List.find?_cons_of_pos (by rw [matchesKey_eq hnode, hk])]
        rfl
      · rw [if_neg hk, List.find?_cons_of_neg (by rw [matchesKey_eq hnode]; exact hk)]
        exact ih hrest (fun q hq => hnodes q (List.mem_cons_of_mem _ hq)) (by omega)

/-- **`Search`** finds the node under a key. -/
theorem search_eq (hc : Chained tr t cs) (k : K) :
    t.search tr (bucketIndex tr k) k = some ((nodeOf tr t cs k).getD 0) := by
  apply seek_eq (hc.threads _)
  · intro p hp
    obtain ⟨node, hnode, -⟩ := hc.owner _ p hp
    exact ⟨node, hnode⟩
  · exact hc.length_lt _

/-- The node of a key is in its bucket's chain and has the key. -/
theorem nodeOf_some (h : nodeOf tr t cs k = some p) : p ∈ cs (bucketIndex tr k) ∧ matchesKey tr t k p = true :=
  ⟨List.mem_of_find?_eq_some h, List.find?_some h⟩

/-- A chain has no null in it. -/
theorem Chained.ne_null (hc : Chained tr t cs) {b : Nat} (hp : p ∈ cs b) : p ≠ 0 := (hc.threads b).ne_nil p hp

/-- A key without a node has no value. -/
theorem contents_none (h : nodeOf tr t cs k = none) : contents tr t cs k = none := by
  unfold contents
  rw [h]
  rfl

/-- The node under a key has a value with the key. -/
theorem contents_some (hc : Chained tr t cs) (h : nodeOf tr t cs k = some p) :
    ∃ node, t.heap p = some node ∧ contents tr t cs k = some node.v ∧ tr.keyEqual k (tr.keyOfValue node.v) = true := by
  obtain ⟨hmem, hmatch⟩ := nodeOf_some h
  obtain ⟨node, hnode, -⟩ := hc.owner _ p hmem
  rw [matchesKey_eq hnode] at hmatch
  refine ⟨node, hnode, ?_, hmatch⟩
  unfold contents
  rw [h]
  exact value_eq hnode

/-- The value of a key is that of its node. -/
theorem contents_find (hc : Chained tr t cs) (k : K) : contents tr t cs k = t.value ((nodeOf tr t cs k).getD 0) := by
  unfold contents
  cases nodeOf tr t cs k with
  | none =>
      unfold value
      rw [Option.getD_none, hc.null]
      rfl
  | some p => rfl

/-- No node has a key that is not found. -/
theorem no_node (hc : Chained tr t cs) (hlaw : tr.Lawful) (h : nodeOf tr t cs k = none) {b : Nat} (hp : p ∈ cs b)
    (hv : t.value p = some v) : tr.keyEqual k (tr.keyOfValue v) = false := by
  rw [Bool.eq_false_iff]
  intro heq
  obtain ⟨node, hnode, hb⟩ := hc.owner b p hp
  rw [value_eq hnode, Option.some.injEq] at hv
  have hbk : bucketIndex tr k = b := by
    rw [← hb, hv]
    unfold bucketIndex
    rw [hlaw.hash heq]
  have hmatch := List.find?_eq_none.mp h p (hbk ▸ hp)
  rw [matchesKey_eq hnode, hv] at hmatch
  exact hmatch heq

/-- **What the map has** under a key. -/
theorem contents_iff (hlaw : tr.Lawful) (hc : Chained tr t cs) : contents tr t cs k = some v ↔
    ∃ b, ∃ p ∈ cs b, t.value p = some v ∧ tr.keyEqual k (tr.keyOfValue v) = true := by
  constructor
  · intro h
    obtain ⟨p, hp, hv⟩ := Option.bind_eq_some_iff.mp h
    obtain ⟨hmem, hmatch⟩ := nodeOf_some hp
    obtain ⟨node, hnode, -⟩ := hc.owner _ p hmem
    rw [matchesKey_eq hnode] at hmatch
    rw [value_eq hnode, Option.some.injEq] at hv
    exact ⟨_, p, hmem, hv ▸ value_eq hnode, hv ▸ hmatch⟩
  · rintro ⟨b, p, hp, hv, heq⟩
    cases hq : nodeOf tr t cs k with
    | none =>
        rw [no_node hc hlaw hq hp hv] at heq
        cases heq
    | some q =>
        -- the node that is found has the same key, so it is this one
        obtain ⟨hmem, hmatch⟩ := nodeOf_some hq
        obtain ⟨node, hnode, hindex⟩ := hc.owner _ q hmem
        obtain ⟨node', hnode', hindex'⟩ := hc.owner b p hp
        rw [matchesKey_eq hnode] at hmatch
        have hv' : node'.v = v := by
          rw [value_eq hnode', Option.some.injEq] at hv
          exact hv
        have hbk : b = bucketIndex tr k := by
          rw [← hindex', hv']
          unfold bucketIndex
          rw [hlaw.hash heq]
        have hsame := hlaw.trans (hlaw.symm heq) hmatch
        obtain rfl := hc.unique _ p (hbk ▸ hp) q hmem v node.v hv (value_eq hnode) hsame
        unfold contents
        rw [hq]
        exact hv

/-! ## `insert_unique`

A key that has a node is left alone. Otherwise a new node goes before the chain of its bucket, so the other
chains and the old nodes stay. -/

/-- The heap and the buckets after a new node. -/
def inserted (tr : HashTraits K V) (t : HashTable V) (v : V) : HashTable V :=
  HashTable.setBucket ⟨t.buckets, Function.update t.heap t.fresh (some ⟨t.buckets (bucketIndex tr (tr.keyOfValue v)), v⟩),
    t.fresh + 1⟩ (bucketIndex tr (tr.keyOfValue v)) t.fresh

/-- The key is there. -/
theorem insertUnique_old (hc : Chained tr t cs) (h : nodeOf tr t cs (tr.keyOfValue v) = some p) :
    t.insertUnique tr v = some (t, p, false) := by
  have hne : p ≠ 0 := hc.ne_null (nodeOf_some h).1
  unfold insertUnique
  simp only [search_eq hc, h, Option.bind_eq_bind, Option.bind_some, Option.getD_some]
  rw [if_neg hne]
  rfl

/-- The key is new. -/
theorem insertUnique_new (hc : Chained tr t cs) (h : nodeOf tr t cs (tr.keyOfValue v) = none) :
    t.insertUnique tr v = some (inserted tr t v, t.fresh, true) := by
  unfold insertUnique
  simp only [search_eq hc, h, Option.bind_eq_bind, Option.bind_some, Option.getD_none, if_true]
  rfl

/-- The old nodes are as before, -/
theorem inserted_heap (hne : p ≠ t.fresh) : (inserted tr t v).heap p = t.heap p := Function.update_of_ne hne _ _

/-- the new one is linked to the old head, -/
theorem inserted_fresh : (inserted tr t v).heap t.fresh = some ⟨t.buckets (bucketIndex tr (tr.keyOfValue v)), v⟩ :=
  Function.update_self ..

/-- and no value changes. -/
theorem inserted_value (hne : p ≠ t.fresh) : (inserted tr t v).value p = t.value p := by
  unfold value
  rw [inserted_heap hne]

/-- A node of a chain is not the new one. -/
theorem Chained.ne_fresh (hc : Chained tr t cs) {b : Nat} (hp : p ∈ cs b) : p ≠ t.fresh := by
  rintro rfl
  obtain ⟨node, hnode, -⟩ := hc.owner b _ hp
  rw [hc.given _ (Nat.le_refl _)] at hnode
  cases hnode

/-- A cell of a bucket is the new one or an old one. -/
theorem mem_inserted {b : Nat} (hp : p ∈ Function.update cs (bucketIndex tr (tr.keyOfValue v))
    (t.fresh :: cs (bucketIndex tr (tr.keyOfValue v))) b) :
    p = t.fresh ∧ bucketIndex tr (tr.keyOfValue v) = b ∨ p ∈ cs b := by
  by_cases hb : b = bucketIndex tr (tr.keyOfValue v)
  · rw [hb, Function.update_self] at hp
    exact (List.mem_cons.mp hp).imp (fun heq => ⟨heq, hb.symm⟩) fun hp => hb ▸ hp
  · rw [Function.update_of_ne hb] at hp
    exact Or.inr hp

/-- **A new node** before the chain of its bucket. -/
theorem inserted_chained (hlaw : tr.Lawful) (hc : Chained tr t cs) (h : nodeOf tr t cs (tr.keyOfValue v) = none) :
    Chained tr (inserted tr t v) (Function.update cs (bucketIndex tr (tr.keyOfValue v))
      (t.fresh :: cs (bucketIndex tr (tr.keyOfValue v)))) := by
  have hpos := hc.fresh_pos
  -- the old cells of a bucket are a thread still
  have hold : ∀ b, Thread (inserted tr t v).nextOf 0 (t.buckets b) (cs b) := by
    intro b
    apply (hc.threads b).congr
    intro p hp
    unfold nextOf
    rw [inserted_heap (hc.ne_fresh hp)]
  have hnew : (inserted tr t v).value t.fresh = some v := value_eq inserted_fresh
  refine ⟨?_, ?_, ?_, ?_, ?_, Nat.succ_pos _⟩
  -- the threads: the new node stands before its bucket's chain
  · intro b
    by_cases hb : b = bucketIndex tr (tr.keyOfValue v)
    · rw [hb, Function.update_self]
      refine ⟨Function.update_self .., Nat.ne_of_gt hpos, ?_⟩
      rw [nextOf_eq inserted_fresh]
      exact hold _
    · rw [Function.update_of_ne hb]
      have hbucket : (inserted tr t v).buckets b = t.buckets b := Function.update_of_ne hb _ _
      rw [hbucket]
      exact hold b
  · intro b p hp
    rcases mem_inserted hp with ⟨rfl, hb⟩ | hp
    · exact ⟨_, inserted_fresh, hb⟩
    · rw [inserted_heap (hc.ne_fresh hp)]
      exact hc.owner b p hp
  · intro b p hp q hq v' w hv hw heq
    rcases mem_inserted hp with ⟨rfl, -⟩ | hp <;> rcases mem_inserted hq with ⟨rfl, -⟩ | hq
    · rfl
    · -- the new key is the key of no old node
      rw [hnew, Option.some.injEq] at hv
      rw [inserted_value (hc.ne_fresh hq)] at hw
      rw [← hv, no_node hc hlaw h hq hw] at heq
      cases heq
    · rw [hnew, Option.some.injEq] at hw
      rw [inserted_value (hc.ne_fresh hp)] at hv
      have hno := no_node hc hlaw h hp hv
      rw [← hw] at heq
      rw [hlaw.symm heq] at hno
      cases hno
    · rw [inserted_value (hc.ne_fresh hp)] at hv
      rw [inserted_value (hc.ne_fresh hq)] at hw
      exact hc.unique b p hp q hq v' w hv hw heq
  -- and nothing lives at the addresses behind the new one
  · intro p hp
    have hle : t.fresh + 1 ≤ p := hp
    rw [inserted_heap (by omega)]
    exact hc.given p (by omega)
  · rw [inserted_heap (Nat.ne_of_lt hpos)]
    exact hc.null

/-- The new node is what is found under its key, and nothing else changes. -/
theorem inserted_contents (hlaw : tr.Lawful) (hc : Chained tr t cs) (h : nodeOf tr t cs (tr.keyOfValue v) = none) :
    contents tr (inserted tr t v) (Function.update cs (bucketIndex tr (tr.keyOfValue v))
      (t.fresh :: cs (bucketIndex tr (tr.keyOfValue v)))) = KeyMap.add tr.keyOfValue tr.keyEqual (contents tr t cs) v := by
  have hnew : (inserted tr t v).value t.fresh = some v := value_eq inserted_fresh
  have hc' := inserted_chained hlaw hc h
  funext k
  apply Option.ext
  intro w
  rw [contents_iff hlaw hc']
  unfold KeyMap.add
  -- the key asked for is the new one, or another
  by_cases hk : tr.keyEqual k (tr.keyOfValue v) = true
  · rw [if_pos hk, Option.some.injEq]
    constructor
    · rintro ⟨b, p, hp, hw, heq⟩
      rcases mem_inserted hp with ⟨rfl, -⟩ | hp
      · exact Option.some.inj (hnew.symm.trans hw)
      · rw [inserted_value (hc.ne_fresh hp)] at hw
        have hno := no_node hc hlaw h hp hw
        rw [hlaw.trans (hlaw.symm hk) heq] at hno
        cases hno
    · rintro rfl
      refine ⟨bucketIndex tr (tr.keyOfValue v), t.fresh, ?_, hnew, hk⟩
      rw [Function.update_self]
      exact List.mem_cons_self
  · rw [if_neg hk, contents_iff hlaw hc]
    constructor
    · rintro ⟨b, p, hp, hw, heq⟩
      rcases mem_inserted hp with ⟨rfl, -⟩ | hp
      · obtain rfl := Option.some.inj (hnew.symm.trans hw)
        exact absurd heq hk
      · rw [inserted_value (hc.ne_fresh hp)] at hw
        exact ⟨b, p, hp, hw, heq⟩
    · rintro ⟨b, p, hp, hw, heq⟩
      refine ⟨b, p, ?_, (inserted_value (hc.ne_fresh hp)).trans hw, heq⟩
      by_cases hb : b = bucketIndex tr (tr.keyOfValue v)
      · subst hb
        rw [Function.update_self]
        exact List.mem_cons_of_mem _ hp
      · rw [Function.update_of_ne hb]
        exact hp

/-! ## `erase`

The node is taken out of its chain, by the bucket when it is the first and by the node before it otherwise. -/

/-- The second loop stops behind the cells before the node. -/
theorem previous_eq {prev : Nat} (ht : Thread t.nextOf 0 h (pre ++ p :: suf))
    (hnodes : ∀ q ∈ pre, ∃ node, t.heap q = some node) (hfuel : pre.length < fuel) :
    t.previous p fuel prev h = some (pre.getLastD prev) := by
  induction pre generalizing h prev fuel with
  | nil =>
      obtain ⟨fuel, rfl⟩ : ∃ f, fuel = f + 1 := ⟨fuel - 1, by omega⟩
      rw [previous, if_pos ht.1]
      rfl
  | cons q pre ih =>
      have hnd := ht.nodup
      rw [List.length_cons] at hfuel
      obtain ⟨fuel, rfl⟩ : ∃ f, fuel = f + 1 := ⟨fuel - 1, by omega⟩
      obtain ⟨rfl, -, hrest⟩ := ht
      have hne : h ≠ p := by
        rintro rfl
        exact (List.nodup_cons.mp hnd).1 (by simp)
      obtain ⟨node, hnode⟩ := hnodes h List.mem_cons_self
      rw [nextOf_eq hnode] at hrest
      rw [previous, if_neg hne]
      simp only [hnode, Option.bind_eq_bind, Option.bind_some]
      rw [ih hrest (fun q hq => hnodes q (List.mem_cons_of_mem _ hq)) (by omega)]
      cases pre <;> rfl

/-- Fewer cells in the chains, with the same values. -/
theorem Chained.sub (hc : Chained tr t cs) {t' : HashTable V} {cs' : Nat → List Nat}
    (hthreads : ∀ b, Thread t'.nextOf 0 (t'.buckets b) (cs' b)) (hsub : ∀ b, cs' b ⊆ cs b)
    (hvalue : ∀ q, t'.value q = t.value q) (hfresh : t'.fresh = t.fresh) : Chained tr t' cs' := by
  have hnone : ∀ q, t.heap q = none → t'.heap q = none := by
    intro q hq
    have h := hvalue q
    unfold value at h
    rw [hq] at h
    exact Option.map_eq_none_iff.mp h
  refine ⟨hthreads, ?_, ?_, ?_, hnone 0 hc.null, hfresh ▸ hc.fresh_pos⟩
  · intro b q hq
    obtain ⟨node, hnode, hb⟩ := hc.owner b q (hsub b hq)
    have h := (hvalue q).trans (value_eq hnode)
    obtain ⟨node', hnode', hv⟩ := Option.map_eq_some_iff.mp h
    exact ⟨node', hnode', hv ▸ hb⟩
  · intro b q hq r hr v w hv hw heq
    rw [hvalue] at hv hw
    exact hc.unique b q (hsub b hq) r (hsub b hr) v w hv hw heq
  · intro q hq
    rw [hfresh] at hq
    exact hnone q (hc.given q hq)

/-- The node whose link is set, -/
theorem setNext_heap_self (q r : Nat) : (t.setNext q r).heap q = (t.heap q).map fun node => { node with next := r } :=
  Function.update_self ..

/-- and any other. -/
theorem setNext_heap_of_ne {q : Nat} (r : Nat) (hne : p ≠ q) : (t.setNext q r).heap p = t.heap p :=
  Function.update_of_ne hne _ _

/-- No value changes, -/
theorem setNext_value (q r : Nat) : (t.setNext q r).value p = t.value p := by
  unfold value
  by_cases hp : p = q
  · subst hp
    rw [setNext_heap_self, Option.map_map]
    rfl
  · rw [setNext_heap_of_ne r hp]

/-- and one link does. -/
theorem setNext_nextOf {q r : Nat} {node : HashTableNode V} (hq : t.heap q = some node) :
    (t.setNext q r).nextOf = Function.update t.nextOf q r := by
  funext p
  unfold nextOf
  by_cases hp : p = q
  · subst hp
    rw [Function.update_self, setNext_heap_self, hq]
    rfl
  · rw [Function.update_of_ne hp, setNext_heap_of_ne r hp]

/-- A node is in one chain only. -/
theorem Chained.not_mem (hc : Chained tr t cs) {b b' : Nat} (hp : p ∈ cs b) (hne : b' ≠ b) : p ∉ cs b' := by
  intro hp'
  obtain ⟨node, hnode, hb⟩ := hc.owner b p hp
  obtain ⟨node', hnode', hb'⟩ := hc.owner b' p hp'
  rw [hnode, Option.some.injEq] at hnode'
  exact hne (hb'.symm.trans (hnode' ▸ hb))

/-- **`erase`** takes the node that is found out of its chain, and nothing else. -/
theorem erase_found (hc : Chained tr t cs) (h : nodeOf tr t cs k = some p) :
    ∃ t', t.erase tr k = some (t', 1) ∧ (∀ b, Thread t'.nextOf 0 (t'.buckets b) ((cs b).erase p)) ∧
      (∀ q, t'.value q = t.value q) ∧ t'.fresh = t.fresh := by
  obtain ⟨hmem, -⟩ := nodeOf_some h
  have hne : p ≠ 0 := hc.ne_null hmem
  obtain ⟨node, hnode, -⟩ := hc.owner _ p hmem
  obtain ⟨pre, suf, hsplit⟩ := List.append_of_mem hmem
  have ht := hc.threads (bucketIndex tr k)
  rw [hsplit] at ht
  have hpre : ∀ q ∈ pre, ∃ node, t.heap q = some node := by
    intro q hq
    obtain ⟨node, hnode, -⟩ := hc.owner (bucketIndex tr k) q (hsplit ▸ List.mem_append_left _ hq)
    exact ⟨node, hnode⟩
  have hfuel : pre.length < t.fresh := by
    have hlen := hc.length_lt (bucketIndex tr k)
    rw [hsplit, List.length_append] at hlen
    omega
  have hrest : (cs (bucketIndex tr k)).erase p = pre ++ suf := by
    have hnp : p ∉ pre := by
      intro hp
      have hnd := ht.nodup
      rw [List.nodup_append] at hnd
      exact hnd.2.2 p hp p List.mem_cons_self rfl
    rw [hsplit, List.erase_append_right _ hnp, List.erase_cons_head]
  -- the other chains do not have the node
  have hother : ∀ b, b ≠ bucketIndex tr k → (cs b).erase p = cs b := fun b hb =>
    List.erase_of_not_mem (hc.not_mem hmem hb)
  have herase : t.erase tr k = if pre.getLastD 0 = 0 then some (t.setBucket (bucketIndex tr k) node.next, 1)
      else some (t.setNext (pre.getLastD 0) node.next, 1) := by
    unfold erase
    simp only [search_eq hc, h, Option.getD_some, Option.bind_eq_bind, Option.bind_some, hnode, previous_eq ht hpre hfuel]
    rw [if_neg hne]
    split <;> rfl
  rw [herase]
  -- the node is the head of its chain, or stands behind another one
  rcases List.eq_nil_or_concat pre with rfl | ⟨pre, a, rfl⟩
  · rw [List.getLastD_nil, if_pos rfl]
    refine ⟨_, rfl, ?_, fun q => rfl, rfl⟩
    intro b
    by_cases hb : b = bucketIndex tr k
    · rw [hb, hrest]
      have hbucket : (t.setBucket (bucketIndex tr k) node.next).buckets (bucketIndex tr k) = node.next :=
        Function.update_self ..
      rw [hbucket, ← nextOf_eq hnode]
      exact ht.after
    · have hbucket : (t.setBucket (bucketIndex tr k) node.next).buckets b = t.buckets b := Function.update_of_ne hb _ _
      rw [hother b hb, hbucket]
      exact hc.threads b
  · have ha0 : a ≠ 0 := ht.ne_nil a (by simp)
    obtain ⟨nodeA, hnodeA⟩ := hpre a (by simp)
    rw [List.concat_eq_append, List.getLastD_concat, if_neg ha0]
    refine ⟨_, rfl, ?_, fun q => setNext_value a node.next, rfl⟩
    intro b
    rw [setNext_nextOf hnodeA]
    by_cases hb : b = bucketIndex tr k
    · rw [hb, hrest, ← nextOf_eq hnode]
      rw [List.concat_eq_append, List.append_assoc] at ht ⊢
      exact ht.unlink
    · rw [hother b hb]
      apply (hc.threads b).congr
      intro q hq
      apply Function.update_of_ne
      rintro rfl
      exact hc.not_mem (b := bucketIndex tr k) (hsplit ▸ by simp) hb hq

/-- Nothing is erased when no node has the key. -/
theorem erase_absent (hc : Chained tr t cs) (h : nodeOf tr t cs k = none) : t.erase tr k = some (t, 0) := by
  unfold erase
  simp only [search_eq hc, h, Option.getD_none, Option.bind_eq_bind, Option.bind_some, if_true]
  rfl

/-- A chain without the node. -/
theorem mem_erase (hc : Chained tr t cs) {b q : Nat} : q ∈ (cs b).erase p ↔ q ≠ p ∧ q ∈ cs b :=
  (hc.threads b).nodup.mem_erase_iff

/-- Under the erased key there is nothing, and nothing else changes. -/
theorem erased_contents (hlaw : tr.Lawful) (hc : Chained tr t cs) (h : nodeOf tr t cs k = some p) {t' : HashTable V}
    (hc' : Chained tr t' fun b => (cs b).erase p) (hvalue : ∀ q, t'.value q = t.value q) :
    contents tr t' (fun b => (cs b).erase p) = KeyMap.remove tr.keyEqual (contents tr t cs) k := by
  obtain ⟨hmem, -⟩ := nodeOf_some h
  obtain ⟨node, hnode, -, hkey⟩ := contents_some hc h
  funext j
  apply Option.ext
  intro w
  rw [contents_iff hlaw hc']
  unfold KeyMap.remove
  -- a key equal to the erased one, or another
  by_cases hj : tr.keyEqual j k = true
  · rw [if_pos hj]
    refine iff_of_false ?_ (Option.some_ne_none w).symm
    rintro ⟨b, q, hq, hw, heq⟩
    obtain ⟨hqp, hq⟩ := (mem_erase hc).mp hq
    rw [hvalue] at hw
    -- it has the key of the erased node, so it is the erased node
    have hkq : tr.keyEqual k (tr.keyOfValue w) = true := hlaw.trans (hlaw.symm hj) heq
    obtain ⟨nodeQ, hnodeQ, hb⟩ := hc.owner b q hq
    rw [value_eq hnodeQ, Option.some.injEq] at hw
    have hbk : b = bucketIndex tr k := by
      rw [← hb, hw]
      unfold bucketIndex
      rw [hlaw.hash hkq]
    exact hqp (hc.unique _ q (hbk ▸ hq) p hmem w node.v (hw ▸ value_eq hnodeQ) (value_eq hnode)
      (hlaw.trans (hlaw.symm hkq) hkey))
  · rw [if_neg hj, contents_iff hlaw hc]
    constructor
    · rintro ⟨b, q, hq, hw, heq⟩
      exact ⟨b, q, ((mem_erase hc).mp hq).2, (hvalue q).symm.trans hw, heq⟩
    · rintro ⟨b, q, hq, hw, heq⟩
      refine ⟨b, q, (mem_erase hc).mpr ⟨?_, hq⟩, (hvalue q).trans hw, heq⟩
      rintro rfl
      rw [value_eq hnode, Option.some.injEq] at hw
      rw [← hw] at heq
      exact hj (hlaw.trans heq (hlaw.symm hkey))

/-! ## Runs

The table as a map from keys to values: its step is one of the map's, and so is a run. -/

/-- The calls on an empty map, with their answers. -/
def mapOf (tr : HashTraits K V) (ops : List (KeyMap.Op K V)) : KeyMap K V × List (KeyMap.Answer V) :=
  KeyMap.exec tr.keyOfValue tr.keyEqual KeyMap.empty ops

/-- The empty table, with no nodes. -/
theorem empty_chained : Chained tr (empty : HashTable V) fun _ => [] where
  threads := fun _ => rfl
  owner := by
    intro b p hp
    cases hp
  unique := by
    intro b p hp
    cases hp
  given := fun _ _ => rfl
  null := rfl
  fresh_pos := Nat.one_pos

/-- **One call** keeps the chains and answers as the map does. -/
theorem step_chained (hlaw : tr.Lawful) (hc : Chained tr t cs) (op : KeyMap.Op K V) :
    ∃ t' cs', t.step tr op = some (t', (KeyMap.step tr.keyOfValue tr.keyEqual (contents tr t cs) op).2) ∧
      Chained tr t' cs' ∧ contents tr t' cs' = (KeyMap.step tr.keyOfValue tr.keyEqual (contents tr t cs) op).1 := by
  cases op with
  -- the key has a node or it has none
  | insert v =>
      cases h : nodeOf tr t cs (tr.keyOfValue v) with
      | none =>
          refine ⟨_, _, ?_, inserted_chained hlaw hc h, ?_⟩
          · rw [step, insertUnique_new hc h]
            simp only [KeyMap.step, contents_none h, Option.bind_eq_bind, Option.bind_some, value_eq inserted_fresh]
            rfl
          · simp only [KeyMap.step, contents_none h]
            exact inserted_contents hlaw hc h
      | some p =>
          obtain ⟨node, hnode, hcontents, -⟩ := contents_some hc h
          refine ⟨t, cs, ?_, hc, ?_⟩
          · rw [step, insertUnique_old hc h]
            simp only [KeyMap.step, hcontents, Option.bind_eq_bind, Option.bind_some, value_eq hnode]
            rfl
          · simp only [KeyMap.step, hcontents]
  | erase k =>
      cases h : nodeOf tr t cs k with
      | none =>
          refine ⟨t, cs, ?_, hc, ?_⟩
          · rw [step, erase_absent hc h]
            simp only [KeyMap.step, contents_none h, Option.map_some]
          · simp only [KeyMap.step, contents_none h]
      | some p =>
          obtain ⟨node, -, hcontents, -⟩ := contents_some hc h
          obtain ⟨t', herase, hthreads, hvalue, hfresh⟩ := erase_found hc h
          have hc' := hc.sub hthreads (fun b => List.erase_subset) hvalue hfresh
          refine ⟨t', _, ?_, hc', ?_⟩
          · rw [step, herase]
            simp only [KeyMap.step, hcontents, Option.map_some]
          · simp only [KeyMap.step, hcontents]
            exact erased_contents hlaw hc h hc' hvalue
  | find k =>
      refine ⟨t, cs, ?_, hc, rfl⟩
      rw [step, find, search_eq hc, Option.map_some, ← contents_find hc]
      rfl

/-- A run of calls has the answers of the map, by induction on the calls. -/
theorem exec_chained (hlaw : tr.Lawful) (hc : Chained tr t cs) (ops : List (KeyMap.Op K V)) :
    ∃ t' cs', t.exec tr ops = some (t', (KeyMap.exec tr.keyOfValue tr.keyEqual (contents tr t cs) ops).2) ∧
      Chained tr t' cs' ∧ contents tr t' cs' = (KeyMap.exec tr.keyOfValue tr.keyEqual (contents tr t cs) ops).1 := by
  induction ops generalizing t cs with
  | nil => exact ⟨t, cs, rfl, hc, rfl⟩
  | cons op ops ih =>
      obtain ⟨t₁, cs₁, hstep, hc₁, hcontents₁⟩ := step_chained hlaw hc op
      obtain ⟨t₂, cs₂, hexec, hc₂, hcontents₂⟩ := ih hc₁
      rw [hcontents₁] at hexec hcontents₂
      refine ⟨t₂, cs₂, ?_, hc₂, hcontents₂⟩
      rw [exec, hstep]
      simp only [Option.bind_eq_bind, Option.bind_some, hexec]
      rfl

/-- **A table is a finite map**: after any calls the answers are the map's, each node is in the chain of its own bucket and
    no two have the same key, and `erase` takes exactly the found node out of its chain. -/
theorem table_refines (hlaw : tr.Lawful) (ops : List (KeyMap.Op K V)) :
    ∃ t cs, exec tr (empty : HashTable V) ops = some (t, (mapOf tr ops).2) ∧ Chained tr t cs ∧
      contents tr t cs = (mapOf tr ops).1 ∧
      ∀ k, t.find tr k = some 0 ∧ t.erase tr k = some (t, 0) ∨
        ∃ p t', t.find tr k = some p ∧ p ≠ 0 ∧ t.erase tr k = some (t', 1) ∧
          Chained tr t' (fun b => (cs b).erase p) ∧ ∀ q, t'.value q = t.value q := by
  obtain ⟨t, cs, hexec, hc, hcontents⟩ := exec_chained hlaw empty_chained ops
  refine ⟨t, cs, hexec, hc, hcontents, ?_⟩
  intro k
  unfold find
  rw [search_eq hc]
  cases h : nodeOf tr t cs k with
  | none => exact Or.inl ⟨rfl, erase_absent hc h⟩
  | some p =>
      obtain ⟨t', herase, hthreads, hvalue, hfresh⟩ := erase_found hc h
      have hc' := hc.sub hthreads (fun b => List.erase_subset) hvalue hfresh
      exact Or.inr ⟨p, t', rfl, hc.ne_null (nodeOf_some h).1, herase, hc', hvalue⟩

/-- `std::hash<int>`, `Identity<int>` and `std::equal_to<int>`. -/
def intSet : HashTraits Int Int := ⟨fun k => (k % 2 ^ 64).toNat, id, fun j k => decide (j = k)⟩

/-- `int`s are compared and hashed lawfully. -/
theorem intSet_lawful : intSet.Lawful where
  refl k := decide_eq_true rfl
  symm h := decide_eq_true (of_decide_eq_true h).symm
  trans h₁ h₂ := decide_eq_true ((of_decide_eq_true h₁).trans (of_decide_eq_true h₂))
  hash h := by rw [of_decide_eq_true h]

/-- Four keys, three of them in one bucket; the middle of their chain is erased. -/
theorem table_refines_intSet : ∃ t, exec intSet (empty : HashTable Int)
    [.insert 5, .insert 1048581, .insert 2097157, .insert 7, .insert 5, .erase 1048581, .erase 1048581,
      .find 5, .find 1048581] = some (t, [.inserted 5 true, .inserted 1048581 true, .inserted 2097157 true,
        .inserted 7 true, .inserted 5 false, .erased 1, .erased 0, .found (some 5), .found none]) := by
  obtain ⟨t, -, hexec, -⟩ := table_refines intSet_lawful
    [.insert 5, .insert 1048581, .insert 2097157, .insert 7, .insert 5, .erase 1048581, .erase 1048581,
      .find 5, .find 1048581]
  exact ⟨t, hexec⟩

end HashTable
end Snippets
