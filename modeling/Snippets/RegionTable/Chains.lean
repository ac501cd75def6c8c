import Snippets.RegionTable.Model
import Mathlib.Data.List.Range
import Mathlib.Data.List.Perm.Basic

/-!
# `RegionTable.Chains` — the values of a table and the chains of their nodes

Nothing is erased, so the node of the `i`-th value that came has the id `i`. The values that are stored, the last one
first, then determine every chain: a bucket's chain has the ids of the values that belong there, the last one first
(`chain`). `Stored` says that the nodes hold the values and the links, and `Heads` that the buckets hold the first ids.
Under both, `find` finds what a search through the list finds, the chains partition the values, and the iterator walks
through the chains one after another.
-/

namespace Snippets

open Lib

namespace RegionTable

variable {K : Type} (tr : RegionTraits K) (t : RegionTable) (m : Mem) (n : Nat)

/-- The bucket of a value, among `n`. -/
def indexOf (v : tr.Value) : Nat := tr.hash (tr.keyOfValue v) % n

/-- The ids of the values in a bucket. -/
def chain (b : Nat) : List tr.Value → List Nat
  | [] => []
  | v :: vs => if indexOf tr n v = b then (vs.length + 1) :: chain b vs else chain b vs

/-- The id that the bucket has, 0 for an empty one. -/
def firstId (b : Nat) (vs : List tr.Value) : Nat := (chain tr n b vs).headD 0

/-- Where a node is. -/
def nodeAddr (id : Nat) : Int := t.nodeStart + tr.nodeSize * (id - 1 : Nat)

/-- The nodes of the values. -/
def Stored : List tr.Value → Prop
  | [] => True
  | v :: vs =>
      next m (t.nodeAddr tr (vs.length + 1)) = firstId tr n (indexOf tr n v) vs ∧
        val tr m (t.nodeAddr tr (vs.length + 1)) = v ∧ Stored vs

/-- The buckets. -/
structure Heads (vs : List tr.Value) : Prop where
  count : t.bucketCount m = n
  first : ∀ b < n, m.readWord (t.bucketStart + 4 * b) 4 = firstId tr n b vs

variable {tr t m n} {vs : List tr.Value} {v : tr.Value} {b fuel id : Nat} {k : K}

/-- The id of the last value with a property. -/
def locate (p : tr.Value → Bool) : List tr.Value → Option Nat
  | [] => none
  | v :: vs => if p v then some (vs.length + 1) else locate p vs

variable {p : tr.Value → Bool}

/-- Every value has a bucket. -/
theorem indexOf_lt (hn : 0 < n) (v : tr.Value) : indexOf tr n v < n := Nat.mod_lt _ hn

/-- A new value is the first of its bucket's chain. -/
theorem chain_cons_of_eq (h : indexOf tr n v = b) : chain tr n b (v :: vs) = (vs.length + 1) :: chain tr n b vs := if_pos h

/-- The other chains stay. -/
theorem chain_cons_of_ne (h : indexOf tr n v ≠ b) : chain tr n b (v :: vs) = chain tr n b vs := if_neg h

/-- The bucket of a new value has the new id. -/
theorem firstId_cons_of_eq (h : indexOf tr n v = b) : firstId tr n b (v :: vs) = vs.length + 1 := by
  unfold firstId
  rw [chain_cons_of_eq h]
  rfl

/-- The other buckets keep theirs. -/
theorem firstId_cons_of_ne (h : indexOf tr n v ≠ b) : firstId tr n b (v :: vs) = firstId tr n b vs := by
  unfold firstId
  rw [chain_cons_of_ne h]

/-- A valid id leads to its node. -/
theorem get_eq (hpos : 0 < id) (hle : id ≤ t.maxNodeId) : t.get tr id = some (t.nodeAddr tr id) := by
  unfold get
  rw [if_neg (by omega)]
  rfl

/-- The ids of a chain are those of values that came. -/
theorem mem_chain (h : id ∈ chain tr n b vs) : 0 < id ∧ id ≤ vs.length := by
  induction vs with
  | nil => cases h
  | cons v vs ih =>
      rw [List.length_cons]
      by_cases hv : indexOf tr n v = b
      · rw [chain_cons_of_eq hv] at h
        rcases List.mem_cons.mp h with rfl | h
        · omega
        · have := ih h
          omega
      · rw [chain_cons_of_ne hv] at h
        have := ih h
        omega

/-- A chain is no longer than there are values. -/
theorem length_chain_le (b : Nat) (vs : List tr.Value) : (chain tr n b vs).length ≤ vs.length := by
  induction vs with
  | nil => exact Nat.le_refl _
  | cons v vs ih =>
      by_cases hv : indexOf tr n v = b
      · rw [chain_cons_of_eq hv, List.length_cons, List.length_cons]
        omega
      · rw [chain_cons_of_ne hv, List.length_cons]
        omega

/-- Where a bucket is. -/
theorem bucketAt_eq (hh : Heads tr t m n vs) (hb : b < n) : t.bucketAt m b = some (t.bucketStart + 4 * b) := by
  unfold bucketAt
  rw [hh.count, if_pos hb]

/-! ## Searching

The search goes down the chain of a bucket, from the last value to the first, and so finds the last value with
the key; `locate` says which it is. -/

/-- **The loop down a chain** finds the last value of the bucket with the key. -/
theorem seek_eq (hs : Stored tr t m n vs) (hlen : vs.length ≤ t.maxNodeId) (hfuel : vs.length < fuel) :
    t.seek tr m k fuel (firstId tr n b vs) =
      some ((locate (fun v => indexOf tr n v = b && tr.keyEqual (tr.keyOfValue v) k) vs).map (t.nodeAddr tr)) := by
  induction vs generalizing fuel with
  | nil =>
      obtain ⟨fuel, rfl⟩ : ∃ f, fuel = f + 1 := ⟨fuel - 1, by omega⟩
      rfl
  | cons v vs ih =>
      obtain ⟨hnext, hval, hrest⟩ := hs
      rw [List.length_cons] at hlen hfuel
      by_cases hv : indexOf tr n v = b
      · obtain ⟨fuel, rfl⟩ : ∃ f, fuel = f + 1 := ⟨fuel - 1, by omega⟩
        rw [firstId_cons_of_eq hv, seek, if_neg (Nat.succ_ne_zero _), get_eq (Nat.succ_pos _) hlen]
        simp only [Option.bind_eq_bind, Option.bind_some, hval, hnext, hv, locate, decide_true, Bool.true_and]
        split
        · rfl
        · exact ih hrest (by omega) (by omega)
      · rw [firstId_cons_of_ne hv, ih hrest (by omega) (by omega)]
        simp only [locate, hv, decide_false, Bool.false_and, Bool.false_eq_true, if_false]

/-- Only the answers of the property matter. -/
theorem locate_congr {q : tr.Value → Bool} (h : ∀ v, p v = q v) (vs : List tr.Value) : locate p vs = locate q vs := by
  rw [funext h]

/-- The value at the id that is found. -/
theorem locate_val (hs : Stored tr t m n vs) :
    (locate p vs).map (fun id => val tr m (t.nodeAddr tr id)) = vs.find? p := by
  induction vs with
  | nil => rfl
  | cons v vs ih =>
      obtain ⟨-, hval, hrest⟩ := hs
      unfold locate
      by_cases hv : p v = true
      · rw [if_pos hv, List.find?_cons_of_pos hv, Option.map_some, hval]
      · rw [if_neg hv, List.find?_cons_of_neg hv, ih hrest]

/-- **The chain where a key belongs** is searched for the key. -/
theorem search_eq (hlaw : tr.Lawful) (hn : 0 < n) (hs : Stored tr t m n vs) (hh : Heads tr t m n vs)
    (hlen : vs.length ≤ t.maxNodeId) (k : K) : t.search tr m k =
      some (t.bucketStart + 4 * (tr.hash k % n : Nat),
        (locate (fun v => tr.keyEqual (tr.keyOfValue v) k) vs).map (t.nodeAddr tr)) := by
  have hlt : tr.hash k % n < n := Nat.mod_lt _ hn
  have hbucket : t.bucket tr m k = some (tr.hash k % n) := by
    unfold bucket
    rw [hh.count, if_neg (by omega)]
  -- a value with the key belongs to the key's bucket
  have hsame : ∀ v : tr.Value, (indexOf tr n v = tr.hash k % n && tr.keyEqual (tr.keyOfValue v) k) =
      tr.keyEqual (tr.keyOfValue v) k := by
    intro v
    cases hk : tr.keyEqual (tr.keyOfValue v) k with
    | false => rw [Bool.and_false]
    | true =>
        have hindex : indexOf tr n v = tr.hash k % n := by
          unfold indexOf
          rw [hlaw.hash hk]
        rw [hindex]
        simp
  unfold search
  simp only [hbucket, Option.bind_eq_bind, Option.bind_some, bucketAt_eq hh hlt, hh.first _ hlt,
    seek_eq hs hlen (Nat.lt_succ_of_le hlen), locate_congr hsame]
  rfl

/-- `find` returns the node. -/
theorem find_eq (hlaw : tr.Lawful) (hn : 0 < n) (hs : Stored tr t m n vs) (hh : Heads tr t m n vs)
    (hlen : vs.length ≤ t.maxNodeId) (k : K) : t.find tr m k =
      some ((locate (fun v => tr.keyEqual (tr.keyOfValue v) k) vs).map (t.nodeAddr tr)) := by
  unfold find
  rw [search_eq hlaw hn hs hh hlen]
  rfl

/-! ## Bucket sizes

The length of a chain is counted with 32 bits, which are enough for all the nodes there are. -/

/-- The loop that counts. -/
theorem chainLength_eq (hs : Stored tr t m n vs) (hlen : vs.length ≤ t.maxNodeId) (hfuel : vs.length < fuel) (num : Nat) :
    t.chainLength tr m fuel num (firstId tr n b vs) = some ((num + (chain tr n b vs).length) % 2 ^ 32) := by
  induction vs generalizing fuel num with
  | nil =>
      obtain ⟨fuel, rfl⟩ : ∃ f, fuel = f + 1 := ⟨fuel - 1, by omega⟩
      rfl
  | cons v vs ih =>
      obtain ⟨hnext, -, hrest⟩ := hs
      rw [List.length_cons] at hlen hfuel
      by_cases hv : indexOf tr n v = b
      · obtain ⟨fuel, rfl⟩ : ∃ f, fuel = f + 1 := ⟨fuel - 1, by omega⟩
        rw [firstId_cons_of_eq hv, chainLength, if_neg (Nat.succ_ne_zero _), get_eq (Nat.succ_pos _) hlen]
        simp only [Option.bind_eq_bind, Option.bind_some, hnext, hv]
        rw [ih hrest (by omega) (by omega), chain_cons_of_eq hv, List.length_cons]
        congr 2
        omega
      · rw [firstId_cons_of_ne hv, chain_cons_of_ne hv, ih hrest (by omega) (by omega)]

/-- The count of a bucket. -/
theorem bucketSize_eq (hs : Stored tr t m n vs) (hh : Heads tr t m n vs) (hlen : vs.length ≤ t.maxNodeId)
    (hmax : t.maxNodeId < 2 ^ 32) (hb : b < n) : t.bucketSize tr m b = some (chain tr n b vs).length := by
  have hle := length_chain_le (n := n) b vs
  unfold bucketSize
  simp only [bucketAt_eq hh hb, Option.bind_eq_bind, Option.bind_some, hh.first b hb,
    chainLength_eq hs hlen (Nat.lt_succ_of_le hlen)]
  rw [Nat.zero_add, Nat.mod_eq_of_lt (by omega)]

/-! ## All chains

Every value is in one chain, and so the chains together are the ids, each once. -/

/-- The ids of the values. -/
def allIds (vs : List tr.Value) : List Nat :=
  match vs with
  | [] => []
  | _ :: vs => (vs.length + 1) :: allIds vs

/-- A new element of one of the lists is a new element of all of them together. -/
theorem flatMap_insert {f : Nat → List Nat} {l : List Nat} {i x : Nat} (hnd : l.Nodup) (hi : i ∈ l) :
    (l.flatMap fun b => if i = b then x :: f b else f b).Perm (x :: l.flatMap f) := by
  induction l with
  | nil => cases hi
  | cons b l ih =>
      obtain ⟨hb, hnd⟩ := List.nodup_cons.mp hnd
      rw [List.flatMap_cons, List.flatMap_cons]
      by_cases hib : i = b
      · -- no other bucket takes it
        have hrest : (l.flatMap fun b' => if i = b' then x :: f b' else f b') = l.flatMap f := by
          apply List.flatMap_congr
          intro b' hb'
          rw [if_neg]
          rintro rfl
          exact hb (hib ▸ hb')
        rw [if_pos hib, hrest]
        exact List.Perm.refl _
      · rw [if_neg hib]
        have hil : i ∈ l := (List.mem_cons.mp hi).resolve_left hib
        exact ((ih hnd hil).append_left _).trans List.perm_middle

/-- **The chains partition the values.** -/
theorem chains_perm (hn : 0 < n) (vs : List tr.Value) :
    ((List.range n).flatMap fun b => chain tr n b vs).Perm (allIds vs) := by
  induction vs with
  | nil =>
      show ((List.range n).flatMap fun _ => []).Perm []
      rw [List.flatMap_eq_nil_iff.mpr (fun _ _ => rfl)]
  | cons v vs ih =>
      have hmem : indexOf tr n v ∈ List.range n := List.mem_range.mpr (indexOf_lt hn v)
      exact (flatMap_insert List.nodup_range hmem).trans (ih.cons _)

/-- There are as many ids as values. -/
theorem length_allIds (vs : List tr.Value) : (allIds vs).length = vs.length := by
  induction vs with
  | nil => rfl
  | cons v vs ih =>
      unfold allIds
      rw [List.length_cons, ih, List.length_cons]

/-- The values of the ids. -/
theorem allIds_val (hs : Stored tr t m n vs) : (allIds vs).map (fun id => val tr m (t.nodeAddr tr id)) = vs := by
  induction vs with
  | nil => rfl
  | cons v vs ih =>
      obtain ⟨-, hval, hrest⟩ := hs
      unfold allIds
      rw [List.map_cons, hval, ih hrest]

/-- The sizes of the buckets add up. -/
theorem sum_chains (hn : 0 < n) (vs : List tr.Value) :
    ((List.range n).map fun b => (chain tr n b vs).length).sum = vs.length := by
  rw [← length_allIds vs, ← (chains_perm hn vs).length_eq, List.length_flatMap]

/-! ## The iterator

It knows a node and nothing else. At the end of a chain it computes the bucket again, from the key that the node has. -/

/-- The ids in `k` buckets from `b` on. -/
def idsFrom (tr : RegionTraits K) (n b k : Nat) (vs : List tr.Value) : List Nat :=
  (List.range' b k).flatMap fun b => chain tr n b vs

/-- The chain of a bucket comes before those of the later ones. -/
theorem idsFrom_succ (b k : Nat) (vs : List tr.Value) :
    idsFrom tr n b (k + 1) vs = chain tr n b vs ++ idsFrom tr n (b + 1) k vs := by
  unfold idsFrom
  rw [List.range'_succ, List.flatMap_cons]

/-- From a bucket on, the first node is looked for in one bucket after the other. -/
theorem firstFrom_eq (hh : Heads tr t m n vs) (hlen : vs.length ≤ t.maxNodeId) {k : Nat} (hk : b + k = n) :
    t.firstFrom tr m k b = some ((idsFrom tr n b k vs).head?.map (t.nodeAddr tr)) := by
  induction k generalizing b with
  | zero => rfl
  | succ k ih =>
      have hb : b < n := by omega
      rw [idsFrom_succ, firstFrom]
      simp only [bucketAt_eq hh hb, Option.bind_eq_bind, Option.bind_some, hh.first b hb]
      cases hc : chain tr n b vs with
      | nil =>
          have hzero : firstId tr n b vs = 0 := by
            unfold firstId
            rw [hc]
            rfl
          rw [hzero, if_neg (by omega), ih (by omega), List.nil_append]
      | cons id ids =>
          have hid := mem_chain (hc ▸ List.mem_cons_self)
          have hfirst : firstId tr n b vs = id := by
            unfold firstId
            rw [hc]
            rfl
          rw [hfirst, if_pos (by omega), get_eq hid.1 (by omega)]
          rfl

/-- A node of a chain: its link and its bucket. -/
theorem chain_node (hs : Stored tr t m n vs) {pre suf : List Nat} (hc : chain tr n b vs = pre ++ id :: suf) :
    next m (t.nodeAddr tr id) = suf.headD 0 ∧ indexOf tr n (val tr m (t.nodeAddr tr id)) = b := by
  induction vs generalizing pre with
  | nil =>
      have hnil : ([] : List Nat) = pre ++ id :: suf := hc
      simp at hnil
  | cons v vs ih =>
      obtain ⟨hnext, hval, hrest⟩ := hs
      by_cases hv : indexOf tr n v = b
      · rw [chain_cons_of_eq hv] at hc
        cases pre with
        | nil =>
            -- the node is the last one that came
            rw [List.nil_append] at hc
            obtain ⟨rfl, rfl⟩ := List.cons.inj hc
            rw [hnext, hval, hv]
            exact ⟨rfl, rfl⟩
        | cons x pre =>
            rw [List.cons_append] at hc
            exact ih hrest (List.cons.inj hc).2
      · rw [chain_cons_of_ne hv] at hc
        exact ih hrest hc

/-- The next node is that of the chain, or else the first one of the later buckets. -/
theorem advance_eq (hn : 0 < n) (hs : Stored tr t m n vs) (hh : Heads tr t m n vs) (hlen : vs.length ≤ t.maxNodeId)
    {k : Nat} (hk : b + 1 + k = n) {pre suf : List Nat} (hc : chain tr n b vs = pre ++ id :: suf) :
    t.advance tr m (t.nodeAddr tr id) = some ((suf ++ idsFrom tr n (b + 1) k vs).head?.map (t.nodeAddr tr)) := by
  obtain ⟨hnext, hindex⟩ := chain_node hs hc
  have hbucket : t.bucket tr m (tr.keyOfValue (val tr m (t.nodeAddr tr id))) = some b := by
    unfold bucket
    rw [hh.count, if_neg (by omega)]
    exact congrArg some hindex
  unfold advance
  simp only [hbucket, Option.bind_eq_bind, Option.bind_some, hnext, hh.count]
  cases suf with
  | nil =>
      have hcount : n - (b + 1) = k := by omega
      rw [List.headD_nil, if_neg (by omega), hcount, firstFrom_eq hh hlen hk, List.nil_append]
  | cons id' suf =>
      have hmem : id' ∈ chain tr n b vs := by
        rw [hc]
        simp
      have hid := mem_chain hmem
      rw [List.headD_cons, if_pos (by omega), get_eq hid.1 (by omega)]
      rfl

/-- The rest of a chain, when what comes after the chain is walked through. -/
theorem walkFrom_chain (hn : 0 < n) (hs : Stored tr t m n vs) (hh : Heads tr t m n vs) (hlen : vs.length ≤ t.maxNodeId)
    {k : Nat} (hk : b + 1 + k = n)
    (hafter : ∀ fuel, (idsFrom tr n (b + 1) k vs).length < fuel →
      t.walkFrom tr m fuel ((idsFrom tr n (b + 1) k vs).head?.map (t.nodeAddr tr)) =
        some ((idsFrom tr n (b + 1) k vs).map fun id => val tr m (t.nodeAddr tr id)))
    {pre suf : List Nat} (hc : chain tr n b vs = pre ++ suf)
    (hfuel : (suf ++ idsFrom tr n (b + 1) k vs).length < fuel) :
    t.walkFrom tr m fuel ((suf ++ idsFrom tr n (b + 1) k vs).head?.map (t.nodeAddr tr)) =
      some ((suf ++ idsFrom tr n (b + 1) k vs).map fun id => val tr m (t.nodeAddr tr id)) := by
  induction suf generalizing pre fuel with
  | nil => exact hafter fuel hfuel
  | cons id suf ih =>
      rw [List.cons_append, List.length_cons] at hfuel
      obtain ⟨fuel, rfl⟩ : ∃ f, fuel = f + 1 := ⟨fuel - 1, by omega⟩
      have hc' : chain tr n b vs = (pre ++ [id]) ++ suf := by
        rw [hc, List.append_assoc]
        rfl
      have hrest := ih hc' (Nat.lt_of_succ_lt_succ hfuel)
      rw [List.cons_append, List.head?_cons, Option.map_some, walkFrom]
      simp only [advance_eq hn hs hh hlen hk hc, Option.bind_eq_bind, Option.bind_some, hrest]
      rfl

/-- A walk from a bucket on meets all nodes of this one and of the later ones. -/
theorem walkFrom_eq (hn : 0 < n) (hs : Stored tr t m n vs) (hh : Heads tr t m n vs) (hlen : vs.length ≤ t.maxNodeId)
    {k : Nat} (hk : b + k = n) (hfuel : (idsFrom tr n b k vs).length < fuel) :
    t.walkFrom tr m fuel ((idsFrom tr n b k vs).head?.map (t.nodeAddr tr)) =
      some ((idsFrom tr n b k vs).map fun id => val tr m (t.nodeAddr tr id)) := by
  induction k generalizing b fuel with
  | zero =>
      obtain ⟨fuel, rfl⟩ : ∃ f, fuel = f + 1 := ⟨fuel - 1, by omega⟩
      rfl
  | succ k ih =>
      rw [idsFrom_succ] at hfuel ⊢
      have hk' : b + 1 + k = n := by omega
      exact walkFrom_chain hn hs hh hlen hk' (fun fuel hfuel => ih hk' hfuel) (List.nil_append _).symm hfuel

/-- **The iterator** meets every value once. -/
theorem walk_perm (hn : 0 < n) (hs : Stored tr t m n vs) (hh : Heads tr t m n vs) (hlen : vs.length ≤ t.maxNodeId) :
    ∃ ws, t.walk tr m = some ws ∧ ws.Perm vs := by
  have hperm : (idsFrom tr n 0 n vs).Perm (allIds vs) := by
    unfold idsFrom
    rw [← List.range_eq_range']
    exact chains_perm hn vs
  have hlength : (idsFrom tr n 0 n vs).length < t.maxNodeId + 1 := by
    rw [hperm.length_eq, length_allIds]
    omega
  refine ⟨(idsFrom tr n 0 n vs).map fun id => val tr m (t.nodeAddr tr id), ?_, ?_⟩
  · unfold walk begin
    rw [hh.count, firstFrom_eq hh hlen (Nat.zero_add n)]
    exact walkFrom_eq hn hs hh hlen (Nat.zero_add n) hlength
  · have hmap := hperm.map fun id => val tr m (t.nodeAddr tr id)
    rwa [allIds_val hs] at hmap

end RegionTable
end Snippets
