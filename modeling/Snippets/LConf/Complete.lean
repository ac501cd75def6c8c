import Snippets.LConf.Model
import Snippets.Lib.Lockstep

/-!
# `LConf.Complete` — which tables are read completely

`Represents` says that a node has every entry of a table once. `represents_iff_readable` says when `read_table` makes such a
node: a number that is not above the length of the array part must be an index of it, and no string may contain a zero byte.
That nothing else can make up for a lost entry or a cut string is shown by counting bytes (`weight`).
-/

namespace Snippets

open Lib

namespace LConf

variable {tostring : LuaNumber → CString} {entries : List Entry} {n depth idx : Nat} {v : LuaValue} {key : LuaKey}
  {c : Node} {name s : List UInt8}

/-! ## The property -/

/-- `n` is the length of the maximal run of keys `1, 2, …`. -/
def IsRun (entries : List Entry) (n : Nat) : Prop :=
  (∀ i, 1 ≤ i → i ≤ n → LuaKey.ofNat i ∈ entries.map Prod.fst) ∧ LuaKey.ofNat (n + 1) ∉ entries.map Prod.fst

/-- A node that has all of a value: of a table, every entry once, first those of the run in order, and then the others, each
    named by its key. -/
inductive Represents (tostring : LuaNumber → CString) : LuaValue → Node → Prop
  | string (name s : List UInt8) : Represents tostring (.string s) (.scalar name s)
  | number (name : List UInt8) (x : LuaNumber) : Represents tostring (.number x) (.scalar name (tostring x))
  | table {entries order : List Entry} {name : List UInt8} {n : Nat} {children : List Node} (hperm : entries.Perm order)
      (hlength : children.length = order.length) (hrun : IsRun entries n)
      (harray : (order.take n).map Prod.fst = (List.range' 1 n).map LuaKey.ofNat)
      (hnames : (children.drop n).map Node.name = (order.drop n).map fun e => e.1.text tostring)
      (hvalues : ∀ (i : Nat) (e : Entry) (c : Node), order[i]? = some e → children[i]? = some c → Represents tostring e.2 c) :
      Represents tostring (.table entries) (.table name n children)

/-- Strings without zero bytes, and tables in which every number that is a key is above the run or in it. -/
inductive Readable : LuaValue → Prop
  | string {s : List UInt8} (hs : 0 ∉ s) : Readable (.string s)
  | number (x : LuaNumber) : Readable (.number x)
  | table {entries : List Entry} {n : Nat} (hrun : IsRun entries n)
      (hstrings : ∀ s v, (LuaKey.string s, v) ∈ entries → 0 ∉ s)
      (hnumbers : ∀ x v, (LuaKey.number x, v) ∈ entries → x.gt n = true ∨ ∃ i, 1 ≤ i ∧ i ≤ n ∧ x = .finite i)
      (hvalues : ∀ e ∈ entries, Readable e.2) : Readable (.table entries)

/-- The keys of a Lua table are distinct, at every level. -/
inductive Proper : LuaValue → Prop
  | string (s : List UInt8) : Proper (.string s)
  | number (x : LuaNumber) : Proper (.number x)
  | table {entries : List Entry} (hnodup : (entries.map Prod.fst).Nodup) (hvalues : ∀ e ∈ entries, Proper e.2) :
      Proper (.table entries)

/-! ## C strings

A name in the tree is a C string, so it ends at the first zero byte. -/

/-- A string without a zero byte is not cut. -/
theorem cstr_eq (hs : 0 ∉ s) : cstr s = s := by
  unfold cstr
  apply List.takeWhile_eq_self_iff.mpr
  intro b hb
  apply decide_eq_true
  rintro rfl
  exact hs hb

/-- What is left has no zero byte, -/
theorem not_mem_cstr (s : List UInt8) : 0 ∉ cstr s := by
  intro h
  have hne := List.mem_takeWhile_imp h
  simp at hne

/-- and is not longer. -/
theorem length_cstr_le (s : List UInt8) : (cstr s).length ≤ s.length := (List.takeWhile_prefix _).length_le

/-- A string that is cut is shorter. -/
theorem cstr_of_length (h : (cstr s).length = s.length) : 0 ∉ s := by
  have heq : cstr s = s := (List.takeWhile_prefix _).eq_of_length h
  rw [← heq]
  exact not_mem_cstr s

/-! ## Keys

Indices of the array part, as keys of a table whose keys are distinct. -/

/-- Different indices are different keys. -/
theorem ofNat_inj {i j : Nat} (h : LuaKey.ofNat i = LuaKey.ofNat j) : i = j := by
  unfold LuaKey.ofNat at h
  injection h with h
  injection h with h
  exact Nat.cast_injective h

/-- An index that is not found is no key, -/
theorem rawgeti_none (h : rawgeti entries idx = none) : LuaKey.ofNat idx ∉ entries.map Prod.fst := by
  intro hmem
  obtain ⟨e, he, hkey⟩ := List.mem_map.mp hmem
  unfold rawgeti at h
  exact List.find?_eq_none.mp (Option.map_eq_none_iff.mp h) e he (decide_eq_true hkey)

/-- and one that is found has its value in the table. -/
theorem rawgeti_some (h : rawgeti entries idx = some v) : (LuaKey.ofNat idx, v) ∈ entries := by
  unfold rawgeti at h
  obtain ⟨e, he, rfl⟩ := Option.map_eq_some_iff.mp h
  have hfound := List.find?_some he
  have hkey : e.1 = LuaKey.ofNat idx := of_decide_eq_true hfound
  rw [← hkey]
  exact List.mem_of_find?_eq_some he

/-- The array part has one length. -/
theorem IsRun.unique {m : Nat} (h : IsRun entries n) (h' : IsRun entries m) : n = m := by
  rcases Nat.lt_trichotomy n m with hlt | heq | hlt
  · exact absurd (h'.1 (n + 1) (Nat.le_add_left 1 n) hlt) h.2
  · exact heq
  · exact absurd (h.1 (m + 1) (Nat.le_add_left 1 m) hlt) h'.2

/-- There are not more indices than entries. -/
theorem length_of_run (h : ∀ i, 1 ≤ i → i ≤ n → LuaKey.ofNat i ∈ entries.map Prod.fst) : n ≤ entries.length := by
  have hnodup : ((List.range' 1 n).map LuaKey.ofNat).Nodup :=
    List.Nodup.map (fun _ _ => ofNat_inj) List.nodup_range'
  have hsub : (List.range' 1 n).map LuaKey.ofNat ⊆ entries.map Prod.fst := by
    intro k hk
    obtain ⟨i, hi, rfl⟩ := List.mem_map.mp hk
    have hrange := List.mem_range'_1.mp hi
    exact h i hrange.1 (by omega)
  have hle := (hnodup.subperm hsub).length_le
  rw [List.length_map, List.length_range', List.length_map] at hle
  exact hle

/-- The run of a table ends. -/
theorem exists_run (entries : List Entry) : ∃ n, IsRun entries n ∧ n ≤ entries.length := by
  have hex : ∃ n, LuaKey.ofNat (n + 1) ∉ entries.map Prod.fst := by
    by_contra hall
    have hrun : ∀ i, 1 ≤ i → i ≤ entries.length + 1 → LuaKey.ofNat i ∈ entries.map Prod.fst := by
      intro i hi _
      by_contra hnot
      apply hall
      refine ⟨i - 1, ?_⟩
      rw [Nat.sub_add_cancel hi]
      exact hnot
    exact Nat.not_succ_le_self _ (length_of_run hrun)
  classical
  have hbefore : ∀ i, 1 ≤ i → i ≤ Nat.find hex → LuaKey.ofNat i ∈ entries.map Prod.fst := by
    intro i hi hle
    by_contra hnot
    have hmin := Nat.find_min hex (m := i - 1) (by omega)
    rw [Nat.sub_add_cancel hi] at hmin
    exact hmin hnot
  exact ⟨Nat.find hex, ⟨hbefore, Nat.find_spec hex⟩, length_of_run hbefore⟩

/-! ## Weights

The bytes of a tree, with one for every node. Reading can lose bytes, by a lost entry or a cut string, and can
never add any; so a tree of full weight lost nothing. -/

section Weight

variable (tostring)

mutual

/-- The number of entries and of the bytes of strings. -/
def LuaValue.weight : LuaValue → Nat
  | .string s => s.length
  | .number x => (tostring x).1.length
  | .table entries => entriesWeight entries

/-- The bytes of all entries of a table, -/
def entriesWeight : List (LuaKey × LuaValue) → Nat
  | [] => 0
  | e :: entries => entryWeight e + entriesWeight entries

/-- of one of them, -/
def entryWeight : LuaKey × LuaValue → Nat
  | (key, v) => (key.text tostring).length + (v.weight + 1)

end

mutual

/-- The same of a node: a child of the array part counts with its index. -/
def Node.weight : Node → Nat
  | .scalar _ value => value.length
  | .table _ n children =>
      ((List.range' 1 n).map fun i => ((LuaKey.ofNat i).text tostring).length).sum +
        ((children.drop n).map fun c => c.name.length).sum + nodesWeight children

/-- of the nodes of a tree, -/
def nodesWeight : List Node → Nat
  | [] => 0
  | c :: children => c.weight + 1 + nodesWeight children

end

/-- of the keys, -/
def keysWeight (entries : List Entry) : Nat := (entries.map fun e => (e.1.text tostring).length).sum

/-- and of the values. -/
def valuesWeight (entries : List Entry) : Nat := (entries.map fun e => e.2.weight tostring + 1).sum

end Weight

/-- A table weighs what its keys and its values weigh. -/
theorem entriesWeight_eq (entries : List Entry) :
    entriesWeight tostring entries = keysWeight tostring entries + valuesWeight tostring entries := by
  induction entries with
  | nil => rfl
  | cons e entries ih =>
      obtain ⟨key, v⟩ := e
      unfold entriesWeight entryWeight
      rw [ih]
      unfold keysWeight valuesWeight
      rw [List.map_cons, List.map_cons, List.sum_cons, List.sum_cons]
      dsimp only
      omega

/-- Nodes weigh what they weigh one by one. -/
theorem nodesWeight_eq (children : List Node) :
    nodesWeight tostring children = (children.map fun c => c.weight tostring + 1).sum := by
  induction children with
  | nil => rfl
  | cons c children ih =>
      unfold nodesWeight
      rw [ih, List.map_cons, List.sum_cons]

/-- Both are sums, of a list in two parts, -/
theorem keysWeight_append (es es' : List Entry) :
    keysWeight tostring (es ++ es') = keysWeight tostring es + keysWeight tostring es' := by
  unfold keysWeight
  rw [List.map_append, List.sum_append]

/-- the values too, -/
theorem valuesWeight_append (es es' : List Entry) :
    valuesWeight tostring (es ++ es') = valuesWeight tostring es + valuesWeight tostring es' := by
  unfold valuesWeight
  rw [List.map_append, List.sum_append]

/-- and in any order. -/
theorem entriesWeight_perm {es es' : List Entry} (h : es.Perm es') : entriesWeight tostring es = entriesWeight tostring es' := by
  rw [entriesWeight_eq, entriesWeight_eq]
  unfold keysWeight valuesWeight
  rw [(h.map _).sum_nat, (h.map fun e => e.2.weight tostring + 1).sum_nat]

/-- The weight of entries under the indices of a run. -/
theorem keysWeight_array {es : List Entry} (h : es.map Prod.fst = (List.range' 1 n).map LuaKey.ofNat) :
    keysWeight tostring es = ((List.range' 1 n).map fun i => ((LuaKey.ofNat i).text tostring).length).sum := by
  have hmap := congrArg (List.map fun key => (LuaKey.text tostring key).length) h
  rw [List.map_map, List.map_map] at hmap
  exact congrArg List.sum hmap

/-- **A node that has all of a value has its weight.** -/
theorem Represents.weight_eq (h : Represents tostring v c) : c.weight tostring = v.weight tostring := by
  -- by induction on the tree: every entry has its node, with the same text
  induction h with
  | string name s => simp only [Node.weight, LuaValue.weight]
  | number name x => simp only [Node.weight, LuaValue.weight]
  | @table entries order name n children hperm hlength _ harray hnames _ ih =>
      have hvalues : (children.map fun c => c.weight tostring + 1) = order.map fun e => e.2.weight tostring + 1 := by
        apply List.ext_getElem?
        intro i
        rw [List.getElem?_map, List.getElem?_map]
        cases he : order[i]? with
        | none =>
            rw [List.getElem?_eq_none (by rw [hlength]; exact List.getElem?_eq_none_iff.mp he)]
            rfl
        | some e =>
            have hi := (List.getElem?_eq_some_iff.mp he).1
            rw [← hlength] at hi
            have hc := List.getElem?_eq_getElem hi
            rw [hc, Option.map_some, Option.map_some, ih i e _ he hc]
      have hkeys : ((children.drop n).map fun c => c.name.length).sum = keysWeight tostring (order.drop n) := by
        have hmap := congrArg (List.map List.length) hnames
        rw [List.map_map, List.map_map] at hmap
        exact congrArg List.sum hmap
      simp only [Node.weight, LuaValue.weight]
      rw [entriesWeight_perm hperm, entriesWeight_eq, nodesWeight_eq, hvalues, hkeys, ← keysWeight_array harray,
        ← keysWeight_append, List.take_append_drop]
      rfl

/-! ## The loops

The first loop reads the array part until an index has no value, the second reads all pairs and skips those keys. -/

/-- What is made of a value under a name. -/
def readValue (tostring : LuaNumber → CString) (depth : Nat) : LuaValue → List UInt8 → Option Node
  | .string s, name => some (.scalar name (cstr s))
  | .number x, name => some (.scalar name (tostring x))
  | .table entries, name => readTable tostring depth entries name

/-- An element of the array part has no name, -/
theorem readElement_eq (v : LuaValue) : readElement tostring (readTable tostring depth) v = readValue tostring depth v [] := by
  cases v <;> rfl

/-- and any other entry has its key, cut to a C string. -/
theorem readNode_eq (key : LuaKey) (v : LuaValue) :
    readNode tostring (readTable tostring depth) key v = readValue tostring depth v (cstr (key.text tostring)) := by
  cases v <;> rfl

/-- The entries of the array part. -/
theorem exists_array (hrun : ∀ i, 1 ≤ i → i ≤ n → LuaKey.ofNat i ∈ entries.map Prod.fst) :
    ∃ array : List Entry, array.map Prod.fst = (List.range' 1 n).map LuaKey.ofNat ∧ array ⊆ entries ∧
      ∀ j (hj : j < array.length), rawgeti entries (1 + j) = some array[j].2 := by
  refine ⟨(List.range' 1 n).map fun i => (LuaKey.ofNat i, (rawgeti entries i).getD (.string [])), ?_, ?_, ?_⟩
  · rw [List.map_map]
    rfl
  · intro e he
    obtain ⟨i, hi, rfl⟩ := List.mem_map.mp he
    have hrange := List.mem_range'_1.mp hi
    cases hget : rawgeti entries i with
    | none => exact absurd (hrun i hrange.1 (by omega)) (rawgeti_none hget)
    | some v => exact rawgeti_some hget
  · intro j hj
    rw [List.length_map, List.length_range'] at hj
    simp only [List.getElem_map, List.getElem_range', Nat.one_mul]
    cases hget : rawgeti entries (1 + j) with
    | none => exact absurd (hrun (1 + j) (Nat.le_add_right 1 j) (by omega)) (rawgeti_none hget)
    | some v => rfl

/-- The first loop reads the elements of the run in order and stops behind it, by induction on the run. -/
theorem arrayLoop_eq {read : LuaValue → Option Node} {array : List Entry} {nodes children : List Node} {fuel : Nat}
    (hnodes : List.Forall₂ (fun e c => read e.2 = some c) array nodes)
    (hget : ∀ j (hj : j < array.length), rawgeti entries (idx + j) = some array[j].2)
    (hend : rawgeti entries (idx + array.length) = none) (hfuel : array.length < fuel) :
    arrayLoop read entries fuel idx children = some (idx + array.length, children ++ nodes) := by
  induction hnodes generalizing fuel idx children with
  | nil =>
      obtain ⟨fuel, rfl⟩ := Nat.exists_eq_succ_of_ne_zero (Nat.ne_of_gt hfuel)
      unfold arrayLoop
      have hstop : rawgeti entries idx = none := hend
      rw [hstop, List.append_nil]
      rfl
  | @cons e c array nodes hec _ ih =>
      obtain ⟨fuel, rfl⟩ := Nat.exists_eq_succ_of_ne_zero (Nat.ne_of_gt (Nat.zero_lt_of_lt hfuel))
      have hfirst : rawgeti entries idx = some e.2 := hget 0 (Nat.zero_lt_succ _)
      have hrest := @ih (idx + 1) (children ++ [c]) fuel ?_ ?_ (Nat.lt_of_succ_lt_succ hfuel)
      · unfold arrayLoop
        rw [hfirst]
        dsimp only
        rw [hec]
        dsimp only
        rw [hrest, List.append_assoc, List.length_cons, Nat.add_assoc, Nat.add_comm 1]
        rfl
      · intro j hj
        rw [Nat.add_assoc, Nat.add_comm 1]
        exact hget (j + 1) (Nat.succ_lt_succ hj)
      · rw [Nat.add_assoc, Nat.add_comm 1]
        exact hend

/-- The second reads the entries that it does not skip, in the order of the table. -/
theorem hashLoop_eq {read : LuaKey → LuaValue → Option Node} {nodes children : List Node}
    (hnodes : List.Forall₂ (fun e c => read e.1 e.2 = some c) (entries.filter fun e => e.1.isHash n) nodes) :
    hashLoop read n entries children = some (children ++ nodes) := by
  induction entries generalizing nodes children with
  | nil =>
      cases hnodes
      rw [List.append_nil]
      rfl
  | cons e entries ih =>
      obtain ⟨key, v⟩ := e
      unfold hashLoop
      by_cases hkey : key.isHash n = true
      · rw [List.filter_cons_of_pos (by exact hkey)] at hnodes
        cases hnodes with
        | @cons _ c _ nodes hc hrest =>
            dsimp only at hc
            rw [if_pos hkey, hc]
            dsimp only
            rw [ih hrest, List.append_assoc]
            rfl
      · rw [List.filter_cons_of_neg (by exact hkey)] at hnodes
        rw [if_neg hkey]
        exact ih hnodes

/-! ## The parts of a table

The array part, what the second loop reads, and what neither of them does. -/

/-- The keys of the array part. -/
def arrayKeys (n : Nat) : List LuaKey := (List.range' 1 n).map LuaKey.ofNat

/-- An index of the array part is skipped by the second loop. -/
theorem isHash_of_mem_arrayKeys (h : key ∈ arrayKeys n) : key.isHash n = false := by
  obtain ⟨i, hi, rfl⟩ := List.mem_map.mp h
  have hrange := List.mem_range'_1.mp hi
  have hle : (i : ℚ) ≤ (n : ℚ) := Nat.cast_le.mpr (by omega)
  exact decide_eq_false (not_lt_of_ge hle)

/-- The entries that both loops leave out. -/
def lost (n : Nat) (entries : List Entry) : List Entry :=
  entries.filter fun e => !(e.1.isHash n) && !(decide (e.1 ∈ arrayKeys n))

/-- **The entries are the array part, those that the second loop reads, and the lost ones.** -/
theorem entries_perm {array : List Entry} (hnodup : (entries.map Prod.fst).Nodup) (harray : array.map Prod.fst = arrayKeys n)
    (hsub : array ⊆ entries) : entries.Perm (array ++ ((entries.filter fun e => e.1.isHash n) ++ lost n entries)) := by
  have hentries : entries.Nodup := List.Nodup.of_map _ hnodup
  have harrayNodup : array.Nodup := by
    apply List.Nodup.of_map Prod.fst
    rw [harray]
    exact List.Nodup.map (fun _ _ => ofNat_inj) List.nodup_range'
  -- the array part is the entries whose keys are its indices
  have hmem : ∀ e, e ∈ array ↔ e ∈ entries ∧ e.1 ∈ arrayKeys n := by
    intro e
    constructor
    · intro he
      refine ⟨hsub he, ?_⟩
      rw [← harray]
      exact List.mem_map_of_mem he
    · rintro ⟨he, hkey⟩
      rw [← harray] at hkey
      obtain ⟨e', he', hkey'⟩ := List.mem_map.mp hkey
      rw [← List.inj_on_of_nodup_map hnodup (hsub he') he hkey']
      exact he'
  have hfirst : array.Perm (entries.filter fun e => decide (e.1 ∈ arrayKeys n)) := by
    apply (List.perm_ext_iff_of_nodup harrayNodup (hentries.filter _)).mpr
    intro e
    rw [hmem, List.mem_filter, decide_eq_true_iff]
  -- the others are read by the second loop, or lost
  have hrest : (entries.filter fun e => !(decide (e.1 ∈ arrayKeys n))).Perm
      ((entries.filter fun e => e.1.isHash n) ++ lost n entries) := by
    have hsplit := (List.filter_append_perm (fun e : Entry => e.1.isHash n)
      (entries.filter fun e => !(decide (e.1 ∈ arrayKeys n)))).symm
    rw [List.filter_filter, List.filter_filter] at hsplit
    have hhash : entries.filter (fun e => e.1.isHash n && !(decide (e.1 ∈ arrayKeys n))) =
        entries.filter fun e => e.1.isHash n := by
      apply List.filter_congr
      intro e _
      by_cases hkey : e.1 ∈ arrayKeys n
      · rw [isHash_of_mem_arrayKeys hkey]
        rfl
      · rw [decide_eq_false hkey, Bool.not_false, Bool.and_true]
    rw [hhash] at hsplit
    exact hsplit
  have hall := (List.filter_append_perm (fun e : Entry => decide (e.1 ∈ arrayKeys n)) entries).symm
  exact hall.trans (List.Perm.append hfirst.symm hrest)

/-- Nothing is lost when every number is above the run or in it. -/
theorem lost_eq_nil (hnumbers : ∀ x v, (LuaKey.number x, v) ∈ entries → x.gt n = true ∨ ∃ i, 1 ≤ i ∧ i ≤ n ∧ x = .finite (i : Nat)) :
    lost n entries = [] := by
  apply List.filter_eq_nil_iff.mpr
  rintro ⟨key, v⟩ he
  cases key with
  | string s => simp [LuaKey.isHash]
  | number x =>
      rcases hnumbers x v he with hgt | ⟨i, hi, hin, rfl⟩
      · simp [LuaKey.isHash, hgt]
      · have hkey : LuaKey.number (.finite i) ∈ arrayKeys n :=
          List.mem_map.mpr ⟨i, List.mem_range'_1.mpr ⟨hi, by omega⟩, rfl⟩
        simp [hkey]

/-! ## The result

What the two loops make of a table (`TableRead`), how much of its weight that has, and when it is all of it. -/

/-- What `read_table` makes of a value. -/
structure ReadAs (tostring : LuaNumber → CString) (v : LuaValue) (name : List UInt8) (c : Node) : Prop where
  reads : ∃ depth, ∀ d ≥ depth, readValue tostring d v name = some c
  name_eq : c.name = name
  weight_le : c.weight tostring ≤ v.weight tostring
  readable : c.weight tostring = v.weight tostring → Readable v
  represents : Readable v → Represents tostring v c

/-- A string is read as the C string it begins with, -/
theorem readAs_string (name s : List UInt8) : ReadAs tostring (.string s) name (.scalar name (cstr s)) where
  reads := ⟨0, fun _ _ => rfl⟩
  name_eq := rfl
  weight_le := by
    simp only [Node.weight, LuaValue.weight]
    exact length_cstr_le s
  readable := by
    intro h
    simp only [Node.weight, LuaValue.weight] at h
    exact Readable.string (cstr_of_length h)
  represents := by
    intro h
    cases h with
    | string hs =>
        rw [cstr_eq hs]
        exact Represents.string name s

/-- and a number as its text. -/
theorem readAs_number (name : List UInt8) (x : LuaNumber) : ReadAs tostring (.number x) name (.scalar name (tostring x)) where
  reads := ⟨0, fun _ _ => rfl⟩
  name_eq := rfl
  weight_le := by simp only [Node.weight, LuaValue.weight, Nat.le_refl]
  readable := fun _ => Readable.number x
  represents := fun _ => Represents.number name x

/-- The two parts of a table with what is made of their values. -/
structure TableRead (tostring : LuaNumber → CString) (entries : List Entry) (n : Nat) (array : List Entry)
    (arrayNodes hashNodes : List Node) : Prop where
  nodup : (entries.map Prod.fst).Nodup
  run : IsRun entries n
  len : n ≤ entries.length
  keys : array.map Prod.fst = arrayKeys n
  subset : array ⊆ entries
  get : ∀ j (hj : j < array.length), rawgeti entries (1 + j) = some array[j].2
  array : List.Forall₂ (fun e c => ReadAs tostring e.2 [] c) array arrayNodes
  hash : List.Forall₂ (fun e c => ReadAs tostring e.2 (cstr (e.1.text tostring)) c) (entries.filter fun e => e.1.isHash n) hashNodes

namespace TableRead

variable {array : List Entry} {arrayNodes hashNodes : List Node}

/-- The entries are those that were read and those that were lost. -/
theorem perm (h : TableRead tostring entries n array arrayNodes hashNodes) :
    entries.Perm (array ++ ((entries.filter fun e => e.1.isHash n) ++ lost n entries)) :=
  entries_perm h.nodup h.keys h.subset

/-- The array part is as long as the run, -/
theorem array_length (h : TableRead tostring entries n array arrayNodes hashNodes) : array.length = n := by
  have hmap := congrArg List.length h.keys
  rw [List.length_map, arrayKeys, List.length_map, List.length_range'] at hmap
  exact hmap

/-- it has as many nodes, -/
theorem arrayNodes_length (h : TableRead tostring entries n array arrayNodes hashNodes) : arrayNodes.length = n :=
  h.array.length_eq.symm.trans h.array_length

/-- and the nodes of the other entries stand behind them. -/
theorem drop_nodes (h : TableRead tostring entries n array arrayNodes hashNodes) :
    (arrayNodes ++ hashNodes).drop n = hashNodes := by
  rw [← h.arrayNodes_length, List.drop_left]

/-- With enough fuel the two loops return. -/
theorem reads (h : TableRead tostring entries n array arrayNodes hashNodes) (hname : 0 ∉ name) :
    ∃ depth, ∀ d ≥ depth, readTable tostring d entries name = some (.table name n (arrayNodes ++ hashNodes)) := by
  obtain ⟨d₁, h₁⟩ := forall₂_bound (h.array.imp fun _ _ h => h.reads)
  obtain ⟨d₂, h₂⟩ := forall₂_bound (h.hash.imp fun _ _ h => h.reads)
  refine ⟨max d₁ d₂ + 1, ?_⟩
  intro d hd
  obtain ⟨d, rfl⟩ := Nat.exists_eq_succ_of_ne_zero (Nat.ne_of_gt (Nat.zero_lt_of_lt hd))
  have hd' := Nat.le_of_succ_le_succ hd
  -- the two loops, deep enough for all values
  have hloop₁ : arrayLoop (readElement tostring (readTable tostring d)) entries (entries.length + 1) 1 [] =
      some (1 + array.length, [] ++ arrayNodes) := by
    apply arrayLoop_eq
    · refine (h₁ d (Nat.le_trans (Nat.le_max_left _ _) hd')).imp ?_
      intro e c hc
      rw [readElement_eq]
      exact hc
    · exact h.get
    · -- the loop ends behind the run
      cases hend : rawgeti entries (1 + array.length) with
      | none => rfl
      | some v =>
          exfalso
          apply h.run.2
          rw [h.array_length, Nat.add_comm] at hend
          exact List.mem_map_of_mem (rawgeti_some hend)
    · rw [h.array_length]
      exact Nat.lt_succ_of_le h.len
  have hloop₂ : hashLoop (readNode tostring (readTable tostring d)) n entries arrayNodes = some (arrayNodes ++ hashNodes) := by
    apply hashLoop_eq
    refine (h₂ d (Nat.le_trans (Nat.le_max_right _ _) hd')).imp ?_
    intro e c hc
    rw [readNode_eq]
    exact hc
  unfold readTable
  rw [hloop₁]
  dsimp only
  rw [List.nil_append, Nat.add_sub_cancel_left, h.array_length, hloop₂, h.arrayNodes_length, cstr_eq hname]
  rfl

/-- The weight of the entries, part by part. -/
theorem weight_value (h : TableRead tostring entries n array arrayNodes hashNodes) :
    (LuaValue.table entries).weight tostring = keysWeight tostring array + valuesWeight tostring array +
      (keysWeight tostring (entries.filter fun e => e.1.isHash n) + valuesWeight tostring (entries.filter fun e => e.1.isHash n)) +
      (keysWeight tostring (lost n entries) + valuesWeight tostring (lost n entries)) := by
  simp only [LuaValue.weight]
  rw [entriesWeight_perm h.perm, entriesWeight_eq, keysWeight_append, keysWeight_append, valuesWeight_append,
    valuesWeight_append]
  omega

/-- The weight of the node, part by part. -/
theorem weight_node (h : TableRead tostring entries n array arrayNodes hashNodes) (name : List UInt8) :
    (Node.table name n (arrayNodes ++ hashNodes)).weight tostring = keysWeight tostring array +
      (hashNodes.map fun c => c.name.length).sum + ((arrayNodes.map fun c => c.weight tostring + 1).sum +
        (hashNodes.map fun c => c.weight tostring + 1).sum) := by
  simp only [Node.weight]
  rw [h.drop_nodes, nodesWeight_eq, List.map_append, List.sum_append, keysWeight_array h.keys]

/-- A value's node weighs no more than the value, -/
theorem le_of_readAs {e : Entry} (hc : ReadAs tostring e.2 name c) : c.weight tostring + 1 ≤ e.2.weight tostring + 1 :=
  Nat.succ_le_succ hc.weight_le

/-- its name is no longer than the key, -/
theorem name_le {e : Entry} (hc : ReadAs tostring e.2 (cstr (e.1.text tostring)) c) :
    c.name.length ≤ (e.1.text tostring).length := by
  rw [hc.name_eq]
  exact length_cstr_le _

/-- and so the table's node weighs no more than the table. -/
theorem weight_le (h : TableRead tostring entries n array arrayNodes hashNodes) (name : List UInt8) :
    (Node.table name n (arrayNodes ++ hashNodes)).weight tostring ≤ (LuaValue.table entries).weight tostring := by
  have hsumArray := sum_le_of_forall₂ h.array fun _ _ => le_of_readAs
  have hsumHash := sum_le_of_forall₂ h.hash fun _ _ => le_of_readAs
  have hsumName := sum_le_of_forall₂ h.hash fun _ _ => name_le
  rw [h.weight_value, h.weight_node]
  unfold keysWeight valuesWeight at *
  omega

/-- **Nothing is lost or cut when the weights are the same.** -/
theorem readable (h : TableRead tostring entries n array arrayNodes hashNodes)
    (heq : (Node.table name n (arrayNodes ++ hashNodes)).weight tostring = (LuaValue.table entries).weight tostring) :
    Readable (.table entries) := by
  have hsumArray := sum_le_of_forall₂ h.array fun _ _ => le_of_readAs
  have hsumHash := sum_le_of_forall₂ h.hash fun _ _ => le_of_readAs
  have hsumName := sum_le_of_forall₂ h.hash fun _ _ => name_le
  rw [h.weight_value, h.weight_node] at heq
  unfold keysWeight valuesWeight at heq
  -- nothing is lost, since every entry has a weight
  have hlost : lost n entries = [] := by
    cases hcase : lost n entries with
    | nil => rfl
    | cons e es =>
        exfalso
        rw [hcase, List.map_cons, List.map_cons, List.sum_cons, List.sum_cons] at heq
        omega
  have heqArray := exists_eq_of_sum_eq h.array (fun _ _ => le_of_readAs) (by omega)
  have heqHash := exists_eq_of_sum_eq h.hash (fun _ _ => le_of_readAs) (by omega)
  have heqName := exists_eq_of_sum_eq h.hash (fun _ _ => name_le) (by omega)
  -- so every entry was read in one of the loops
  have hcases : ∀ e ∈ entries, e ∈ array ∨ e ∈ entries.filter fun e => e.1.isHash n := by
    intro e he
    have he' := h.perm.mem_iff.mp he
    rw [hlost, List.append_nil] at he'
    exact List.mem_append.mp he'
  have harrayKey : ∀ e ∈ array, ∃ i, 1 ≤ i ∧ i ≤ n ∧ e.1 = LuaKey.ofNat i := by
    intro e he
    have hkey : e.1 ∈ arrayKeys n := by
      rw [← h.keys]
      exact List.mem_map_of_mem he
    obtain ⟨i, hi, hei⟩ := List.mem_map.mp hkey
    have hrange := List.mem_range'_1.mp hi
    exact ⟨i, hrange.1, by omega, hei.symm⟩
  refine Readable.table h.run ?_ ?_ ?_
  · -- a string that is a key names its node, uncut
    intro s v he
    rcases hcases _ he with he | he
    · obtain ⟨i, -, -, hkey⟩ := harrayKey _ he
      cases hkey
    · obtain ⟨c, hc, hlength⟩ := heqName _ he
      rw [hc.name_eq] at hlength
      exact cstr_of_length hlength
  -- a number was read by the second loop or is an index
  · intro x v he
    rcases hcases _ he with he | he
    · obtain ⟨i, hi, hin, hkey⟩ := harrayKey _ he
      injection hkey with hx
      exact Or.inr ⟨i, hi, hin, hx⟩
    · exact Or.inl (List.mem_filter.mp he).2
  · intro e he
    rcases hcases e he with he | he
    · obtain ⟨c, hc, hweight⟩ := heqArray e he
      exact hc.readable (Nat.succ_injective hweight)
    · obtain ⟨c, hc, hweight⟩ := heqHash e he
      exact hc.readable (Nat.succ_injective hweight)

/-- A table that can be read completely is. -/
theorem represents (h : TableRead tostring entries n array arrayNodes hashNodes) (hreadable : Readable (.table entries)) :
    Represents tostring (.table entries) (.table name n (arrayNodes ++ hashNodes)) := by
  cases hreadable with
  | @table _ n' hrun hstrings hnumbers hvalues =>
      obtain rfl := h.run.unique hrun
      have hperm := h.perm
      rw [lost_eq_nil hnumbers, List.append_nil] at hperm
      have hboth : List.Forall₂ (fun (e : Entry) c => e ∈ entries → Represents tostring e.2 c)
          (array ++ entries.filter fun e => e.1.isHash n) (arrayNodes ++ hashNodes) :=
        List.rel_append (h.array.imp fun _ _ h he => h.represents (hvalues _ he))
          (h.hash.imp fun _ _ h he => h.represents (hvalues _ he))
      refine Represents.table hperm hboth.length_eq.symm hrun ?_ ?_ ?_
      · rw [List.take_left' h.array_length]
        exact h.keys
      · -- no name is cut
        rw [h.drop_nodes, List.drop_left' h.array_length]
        have hnames : List.Forall₂ (fun (e : Entry) (c : Node) => e ∈ entries → c.name = e.1.text tostring)
            (entries.filter fun e => e.1.isHash n) hashNodes := by
          refine h.hash.imp ?_
          rintro ⟨key, v⟩ c h he
          rw [h.name_eq]
          apply cstr_eq
          cases key with
          | string s => exact hstrings s v he
          | number x => exact (tostring x).2
        exact map_eq_of_forall₂ hnames fun _ _ he hec => hec (List.mem_filter.mp he).1
      · intro i e c he hc
        have hmem := hperm.mem_iff.mpr (List.mem_of_getElem? he)
        have hrel := Lib.forall₂_getElem? hboth i
        rw [he, hc] at hrel
        cases hrel with
        | some h => exact h hmem

/-- **What is made of a table**, from what is made of its values. -/
theorem readAs (h : TableRead tostring entries n array arrayNodes hashNodes) (hname : 0 ∉ name) :
    ReadAs tostring (.table entries) name (.table name n (arrayNodes ++ hashNodes)) where
  reads := h.reads hname
  name_eq := rfl
  weight_le := h.weight_le name
  readable := h.readable
  represents := h.represents

end TableRead

/-- **Everything is read**, into some node. -/
theorem exists_readAs (hv : Proper v) : ∀ name, 0 ∉ name → ∃ c, ReadAs tostring v name c := by
  induction hv with
  | string s => exact fun name _ => ⟨_, readAs_string name s⟩
  | number x => exact fun name _ => ⟨_, readAs_number name x⟩
  | @table entries hnodup _ ih =>
      intro name hname
      obtain ⟨n, hrun, hlen⟩ := exists_run entries
      obtain ⟨array, hkeys, hsub, hget⟩ := exists_array hrun.1
      have harray : ∀ e ∈ array, ∃ c, ReadAs tostring e.2 [] c :=
        fun e he => ih e (hsub he) [] List.not_mem_nil
      have hhash : ∀ e ∈ entries.filter (fun e => e.1.isHash n), ∃ c, ReadAs tostring e.2 (cstr (e.1.text tostring)) c :=
        fun e he => ih e (List.mem_filter.mp he).1 _ (not_mem_cstr _)
      obtain ⟨arrayNodes, harrayNodes⟩ := exists_forall₂ harray
      obtain ⟨hashNodes, hhashNodes⟩ := exists_forall₂ hhash
      have hparts : TableRead tostring entries n array arrayNodes hashNodes :=
        ⟨hnodup, hrun, hlen, hkeys, hsub, hget, harrayNodes, hhashNodes⟩
      exact ⟨_, hparts.readAs hname⟩

/-- **`read_table` reads every entry of a table if and only if the table is readable.** -/
theorem represents_iff_readable (tostring : LuaNumber → CString) {entries : List Entry} (h : Proper (.table entries))
    {name : List UInt8} (hname : 0 ∉ name) :
    ∃ depth node, (∀ d ≥ depth, readTable tostring d entries name = some node) ∧ node.name = name ∧
      (Represents tostring (.table entries) node ↔ Readable (.table entries)) := by
  obtain ⟨node, hread⟩ := exists_readAs h name hname
  obtain ⟨depth, hdepth⟩ := hread.reads
  exact ⟨depth, node, hdepth, hread.name_eq, fun hrep => hread.readable hrep.weight_eq, hread.represents⟩

/-- `{ 'x', k = {} }`. -/
theorem represents_nested :
    ∃ depth node, ∀ d ≥ depth,
      readTable (fun _ => ⟨[49], by decide⟩) d [(.ofNat 1, .string [120]), (.string [107], .table [])] [] = some node ∧
        Represents (fun _ => ⟨[49], by decide⟩) (.table [(.ofNat 1, .string [120]), (.string [107], .table [])]) node := by
  have hempty : IsRun [] 0 := ⟨fun i hi hle => absurd (Nat.le_trans hi hle) (Nat.not_succ_le_zero 0), List.not_mem_nil⟩
  have hrun : IsRun [(.ofNat 1, .string [120]), (.string [107], .table [])] 1 := by
    refine ⟨?_, by simp [LuaKey.ofNat]⟩
    intro i hi hle
    obtain rfl := Nat.le_antisymm hle hi
    exact List.mem_cons_self
  have hproper : Proper (.table [(.ofNat 1, .string [120]), (.string [107], .table [])]) := by
    refine Proper.table (by simp [LuaKey.ofNat]) ?_
    rintro e (_ | ⟨_, _ | ⟨_, he⟩⟩)
    · exact Proper.string _
    · exact Proper.table List.nodup_nil fun e he => absurd he List.not_mem_nil
    · cases he
  have hreadable : Readable (.table [(.ofNat 1, .string [120]), (.string [107], .table [])]) := by
    refine Readable.table hrun ?_ ?_ ?_
    · rintro s v (_ | ⟨_, _ | ⟨_, he⟩⟩)
      · decide
      · cases he
    · rintro x v (_ | ⟨_, _ | ⟨_, he⟩⟩)
      · exact Or.inr ⟨1, Nat.le_refl 1, Nat.le_refl 1, rfl⟩
      · cases he
    · rintro e (_ | ⟨_, _ | ⟨_, he⟩⟩)
      · exact Readable.string (by decide)
      · exact Readable.table hempty (fun _ _ he => absurd he List.not_mem_nil) (fun _ _ he => absurd he List.not_mem_nil)
          fun _ he => absurd he List.not_mem_nil
      · cases he
  obtain ⟨depth, node, hread, _, hiff⟩ :=
    @represents_iff_readable (fun _ => ⟨[49], by decide⟩) _ hproper [] List.not_mem_nil
  exact ⟨depth, node, fun d hd => ⟨hread d hd, hiff.mpr hreadable⟩⟩

/-- `{ [0] = 'a' }` is read as an empty table. -/
theorem zeroKey_lost :
    readTable (fun _ => ⟨[48], by decide⟩) 1 [(.ofNat 0, .string [97])] [] = some (.table [] 0 []) ∧
      ¬ Represents (fun _ => ⟨[48], by decide⟩) (.table [(.ofNat 0, .string [97])]) (.table [] 0 []) := by
  constructor
  · simp [readTable, arrayLoop, rawgeti, hashLoop, LuaKey.isHash, LuaNumber.gt, LuaKey.ofNat, cstr]
  · intro h
    cases h with
    | table hperm hlength =>
        have hlen := hperm.length_eq
        rw [← hlength] at hlen
        cases hlen

end LConf
end Snippets
