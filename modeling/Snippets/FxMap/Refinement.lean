import Mathlib.Data.Finset.Card
import Mathlib.Data.Fintype.Basic
import Snippets.FxMap.ListJudy

/-!
# `FxMap.Refinement` — a map over a Judy array is a finite map

Every word of the array is the address of a value of its own (`Owned`), so what the map has under a key is read off the
array and the heap (`contents`). The iterator goes through the array in the order of the indices. The member `size_` counts
the insertions and the erasures; `clear` empties the array and leaves it alone, so `size_` is the number of the keys as long
as `clear` finds nothing to remove.
-/

namespace Snippets

open Lib

namespace FxMap

variable {Arr K V : Type} [DecidableEq Arr] [Inhabited V] {J : JudyL Arr} {conv : K → Word} {t t' : FxMap Arr V}
  {i j : Word} {k : K} {v : V} {p : Nat}

/-- **The array and the heap.** What the array holds are addresses of values that are there, no two indices share one, and every
    index is that of a key. -/
structure Owned (J : JudyL Arr) (conv : K → Word) (t : FxMap Arr V) : Prop where
  entry : ∀ i p, J.jlg t.arr i = some p → 0 < p ∧ p < t.fresh ∧ (t.heap p).isSome
  inj : ∀ i j p, J.jlg t.arr i = some p → J.jlg t.arr j = some p → i = j
  keyed : ∀ i, (J.jlg t.arr i).isSome → ∃ k, conv k = i
  fresh_pos : 0 < t.fresh

/-- The value at an index. -/
def valueAt (J : JudyL Arr) (t : FxMap Arr V) (i : Word) : Option V := (J.jlg t.arr i).bind t.heap

/-- The map that the array and the heap are. -/
def contents (J : JudyL Arr) (conv : K → Word) (t : FxMap Arr V) : KeyMap K (K × V) :=
  fun k => (valueAt J t (conv k)).map fun v => (k, v)

omit [DecidableEq Arr] [Inhabited V] in
/-- An index has a value exactly if the array has it, since every word of the array is the address of a value. -/
theorem valueAt_none (hown : Owned J conv t) : valueAt J t i = none ↔ J.jlg t.arr i = none := by
  unfold valueAt
  cases h : J.jlg t.arr i with
  | none => simp
  | some p =>
      have hsome := (hown.entry i p h).2.2
      rw [Option.bind_some]
      constructor
      · intro hnone
        rw [hnone] at hsome
        cases hsome
      · intro hnone
        cases hnone

omit [DecidableEq Arr] [Inhabited V] in
/-- A word of the array leads to a value. -/
theorem valueAt_some (h : valueAt J t i = some v) : ∃ p, J.jlg t.arr i = some p ∧ t.heap p = some v :=
  Option.bind_eq_some_iff.mp h

omit [DecidableEq Arr] in
/-- An array with an index is not `NULL`. -/
theorem ne_null (hJ : J.Correct) {a : Arr} (h : (J.jlg a i).isSome) : a ≠ J.null := by
  intro hnull
  rw [(hJ.null_iff a).mp hnull i] at h
  cases h

/-- An iterator that was reset is at the end. -/
theorem isEnd_reset : isEnd J (reset J : Iter Arr V) = true := by
  simp [isEnd, reset]

omit [Inhabited V] in
/-- An iterator at an index of the array is not `end()`, although `end()` too stands at the index 0. -/
theorem isEnd_at (hJ : J.Correct) {a : Arr} (h : (J.jlg a i).isSome) (v : V) : isEnd J ⟨a, i, v⟩ = false := by
  simp [isEnd, ne_null hJ h]

/-! ## `find`

A lookup converts the key and asks the array. -/

omit [DecidableEq Arr] in
/-- **`find`**: the iterator at the key, or `end()`. -/
theorem find_eq (hown : Owned J conv t) (k : K) : t.find J conv k =
    some (match valueAt J t (conv k) with
      | some v => ⟨t.arr, conv k, v⟩
      | none => reset J) := by
  unfold find valueAt
  cases h : J.jlg t.arr (conv k) with
  | none => rfl
  | some p =>
      obtain ⟨v, hv⟩ := Option.isSome_iff_exists.mp (hown.entry _ p h).2.2
      simp only [Option.bind_some, hv, Option.map_some]

omit [DecidableEq Arr] [Inhabited V] in
/-- Nothing under the word, -/
theorem contents_none (h : valueAt J t (conv k) = none) : contents J conv t k = none := by
  unfold contents
  rw [h]
  rfl

omit [DecidableEq Arr] [Inhabited V] in
/-- and something. -/
theorem contents_some (h : valueAt J t (conv k) = some v) : contents J conv t k = some (k, v) := by
  unfold contents
  rw [h]
  rfl

/-- What the iterator of `find` points to is what the map has under the key. -/
theorem pointed_find (hJ : J.Correct) (hown : Owned J conv t) (k : K) :
    (t.find J conv k).map (pointed J k) = some (contents J conv t k) := by
  rw [find_eq hown, Option.map_some]
  cases h : valueAt J t (conv k) with
  | none =>
      rw [contents_none h]
      unfold pointed
      rw [if_pos isEnd_reset]
  | some v =>
      obtain ⟨p, hp, -⟩ := valueAt_some h
      have hend : isEnd J (⟨t.arr, conv k, v⟩ : Iter Arr V) = false := isEnd_at hJ (hp ▸ rfl) v
      rw [contents_some h]
      simp [pointed, hend]

/-! ## `insert`

A new value has a new address, which goes into the array under the key's word. -/

/-- A key that is there keeps its value: the iterator points to the old one. -/
theorem insert_old (hJ : J.Correct) (hown : Owned J conv t) {w : V} (h : valueAt J t (conv k) = some w) (v : V) :
    t.insert J conv k v = some (t, ⟨t.arr, conv k, w⟩, false) := by
  obtain ⟨p, hp, -⟩ := valueAt_some h
  have hend : isEnd J (⟨t.arr, conv k, w⟩ : Iter Arr V) = false := isEnd_at hJ (hp ▸ rfl) w
  unfold insert
  simp [find_eq hown, h, hend]

/-- **A new key** gets a value of its own. -/
theorem insert_new (hJ : J.Correct) (hown : Owned J conv t) (h : valueAt J t (conv k) = none) (v : V) :
    ∃ t' iter, t.insert J conv k v = some (t', iter, true) ∧ iter.val = v ∧ t'.size = (t.size + 1) % 2 ^ 64 ∧
      t'.fresh = t.fresh + 1 ∧ t'.heap = Function.update t.heap t.fresh (some v) ∧
      J.jlg t'.arr (conv k) = some t.fresh ∧ ∀ j ≠ conv k, J.jlg t'.arr j = J.jlg t.arr j := by
  have hnone := (valueAt_none hown).mp h
  obtain ⟨a, hins, hself, hothers⟩ := hJ.insert t.arr (conv k)
  rw [hnone, Option.getD_none] at hself
  refine ⟨⟨J.write a (conv k) t.fresh, (t.size + 1) % 2 ^ 64, Function.update t.heap t.fresh (some v), t.fresh + 1⟩,
    ⟨J.write a (conv k) t.fresh, conv k, v⟩, ?_, rfl, rfl, rfl, rfl, ?_, ?_⟩
  · unfold insert
    simp [find_eq hown, h, isEnd_reset, hins, hself]
  · exact hJ.write_self a (conv k) t.fresh (hself ▸ rfl)
  · intro j hj
    exact (hJ.write_ne a (conv k) t.fresh j hj).trans (hothers j hj)

section Inserted

variable (hown : Owned J conv t)
  (hheap : t'.heap = Function.update t.heap t.fresh (some v))
include hown hheap

omit [DecidableEq Arr] [Inhabited V] in
/-- An old address is not the new one. -/
theorem inserted_heap (h : J.jlg t.arr i = some p) : t'.heap p = t.heap p := by
  rw [hheap]
  apply Function.update_of_ne
  have := (hown.entry i p h).2.1
  omega

variable (hself : J.jlg t'.arr (conv k) = some t.fresh) (hothers : ∀ j ≠ conv k, J.jlg t'.arr j = J.jlg t.arr j)
include hself hothers

omit [DecidableEq Arr] [Inhabited V] in
/-- The new index takes an address that no other index has. -/
theorem inserted_owned (hfresh : t'.fresh = t.fresh + 1) : Owned J conv t' := by
  have hpos := hown.fresh_pos
  refine ⟨?_, ?_, ?_, by omega⟩
  · intro i p hp
    by_cases hi : i = conv k
    · rw [hi, hself, Option.some.injEq] at hp
      subst hp
      rw [hheap, Function.update_self]
      exact ⟨hpos, by omega, rfl⟩
    · rw [hothers i hi] at hp
      obtain ⟨h₁, h₂, h₃⟩ := hown.entry i p hp
      rw [inserted_heap hown hheap hp]
      exact ⟨h₁, by omega, h₃⟩
  · -- two indices with one address: an old address is below `fresh`, the new one is `fresh`
    intro i j p hi hj
    by_cases hik : i = conv k <;> by_cases hjk : j = conv k
    · rw [hik, hjk]
    · rw [hik, hself, Option.some.injEq] at hi
      rw [hothers j hjk] at hj
      have := (hown.entry j p hj).2.1
      omega
    · rw [hjk, hself, Option.some.injEq] at hj
      rw [hothers i hik] at hi
      have := (hown.entry i p hi).2.1
      omega
    · rw [hothers i hik] at hi
      rw [hothers j hjk] at hj
      exact hown.inj i j p hi hj
  · intro i hi
    by_cases hik : i = conv k
    · exact ⟨k, hik.symm⟩
    · rw [hothers i hik] at hi
      exact hown.keyed i hi

omit [DecidableEq Arr] [Inhabited V] in
/-- So the word has the value, and others have theirs. -/
theorem inserted_valueAt (i : Word) : valueAt J t' i = if i = conv k then some v else valueAt J t i := by
  by_cases hi : i = conv k
  · unfold valueAt
    rw [if_pos hi, hi, hself, Option.bind_some, hheap, Function.update_self]
  · unfold valueAt
    rw [if_neg hi, hothers i hi]
    cases h : J.jlg t.arr i with
    | none => rfl
    | some p =>
        rw [Option.bind_some, Option.bind_some]
        exact inserted_heap hown hheap h

end Inserted

/-! ## `erase`

The word goes from the array and its value from the heap. -/

/-- A key that is there is taken out of the array; its value stays where it is in the heap. -/
theorem erase_old (hJ : J.Correct) (hown : Owned J conv t) (h : valueAt J t (conv k) = some v) :
    t.erase J conv k = some (⟨(J.jld t.arr (conv k)).1, (t.size + (2 ^ 64 - 1)) % 2 ^ 64, t.heap, t.fresh⟩, 1) := by
  obtain ⟨p, hp, -⟩ := valueAt_some h
  have hsome : (J.jlg t.arr (conv k)).isSome := hp ▸ rfl
  have hend : isEnd J (⟨t.arr, conv k, v⟩ : Iter Arr V) = false := isEnd_at hJ hsome v
  have hret : (J.jld t.arr (conv k)).2 = 1 := by rw [hJ.deleted, if_pos hsome]
  unfold erase
  simp [find_eq hown, h, hend, eraseAt, valid, ne_null hJ hsome, hret]

/-- Nothing is there to be erased. -/
theorem erase_absent (hown : Owned J conv t) (h : valueAt J t (conv k) = none) : t.erase J conv k = some (t, 0) := by
  unfold erase
  simp [find_eq hown, h, isEnd_reset]

omit [DecidableEq Arr] [Inhabited V] in
/-- The array without an index, and the heap with at most the value of this index freed. -/
theorem deleted_owned (t' : FxMap Arr V) (hJ : J.Correct) (hown : Owned J conv t) (harr : t'.arr = (J.jld t.arr i).1)
    (hheap : ∀ j p, j ≠ i → J.jlg t.arr j = some p → t'.heap p = t.heap p) (hfresh : t'.fresh = t.fresh) :
    Owned J conv t' ∧ ∀ j, valueAt J t' j = if j = i then none else valueAt J t j := by
  have hself : J.jlg t'.arr i = none := harr ▸ hJ.delete_self t.arr i
  have hothers : ∀ j ≠ i, J.jlg t'.arr j = J.jlg t.arr j := by
    intro j hj
    rw [harr]
    exact hJ.delete_ne t.arr i j hj
  -- an index that is left was there before
  have hleft : ∀ j p, J.jlg t'.arr j = some p → j ≠ i ∧ J.jlg t.arr j = some p := by
    intro j p hp
    have hj : j ≠ i := by
      rintro rfl
      rw [hself] at hp
      cases hp
    exact ⟨hj, hothers j hj ▸ hp⟩
  -- the other words have their values still, and no two share one
  refine ⟨⟨?_, ?_, ?_, hfresh ▸ hown.fresh_pos⟩, ?_⟩
  · intro j p hp
    obtain ⟨hj, hp⟩ := hleft j p hp
    obtain ⟨h₁, h₂, h₃⟩ := hown.entry j p hp
    rw [hheap j p hj hp, hfresh]
    exact ⟨h₁, h₂, h₃⟩
  · intro j l p hj hl
    exact hown.inj j l p (hleft j p hj).2 (hleft l p hl).2
  · intro j hj
    obtain ⟨p, hp⟩ := Option.isSome_iff_exists.mp hj
    exact hown.keyed j (by rw [(hleft j p hp).2]; rfl)
  · intro j
    unfold valueAt
    by_cases hj : j = i
    · rw [if_pos hj, hj, hself]
      rfl
    · rw [if_neg hj, hothers j hj]
      cases h : J.jlg t.arr j with
      | none => rfl
      | some p => exact hheap j p hj h

/-! ## `clear`

It deletes word by word from the first one on, and forgets to set the size back. -/

omit [DecidableEq Arr] [Inhabited V] in
/-- The loop frees the values one after another; it never looks at `size_`. -/
theorem clearLoop_spec (hJ : J.Correct) (hown : Owned J conv t) {fuel : Nat} {cur : Option Word}
    (hcur : ∀ idx, cur = some idx → (J.jlg t.arr idx).isSome ∧ 2 ^ 64 - idx.val < fuel) (hfuel : 0 < fuel) :
    ∃ t', clearLoop J fuel t cur = some t' ∧ t'.size = t.size ∧ t'.fresh = t.fresh := by
  -- by induction on the words left, which are those from `cur` on
  induction fuel generalizing t cur with
  | zero => omega
  | succ fuel ih =>
      cases cur with
      | none => exact ⟨t, rfl, rfl, rfl⟩
      | some idx =>
          obtain ⟨hsome, hlt⟩ := hcur idx rfl
          obtain ⟨p, hp⟩ := Option.isSome_iff_exists.mp hsome
          obtain ⟨v, hv⟩ := Option.isSome_iff_exists.mp (hown.entry idx p hp).2.2
          have hidx := idx.isLt
          -- the loop goes on without this index and its value
          have hfreed : ∀ j q, j ≠ idx → J.jlg t.arr j = some q → Function.update t.heap p none q = t.heap q := by
            intro j q hj hq
            apply Function.update_of_ne
            rintro rfl
            exact hj (hown.inj j idx q hq hp)
          let rest : FxMap Arr V := ⟨(J.jld t.arr idx).1, t.size, Function.update t.heap p none, t.fresh⟩
          have hown' : Owned J conv rest := (deleted_owned rest hJ hown rfl hfreed rfl).1
          have hnext : ∀ idx', J.jln rest.arr idx = some idx' → (J.jlg rest.arr idx').isSome ∧ 2 ^ 64 - idx'.val < fuel := by
            intro idx' hidx'
            have hspec := hJ.next rest.arr idx
            rw [hidx'] at hspec
            have hlt' : idx.val < idx'.val := hspec.1
            exact ⟨hspec.2.1, by omega⟩
          obtain ⟨t', hloop, hsize, hfresh⟩ := ih hown' hnext (by omega)
          refine ⟨t', ?_, hsize, hfresh⟩
          rw [clearLoop]
          simp only [hp, hv, Option.bind_eq_bind, Option.bind_some]
          exact hloop

omit [DecidableEq Arr] [Inhabited V] in
/-- `clear` always comes to its end, and leaves an empty array behind. -/
theorem clear_spec (hJ : J.Correct) (hown : Owned J conv t) :
    ∃ t', t.clear J = some t' ∧ t'.size = t.size ∧ Owned J conv t' ∧ ∀ i, valueAt J t' i = none := by
  have hnull : ∀ i, J.jlg J.null i = none := (hJ.null_iff J.null).mp rfl
  have hstart : ∀ idx, J.jlf t.arr 0 = some idx → (J.jlg t.arr idx).isSome ∧ 2 ^ 64 - idx.val < 2 ^ 64 + 1 := by
    intro idx hidx
    have hspec := hJ.first t.arr 0
    rw [hidx] at hspec
    exact ⟨hspec.2.1, by omega⟩
  obtain ⟨t', hloop, hsize, hfresh⟩ := clearLoop_spec hJ hown hstart (Nat.succ_pos _)
  refine ⟨{ t' with arr := J.null }, ?_, hsize, ⟨?_, ?_, ?_, hfresh ▸ hown.fresh_pos⟩, ?_⟩
  · unfold clear
    rw [hloop]
    rfl
  · intro i p hp
    rw [hnull] at hp
    cases hp
  · intro i j p hi
    rw [hnull] at hi
    cases hi
  · intro i hi
    rw [hnull] at hi
    cases hi
  · intro i
    unfold valueAt
    rw [hnull]
    rfl

/-! ## Iterating

From word to word upwards, with the value at each. -/

/-- The list of a walk from an index on. -/
structure Walked (J : JudyL Arr) (t : FxMap Arr V) (i : Word) (ws : List (Word × V)) : Prop where
  sorted : ws.Pairwise fun a b => a.1 < b.1
  mem : ∀ j v, (j, v) ∈ ws ↔ i ≤ j ∧ valueAt J t j = some v

omit [DecidableEq Arr] [Inhabited V] in
/-- An iterator at a word of the array, -/
theorem iterAt_eq (hown : Owned J conv t) (h : (J.jlg t.arr i).isSome) :
    ∃ v, valueAt J t i = some v ∧ t.iterAt J t.arr i = some ⟨t.arr, i, v⟩ := by
  obtain ⟨p, hp⟩ := Option.isSome_iff_exists.mp h
  obtain ⟨v, hv⟩ := Option.isSome_iff_exists.mp (hown.entry i p hp).2.2
  refine ⟨v, ?_, ?_⟩
  · unfold valueAt
    rw [hp, Option.bind_some, hv]
  · unfold iterAt
    simp only [hp, hv, Option.bind_eq_bind, Option.bind_some]
    rfl

/-- and one at the end. -/
theorem walkFrom_end {fuel : Nat} (hfuel : 0 < fuel) : t.walkFrom J fuel (reset J : Iter Arr V) = some [] := by
  obtain ⟨fuel, rfl⟩ : ∃ f, fuel = f + 1 := ⟨fuel - 1, by omega⟩
  rw [walkFrom, if_pos isEnd_reset]

/-- **The iterator** from an index on. -/
theorem walkFrom_spec (hJ : J.Correct) (hown : Owned J conv t) {fuel : Nat} (hv : valueAt J t i = some v)
    (hfuel : 2 ^ 64 - i.val < fuel) : ∃ ws, t.walkFrom J fuel ⟨t.arr, i, v⟩ = some ws ∧ Walked J t i ws := by
  -- by induction on the words above
  induction fuel generalizing i v with
  | zero => omega
  | succ fuel ih =>
      have hi := i.isLt
      obtain ⟨p, hp, -⟩ := valueAt_some hv
      have hsome : (J.jlg t.arr i).isSome := hp ▸ rfl
      have hend : isEnd J (⟨t.arr, i, v⟩ : Iter Arr V) = false := isEnd_at hJ hsome v
      have hvalid : valid J (⟨t.arr, i, v⟩ : Iter Arr V) = true := by simp [valid, ne_null hJ hsome]
      have hspec := hJ.next t.arr i
      have hcons : ∀ iter' rest, t.advance J ⟨t.arr, i, v⟩ = some iter' → t.walkFrom J fuel iter' = some rest →
          t.walkFrom J (fuel + 1) ⟨t.arr, i, v⟩ = some ((i, v) :: rest) := by
        intro iter' rest hadv hrest
        rw [walkFrom, hend]
        simp only [Bool.false_eq_true, if_false, hadv, Option.bind_eq_bind, Option.bind_some, hrest]
        rfl
      cases hn : J.jln t.arr i with
      | none =>
          rw [hn] at hspec
          have hadv : t.advance J ⟨t.arr, i, v⟩ = some (reset J) := by
            unfold advance
            rw [if_pos hvalid]
            simp only [hn]
          refine ⟨[(i, v)], hcons _ _ hadv (walkFrom_end (by omega)), List.pairwise_singleton .., ?_⟩
          intro j w
          rw [List.mem_singleton, Prod.mk.injEq]
          constructor
          · rintro ⟨rfl, rfl⟩
            exact ⟨le_refl _, hv⟩
          · rintro ⟨hle, hw⟩
            rcases hle.lt_or_eq with hlt | rfl
            · obtain ⟨q, hq, -⟩ := valueAt_some hw
              rw [hspec j hlt] at hq
              cases hq
            · exact ⟨rfl, Option.some.inj (hw.symm.trans hv)⟩
      | some idx =>
          rw [hn] at hspec
          obtain ⟨hlt, hidx, hgap⟩ := hspec
          obtain ⟨w, hw, hiter⟩ := iterAt_eq hown hidx
          have hadv : t.advance J ⟨t.arr, i, v⟩ = some ⟨t.arr, idx, w⟩ := by
            unfold advance
            rw [if_pos hvalid]
            simp only [hn]
            exact hiter
          have hlt' : i.val < idx.val := hlt
          obtain ⟨ws, hws, hwalk⟩ := ih hw (by omega)
          refine ⟨(i, v) :: ws, hcons _ _ hadv hws, ?_, ?_⟩
          · refine List.pairwise_cons.mpr ⟨?_, hwalk.sorted⟩
            intro a ha
            exact lt_of_lt_of_le hlt ((hwalk.mem a.1 a.2).mp ha).1
          · intro j u
            rw [List.mem_cons, Prod.mk.injEq, hwalk.mem]
            constructor
            · rintro (⟨rfl, rfl⟩ | ⟨hle, hu⟩)
              · exact ⟨le_refl _, hv⟩
              · exact ⟨(hlt.trans_le hle).le, hu⟩
            · rintro ⟨hle, hu⟩
              rcases hle.lt_or_eq with hij | rfl
              · right
                refine ⟨?_, hu⟩
                by_contra hnot
                obtain ⟨q, hq, -⟩ := valueAt_some hu
                rw [hgap j hij (not_le.mp hnot)] at hq
                cases hq
              · exact Or.inl ⟨rfl, Option.some.inj (hu.symm.trans hv)⟩

/-- **The walk** from `begin()`: `JLF` finds the least index, and from there on it is `walkFrom_spec`. -/
theorem walk_spec (hJ : J.Correct) (hown : Owned J conv t) : ∃ ws, t.walk J = some ws ∧ Walked J t 0 ws := by
  have hspec := hJ.first t.arr 0
  unfold walk begin
  cases hf : J.jlf t.arr 0 with
  | none =>
      rw [hf] at hspec
      refine ⟨[], walkFrom_end (Nat.succ_pos _), List.Pairwise.nil, ?_⟩
      intro j v
      refine iff_of_false List.not_mem_nil ?_
      rintro ⟨hle, hv⟩
      obtain ⟨p, hp, -⟩ := valueAt_some hv
      rw [hspec j hle] at hp
      cases hp
  | some idx =>
      rw [hf] at hspec
      obtain ⟨-, hidx, hgap⟩ := hspec
      obtain ⟨v, hv, hiter⟩ := iterAt_eq hown hidx
      have hfuel : 2 ^ 64 - idx.val < 2 ^ 64 + 1 := by omega
      obtain ⟨ws, hws, hwalk⟩ := walkFrom_spec hJ hown hv hfuel
      simp only [hiter, Option.bind_eq_bind, Option.bind_some]
      refine ⟨ws, hws, hwalk.sorted, ?_⟩
      intro j w
      rw [hwalk.mem]
      constructor
      · rintro ⟨-, hw⟩
        exact ⟨Fin.zero_le j, hw⟩
      · rintro ⟨-, hw⟩
        refine ⟨?_, hw⟩
        by_contra hnot
        obtain ⟨p, hp, -⟩ := valueAt_some hw
        rw [hgap j (Fin.zero_le j) (not_le.mp hnot)] at hp
        cases hp

/-! ## Counting

As many words as the size says, until `clear` leaves it wrong. -/

/-- The indices of the array. -/
def indices (J : JudyL Arr) (t : FxMap Arr V) : Finset Word := Finset.univ.filter fun i => (valueAt J t i).isSome

omit [DecidableEq Arr] [Inhabited V] in
/-- The words with a value. -/
theorem mem_indices : i ∈ indices J t ↔ (valueAt J t i).isSome := by
  unfold indices
  rw [Finset.mem_filter]
  exact and_iff_right (Finset.mem_univ i)

/-- `size_` is the number of the indices, as long as it fits. -/
def Counted (J : JudyL Arr) (t : FxMap Arr V) : Prop := t.size = (indices J t).card % 2 ^ 64

omit [DecidableEq Arr] [Inhabited V] in
/-- A walk from 0 meets every index once. -/
theorem Walked.length_eq {ws : List (Word × V)} (h : Walked J t 0 ws) : ws.length = (indices J t).card := by
  have hnd : (ws.map Prod.fst).Nodup := by
    have hsorted : (ws.map Prod.fst).Pairwise (· < ·) := List.pairwise_map.mpr h.sorted
    exact hsorted.imp fun hlt => ne_of_lt hlt
  have hset : (ws.map Prod.fst).toFinset = indices J t := by
    ext j
    rw [List.mem_toFinset, mem_indices, List.mem_map, Option.isSome_iff_exists]
    constructor
    · rintro ⟨⟨j', v⟩, hmem, rfl⟩
      exact ⟨v, ((h.mem j' v).mp hmem).2⟩
    · rintro ⟨v, hv⟩
      exact ⟨(j, v), (h.mem j v).mpr ⟨Fin.zero_le j, hv⟩, rfl⟩
  rw [← hset, List.toFinset_card_of_nodup hnd, List.length_map]

/-! ## Runs

Call by call against the finite map. -/

section Runs

variable [DecidableEq K]

/-- Keys are compared by `==`. -/
def same (j k : K) : Bool := decide (j = k)

/-- What a call does to the map, and its answer. -/
def mapStep (m : KeyMap K (K × V)) : Op K V → KeyMap K (K × V) × Answer K V
  | .map op => ((KeyMap.step Prod.fst same m op).1, .map (KeyMap.step Prod.fst same m op).2)
  | .clear => (KeyMap.empty, .cleared)

/-- What a list of calls does to the map, and its answers. -/
def mapExec : KeyMap K (K × V) → List (Op K V) → KeyMap K (K × V) × List (Answer K V)
  | m, [] => (m, [])
  | m, op :: ops => ((mapExec (mapStep m op).1 ops).1, (mapStep m op).2 :: (mapExec (mapStep m op).1 ops).2)

/-- Every `clear` finds an empty map. -/
def ClearsEmpty : KeyMap K (K × V) → List (Op K V) → Prop
  | _, [] => True
  | m, op :: ops => (op = .clear → m = KeyMap.empty) ∧ ClearsEmpty (mapStep m op).1 ops

/-- One call keeps the array and the heap, and answers as the map does; and `size_` still counts, if it was no `clear` with
    something to remove. -/
def Stepped (J : JudyL Arr) (conv : K → Word) (t : FxMap Arr V) (op : Op K V) : Prop :=
  ∃ t', t.step J conv op = some (t', (mapStep (contents J conv t) op).2) ∧ Owned J conv t' ∧
    contents J conv t' = (mapStep (contents J conv t) op).1 ∧
    ((op = .clear → contents J conv t = KeyMap.empty) → Counted J t → Counted J t')

/-- `insert` is the insertion into the map: nothing is changed under a key that is there, and `size_` is one more otherwise. -/
theorem step_insert (hJ : J.Correct) (hinj : Function.Injective conv) (hown : Owned J conv t) (k : K) (v : V) :
    Stepped J conv t (.map (.insert (k, v))) := by
  -- the key is there, or it is new
  cases h : valueAt J t (conv k) with
  | some w =>
      refine ⟨t, ?_, hown, ?_, fun _ h => h⟩
      · simp only [step, insert_old hJ hown h, Option.map_some, mapStep, KeyMap.step, contents_some h]
      · simp only [mapStep, KeyMap.step, contents_some h]
  | none =>
      obtain ⟨t', iter, hins, hval, hsize, hfresh, hheap, hself, hothers⟩ := insert_new hJ hown h v
      have hvalue := inserted_valueAt hown hheap hself hothers
      refine ⟨t', ?_, inserted_owned hown hheap hself hothers hfresh, ?_, ?_⟩
      · simp only [step, hins, Option.map_some, hval, mapStep, KeyMap.step, contents_none h]
      · simp only [mapStep, KeyMap.step, contents_none h]
        funext j
        unfold contents KeyMap.add same
        rw [hvalue]
        by_cases hj : j = k
        · subst hj
          simp
        · rw [if_neg fun heq => hj (hinj heq), if_neg (by simp [hj])]
      · intro _ hcount
        have hset : indices J t' = Insert.insert (conv k) (indices J t) := by
          ext j
          rw [Finset.mem_insert, mem_indices, mem_indices, hvalue]
          by_cases hj : j = conv k
          · simp [hj]
          · simp [hj]
        have hnot : conv k ∉ indices J t := by
          rw [mem_indices, h]
          simp
        unfold Counted at hcount ⊢
        rw [hsize, hcount, hset, Finset.card_insert_of_notMem hnot]
        omega

/-- `erase` is the removal from the map, and `size_` is one less if the key was there. -/
theorem step_erase (hJ : J.Correct) (hinj : Function.Injective conv) (hown : Owned J conv t) (k : K) :
    Stepped J conv t (.map (.erase k)) := by
  -- the key is there, or it is not
  cases h : valueAt J t (conv k) with
  | none =>
      refine ⟨t, ?_, hown, ?_, fun _ h => h⟩
      · simp only [step, erase_absent hown h, Option.map_some, mapStep, KeyMap.step, contents_none h]
      · simp only [mapStep, KeyMap.step, contents_none h]
  | some w =>
      have herase := erase_old hJ hown h
      generalize ht' : (⟨(J.jld t.arr (conv k)).1, (t.size + (2 ^ 64 - 1)) % 2 ^ 64, t.heap, t.fresh⟩ : FxMap Arr V) = t'
        at herase
      obtain ⟨hown', hvalue⟩ := deleted_owned t' hJ hown (by rw [← ht']) (fun _ _ _ _ => by rw [← ht']) (by rw [← ht'])
      refine ⟨t', ?_, hown', ?_, ?_⟩
      · simp only [step, herase, Option.map_some, mapStep, KeyMap.step, contents_some h]
      · simp only [mapStep, KeyMap.step, contents_some h]
        funext j
        unfold contents KeyMap.remove same
        rw [hvalue]
        by_cases hj : j = k
        · subst hj
          simp
        · rw [if_neg fun heq => hj (hinj heq), if_neg (by simp [hj])]
      · intro _ hcount
        have hset : indices J t' = (indices J t).erase (conv k) := by
          ext j
          rw [Finset.mem_erase, mem_indices, mem_indices, hvalue]
          by_cases hj : j = conv k
          · simp [hj]
          · simp [hj]
        have hmem : conv k ∈ indices J t := by
          rw [mem_indices, h]
          rfl
        have hpos : 0 < (indices J t).card := Finset.card_pos.mpr ⟨_, hmem⟩
        have hsize : t'.size = (t.size + (2 ^ 64 - 1)) % 2 ^ 64 := by rw [← ht']
        unfold Counted at hcount ⊢
        rw [hset, Finset.card_erase_of_mem hmem, hsize, hcount]
        omega

/-- `clear` empties the map; `size_` counts afterwards only if it counted nothing before. -/
theorem step_clear (hJ : J.Correct) (hown : Owned J conv t) : Stepped J conv t .clear := by
  obtain ⟨t', hclear, hsize, hown', hvalue⟩ := clear_spec hJ hown
  refine ⟨t', ?_, hown', ?_, ?_⟩
  · simp only [step, hclear, Option.map_some, mapStep]
  · funext k
    exact contents_none (hvalue _)
  · intro hempty hcount
    -- nothing was removed, so `size_` may stay
    have hnone : indices J t = ∅ := by
      rw [Finset.eq_empty_iff_forall_notMem]
      intro i hi
      rw [mem_indices] at hi
      obtain ⟨v, hv⟩ := Option.isSome_iff_exists.mp hi
      obtain ⟨p, hp, -⟩ := valueAt_some hv
      obtain ⟨k, rfl⟩ := hown.keyed i (hp ▸ rfl)
      have hk := congrFun (hempty rfl) k
      rw [contents_some hv] at hk
      cases hk
    have hnone' : indices J t' = ∅ := by
      rw [Finset.eq_empty_iff_forall_notMem]
      intro i hi
      rw [mem_indices, hvalue] at hi
      cases hi
    unfold Counted at hcount ⊢
    rw [hsize, hcount, hnone, hnone']

/-- **One call.** -/
theorem step_owned (hJ : J.Correct) (hinj : Function.Injective conv) (hown : Owned J conv t) (op : Op K V) :
    Stepped J conv t op := by
  cases op with
  | map op =>
      cases op with
      | insert kv => exact step_insert hJ hinj hown kv.1 kv.2
      | erase k => exact step_erase hJ hinj hown k
      | find k =>
          obtain ⟨iter, hiter, hpointed⟩ := Option.map_eq_some_iff.mp (pointed_find hJ hown k)
          refine ⟨t, ?_, hown, rfl, fun _ h => h⟩
          simp only [step, hiter, Option.map_some, hpointed, mapStep, KeyMap.step]
  | clear => exact step_clear hJ hown

/-- **A run.** -/
theorem exec_owned (hJ : J.Correct) (hinj : Function.Injective conv) (hown : Owned J conv t) (ops : List (Op K V)) :
    ∃ t', t.exec J conv ops = some (t', (mapExec (contents J conv t) ops).2) ∧ Owned J conv t' ∧
      contents J conv t' = (mapExec (contents J conv t) ops).1 ∧
      (ClearsEmpty (contents J conv t) ops → Counted J t → Counted J t') := by
  induction ops generalizing t with
  | nil => exact ⟨t, rfl, hown, rfl, fun _ h => h⟩
  | cons op ops ih =>
      obtain ⟨t₁, hstep, hown₁, hcontents₁, hcount₁⟩ := step_owned hJ hinj hown op
      obtain ⟨t₂, hexec, hown₂, hcontents₂, hcount₂⟩ := ih hown₁
      rw [hcontents₁] at hexec hcontents₂ hcount₂
      refine ⟨t₂, ?_, hown₂, hcontents₂, ?_⟩
      · rw [exec, hstep]
        simp only [Option.bind_eq_bind, Option.bind_some, hexec]
        rfl
      · intro hclear hcount
        exact hcount₂ hclear.2 (hcount₁ hclear.1 hcount)

/-- **A map over a Judy array is a finite map**, and its iterator goes through it in the order of the indices; `size()` is
    the number of the keys in every run in which `clear` finds an empty map. -/
theorem map_refines (hJ : J.Correct) (hinj : Function.Injective conv) (ops : List (Op K V)) :
    ∃ t ws, exec J conv (new J : FxMap Arr V) ops = some (t, (mapExec KeyMap.empty ops).2) ∧ t.walk J = some ws ∧
      ws.Pairwise (fun a b => a.1 < b.1) ∧ (∀ a ∈ ws, ∃ k, conv k = a.1) ∧
      (∀ k v, (conv k, v) ∈ ws ↔ (mapExec KeyMap.empty ops).1 k = some (k, v)) ∧
      (ClearsEmpty KeyMap.empty ops → ws.length < 2 ^ 64 → t.size = ws.length ∧ (t.empty = true ↔ ws = [])) := by
  have hnull : ∀ i, J.jlg J.null i = none := (hJ.null_iff J.null).mp rfl
  have hvalue : ∀ i, valueAt J (new J : FxMap Arr V) i = none := by
    intro i
    unfold valueAt new
    rw [hnull]
    rfl
  have hown : Owned J conv (new J : FxMap Arr V) := by
    refine ⟨?_, ?_, ?_, Nat.one_pos⟩
    · intro i p hp
      rw [new, hnull] at hp
      cases hp
    · intro i j p hi
      rw [new, hnull] at hi
      cases hi
    · intro i hi
      rw [new, hnull] at hi
      cases hi
  have hcontents : contents J conv (new J : FxMap Arr V) = KeyMap.empty := by
    funext k
    exact contents_none (hvalue _)
  have hcount : Counted J (new J : FxMap Arr V) := by
    have hnone : indices J (new J : FxMap Arr V) = ∅ := by
      rw [Finset.eq_empty_iff_forall_notMem]
      intro i hi
      rw [mem_indices, hvalue] at hi
      cases hi
    unfold Counted
    rw [hnone]
    rfl
  obtain ⟨t, hexec, hown', hcontents', hcount'⟩ := exec_owned hJ hinj hown ops
  rw [hcontents] at hexec hcontents' hcount'
  obtain ⟨ws, hwalk, hws⟩ := walk_spec hJ hown'
  refine ⟨t, ws, hexec, hwalk, hws.sorted, ?_, ?_, ?_⟩
  · intro a ha
    obtain ⟨p, hp, -⟩ := valueAt_some ((hws.mem a.1 a.2).mp ha).2
    exact hown'.keyed a.1 (hp ▸ rfl)
  · intro k v
    rw [hws.mem, ← hcontents', and_iff_right (Fin.zero_le _)]
    unfold contents
    rw [Option.map_eq_some_iff]
    simp
  · intro hclear hlt
    have hsize : t.size = ws.length := by
      have h := hcount' hclear hcount
      unfold Counted at h
      rw [h, ← hws.length_eq, Nat.mod_eq_of_lt hlt]
    refine ⟨hsize, ?_⟩
    unfold empty
    rw [decide_eq_true_eq, hsize, List.length_eq_zero_iff]

end Runs

/-- The keys go in as 9, 3 and 5, and one of them goes out again; the iterator meets the other two in the order of the indices. -/
theorem map_refines_list : ∃ t : FxMap (List (Word × Nat)) Nat, exec listJudy id (new listJudy)
    [.clear, .map (.insert (9, 4)), .map (.insert (5, 6)), .map (.insert (3, 7)), .map (.insert (3, 8)), .map (.erase 9),
      .map (.erase 2), .map (.find 5)] =
      some (t, [.cleared, .map (.inserted (9, 4) true), .map (.inserted (5, 6) true), .map (.inserted (3, 7) true),
        .map (.inserted (3, 7) false), .map (.erased 1), .map (.erased 0), .map (.found (some (5, 6)))]) ∧
    t.walk listJudy = some [(3, 7), (5, 6)] ∧ t.size = 2 := by
  obtain ⟨t, ws, hexec, hwalk, -, -, -, hsize⟩ := map_refines listJudy_correct Function.injective_id
    [.clear, .map (.insert ((9 : Word), 4)), .map (.insert (5, 6)), .map (.insert (3, 7)), .map (.insert (3, 8)),
      .map (.erase 9), .map (.erase 2), .map (.find 5)]
  have hclear : ClearsEmpty KeyMap.empty [.clear, .map (.insert ((9 : Word), 4)), .map (.insert (5, 6)),
      .map (.insert (3, 7)), .map (.insert (3, 8)), .map (.erase 9), .map (.erase 2), .map (.find 5)] := by
    refine ⟨fun _ => rfl, ?_, ?_, ?_, ?_, ?_, ?_, ?_, trivial⟩ <;> intro h <;> cases h
  refine ⟨t, hexec, ?_⟩
  have hrun := hexec
  obtain rfl := (Prod.mk.inj (Option.some.inj hrun)).1
  obtain rfl : [((3 : Word), 7), (5, 6)] = ws := Option.some.inj hwalk
  exact ⟨hwalk, (hsize hclear (by decide)).1⟩

/-- After `clear` the map is empty and `size()` is not. -/
theorem clear_keeps_size : ∃ t, exec listJudy id (new listJudy : FxMap (List (Word × Nat)) Nat)
    [.map (.insert (3, 7)), .clear] = some (t, [.map (.inserted (3, 7) true), .cleared]) ∧
      t.walk listJudy = some [] ∧ t.size = 1 ∧ t.empty = false := by
  refine ⟨_, rfl, rfl, rfl, rfl⟩

end FxMap
end Snippets
