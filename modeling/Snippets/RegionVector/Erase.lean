import Snippets.RegionVector.Model

/-!
# `RegionVector.Erase` — what `erase` does, and the iterator that it returns

`push_back` and `erase` do to the elements what they should, as long as the header is not among them. But `erase` returns the
iterator behind the erased place, where the element behind the follower has moved to, or an iterator behind `end()`: so it
never returns the follower (`not_erasesAsAsked`). What was at that place before the move is still there when the follower was
the last element, and it reads like it. For elements whose size is no power of two, `erase` also rejects valid iterators.
-/

namespace Snippets

open Lib

namespace RegionVector

open RegionTable (checkAligned alignTo le_alignTo vectorMagic)

variable {T : PodLayout} {v : RegionVector} {m m' : Mem} {i j n : Nat} {x : List UInt8}

/-! ## Cells -/

theorem cell_le {r : Nat} (h : j < i) : (r : Int) * j + r ≤ r * i := by
  have hmul := Nat.mul_le_mul_left r h
  rw [Nat.mul_succ] at hmul
  exact_mod_cast hmul

/-- The address of an element. -/
def cell (T : PodLayout) (v : RegionVector) (i : Nat) : Int := v.beginPtr + T.size * i

theorem elements_length (T : PodLayout) (v : RegionVector) (m : Mem) : (v.elements T m).length = v.size m := by
  simp [elements]

theorem elements_getElem (h : i < (v.elements T m).length) : (v.elements T m)[i] = m.read (v.cell T i) T.size := by
  simp [elements, cell, beginPtr]

/-- The header is not among the first `n` elements. -/
def Apart (T : PodLayout) (v : RegionVector) (n : Nat) : Prop := v.header + 16 ≤ v.start ∨ v.cell T n ≤ v.header

theorem Apart.mono (h : v.Apart T n) (hi : i ≤ n) : v.Apart T i := by
  rcases h with h | h
  · exact Or.inl h
  · have hmul : (T.size : Int) * i ≤ T.size * n := by exact_mod_cast Nat.mul_le_mul_left T.size hi
    unfold cell at h
    exact Or.inr (by unfold cell; omega)

/-- What lies in the header is apart from an element. -/
theorem Apart.outside (h : v.Apart T n) (hi : i < n) {a : Int} {k : Nat} (ha : v.header ≤ a) (hk : a + k ≤ v.header + 16) :
    v.cell T i + T.size ≤ a ∨ a + k ≤ v.cell T i := by
  have hcell := cell_le (r := T.size) hi
  unfold Apart cell beginPtr at h
  unfold cell beginPtr
  have hpos : (0 : Int) ≤ T.size * i := by exact_mod_cast Nat.zero_le _
  rcases h with h | h
  · exact Or.inr (by omega)
  · exact Or.inl (by omega)

/-- The word that counts the elements. -/
theorem Apart.word (h : v.Apart T n) (hi : i < n) : v.cell T i + T.size ≤ v.header + 8 ∨ v.header + 8 + 4 ≤ v.cell T i :=
  h.outside (a := v.header + 8) (k := 4) hi (by omega) (by omega)

/-! ## `Create` -/

/-- What `Create` computes, when it succeeds. -/
theorem create_eq {m₀ : Mem} {data : Int} {size : Nat} {header : Option Int} (hc : create T m data size header = (m₀, some v)) :
    v.header = header.getD (alignTo 8 data) ∧
      v.start = alignTo T.align (if header.isNone then alignTo 8 data + 16 else data) ∧ v.destroyFunc = none ∧
      (v.start - data).toNat ≤ size ∧ v.capacity = (size - (v.start - data).toNat) / T.size ∧
      m₀ = ((m.writeWord v.header 8 vectorMagic).writeWord (v.header + 8) 4 0).writeWord (v.header + 12) 4 T.size := by
  dsimp only [create] at hc
  generalize (if header.isNone = true then alignTo 8 data + 16 else data) = p at hc ⊢
  by_cases haligned : checkAligned data = true
  · rw [if_neg (not_not.mpr haligned)] at hc
    by_cases hsize : size < (alignTo T.align p - data).toNat
    · rw [if_pos hsize] at hc
      cases hc
    · rw [if_neg hsize] at hc
      obtain ⟨hm, hv⟩ := Prod.mk.inj hc
      obtain rfl := Option.some.inj hv
      exact ⟨rfl, rfl, rfl, Nat.le_of_not_lt hsize, rfl, hm.symm⟩
  · rw [if_pos haligned] at hc
    cases hc

/-- **`Create`** keeps the header and the elements apart, if the header is not elsewhere in the region, and there are none. -/
theorem create_apart {m₀ : Mem} {data : Int} {size : Nat} {header : Option Int} (hc : create T m data size header = (m₀, some v))
    (hheader : ∀ h, header = some h → h + 16 ≤ data ∨ data + size ≤ h) :
    v.Apart T v.maxSize ∧ v.elements T m₀ = [] := by
  have halign : 0 < T.align := Nat.pos_of_dvd_of_pos T.stride T.size_pos
  obtain ⟨hhead, hstart, -, hsize, hcapacity, hm⟩ := create_eq hc
  have hle := le_alignTo halign (if header.isNone then alignTo 8 data + 16 else data)
  rw [← hstart] at hle
  refine ⟨?_, ?_⟩
  · have hcells : T.size * v.capacity ≤ size - (v.start - data).toNat := by
      rw [hcapacity]
      exact Nat.mul_div_le _ _
    have hcells' : (T.size : Int) * v.capacity ≤ (size - (v.start - data).toNat : Nat) := by exact_mod_cast hcells
    unfold Apart cell beginPtr maxSize
    cases header with
    | none =>
        have hle' : alignTo 8 data + 16 ≤ v.start := hle
        rw [hhead]
        exact Or.inl hle'
    | some h =>
        have hle' : data ≤ v.start := hle
        rw [hhead, Option.getD_some]
        have hout := hheader h rfl
        omega
  · apply List.eq_nil_of_length_eq_zero
    rw [elements_length, hm]
    show Mem.readWord _ (v.header + 8) 4 = 0
    rw [Mem.readWord_writeWord_disjoint (by omega), Mem.readWord_writeWord_self]
    rfl

/-! ## `push_back` -/

/-- **`push_back`** puts an element behind the others, if there is room. -/
theorem elements_pushBack (hx : x.length = T.size) (hsmall : v.size m + 1 < 2 ^ 32) (hroom : v.size m < v.maxSize)
    (hapart : v.Apart T (v.size m + 1)) :
    ∃ m', v.pushBack T m x = .ok m' ∧ v.size m' = v.size m + 1 ∧ v.elements T m' = v.elements T m ++ [x] := by
  have hword := hapart.word (Nat.lt_succ_self (v.size m))
  have hnew : v.endPtr T m = v.cell T (v.size m) := rfl
  unfold pushBack
  rw [if_neg (by omega)]
  refine ⟨_, rfl, ?_⟩
  have hsize : v.size ((m.writeWord (v.header + 8) 4 (v.size m + 1)).write (v.endPtr T m) x) = v.size m + 1 := by
    show Mem.readWord _ (v.header + 8) 4 = _
    rw [Mem.readWord_write_disjoint (by rw [hx, hnew]; omega), Mem.readWord_writeWord_self, Nat.mod_eq_of_lt (by omega)]
  refine ⟨hsize, ?_⟩
  apply List.ext_getElem
  · rw [elements_length, hsize, List.length_append, elements_length, List.length_singleton]
  · intro i h₁ h₂
    rw [elements_length, hsize] at h₁
    rw [elements_getElem, List.getElem_append]
    split
    next hi =>
      rw [elements_length] at hi
      have hcell := cell_le (r := T.size) hi
      rw [elements_getElem, Mem.read_write_disjoint, Mem.read_writeWord_disjoint]
      · have := (hapart.mono (Nat.le_succ _)).word hi
        omega
      · rw [hnew]
        unfold cell
        omega
    next hi =>
      rw [elements_length] at hi
      have hlast : i = v.size m := by omega
      simp only [List.getElem_singleton]
      rw [hlast, ← hx, hnew]
      exact Mem.read_write_self

/-! ## `erase` -/

/-- The address of an iterator passes the check. -/
def Unmasked (T : PodLayout) (it : Int) : Prop := (it % 2 ^ 64).toNat &&& (T.size - 1) = 0

/-- What is called for an element writes to that element only. -/
theorem read_destroy {it a : Int} (h : a + n ≤ it ∨ it + T.size ≤ a) : (v.destroy T m it).read a n = m.read a n := by
  unfold destroy
  cases v.destroyFunc with
  | none => rfl
  | some f =>
      apply Mem.read_write_disjoint
      rw [f.2, Mem.read_length]
      exact h

theorem size_destroy (hi : i < n) (hapart : v.Apart T n) : v.size (v.destroy T m (v.cell T i)) = v.size m := by
  have hword := hapart.word hi
  unfold size Mem.readWord
  rw [read_destroy (by omega)]

/-- The memory behind the move: the elements from the erased place on are the ones behind it. -/
def moved (T : PodLayout) (v : RegionVector) (m : Mem) (i : Nat) : Mem :=
  let m := v.destroy T m (v.cell T i)
  if v.cell T (i + 1) ≠ v.endPtr T m then
    m.write (v.cell T i) (m.read (v.cell T (i + 1)) (v.endPtr T m - v.cell T (i + 1)).toNat)
  else m

/-- The iterator to an element is valid. -/
theorem erase_eq (hi : i < v.size m) : v.erase T m (v.cell T i) =
    if (v.cell T i % 2 ^ 64).toNat &&& (T.size - 1) ≠ 0 then .error .invalidIterator
    else .ok ((v.moved T m i).writeWord (v.header + 8) 4 (v.size (v.moved T m i) + (2 ^ 32 - 1)), v.cell T (i + 1)) := by
  have hpos : (0 : Int) ≤ T.size * i := by exact_mod_cast Nat.zero_le _
  have hcell := cell_le (r := T.size) hi
  have hsize := T.size_pos
  have hvalid : ¬(v.cell T i < v.beginPtr ∨ v.endPtr T m ≤ v.cell T i) := by
    unfold cell endPtr beginPtr
    omega
  have hnext : v.cell T i + T.size = v.cell T (i + 1) := by
    unfold cell
    push_cast
    ring
  unfold erase
  rw [if_neg hvalid, hnext]
  rfl

/-- **When `erase` throws** for a valid iterator. -/
theorem erase_error_iff (hi : i < v.size m) (e : Failure) :
    v.erase T m (v.cell T i) = .error e ↔ ¬Unmasked T (v.cell T i) ∧ e = .invalidIterator := by
  rw [erase_eq hi]
  split
  next h =>
    constructor
    · rintro ⟨⟩
      exact ⟨h, rfl⟩
    · rintro ⟨-, rfl⟩
      rfl
  next h =>
    constructor
    · rintro ⟨⟩
    · rintro ⟨hmask, -⟩
      exact absurd hmask h

/-- The bytes behind an element. -/
theorem rest_length (hi : i < n) : (v.cell T n - v.cell T (i + 1)).toNat = T.size * (n - (i + 1)) := by
  have hmul : (T.size : Int) * n = T.size * (i + 1 : Nat) + T.size * (n - (i + 1) : Nat) := by
    rw [← mul_add]
    congr 1
    omega
  unfold cell
  omega

theorem cell_ne (hi : i + 1 < n) : v.cell T (i + 1) ≠ v.cell T n := by
  have hcell := cell_le (r := T.size) hi
  have hpos := T.size_pos
  unfold cell
  omega

section Move

variable (hi : i < v.size m) (hapart : v.Apart T (v.size m))

include hi hapart

/-- The last cell that the move writes to is in front of the last element. -/
theorem moved_outside {a : Int} {k : Nat} (h : a + k ≤ v.cell T i ∨ v.cell T (v.size m) ≤ a) :
    (v.moved T m i).read a k = m.read a k := by
  have hcell := cell_le (r := T.size) hi
  have hsize := size_destroy (m := m) hi hapart
  have hdestroy : (v.destroy T m (v.cell T i)).read a k = m.read a k := by
    apply read_destroy
    unfold cell at h ⊢
    omega
  unfold moved
  simp only
  split
  · -- the range that is written ends one element in front of `end()`
    rw [Mem.read_write_disjoint, hdestroy]
    have hend : v.endPtr T (v.destroy T m (v.cell T i)) = v.cell T (v.size m) := by
      unfold endPtr
      rw [hsize]
      rfl
    rw [Mem.read_length, hend, rest_length hi]
    have hmul := Nat.mul_le_mul_left T.size (show i + (v.size m - (i + 1)) ≤ v.size m by omega)
    rw [Nat.mul_add] at hmul
    have hmul' : (T.size : Int) * i + T.size * (v.size m - (i + 1) : Nat) ≤ T.size * v.size m := by exact_mod_cast hmul
    unfold cell at h ⊢
    omega
  · exact hdestroy

theorem moved_before (hj : j < i) : (v.moved T m i).read (v.cell T j) T.size = m.read (v.cell T j) T.size := by
  have hcell := cell_le (r := T.size) hj
  apply moved_outside hi hapart
  unfold cell
  omega

theorem moved_behind (hj : i ≤ j) (hlast : j + 1 < v.size m) :
    (v.moved T m i).read (v.cell T j) T.size = m.read (v.cell T (j + 1)) T.size := by
  have hsize := size_destroy (m := m) hi hapart
  have hend : v.endPtr T (v.destroy T m (v.cell T i)) = v.cell T (v.size m) := by
    unfold endPtr
    rw [hsize]
    rfl
  -- where the element is in the range that is moved
  have hplace : ∀ k, v.cell T (k + (j - i)) = v.cell T k + (T.size * (j - i) : Nat) := by
    intro k
    unfold cell
    push_cast
    ring
  have hroom : T.size * (j - i) + T.size ≤ T.size * (v.size m - (i + 1)) := by
    rw [← Nat.mul_succ]
    exact Nat.mul_le_mul_left T.size (by omega)
  have hfrom := hplace i
  have hto := hplace (i + 1)
  rw [show i + (j - i) = j by omega] at hfrom
  rw [show i + 1 + (j - i) = j + 1 by omega] at hto
  unfold moved
  simp only
  rw [hend, if_pos (cell_ne (by omega)), rest_length hi, hfrom, hto, Mem.read_write_read hroom]
  apply read_destroy
  have hcell := cell_le (r := T.size) (show i < j + 1 by omega)
  rw [← hto]
  unfold cell
  omega

theorem size_moved : v.size (v.moved T m i) = v.size m := by
  have hcell := cell_le (r := T.size) hi
  have hpos : (0 : Int) ≤ T.size * i := by exact_mod_cast Nat.zero_le _
  unfold size Mem.readWord
  rw [moved_outside hi hapart]
  unfold Apart at hapart
  unfold cell beginPtr at hapart ⊢
  unfold size at hapart ⊢
  omega

/-- **`erase`**, where the iterator passes the check: the elements without the erased one, and the place behind it. -/
theorem erase_ok (hmask : Unmasked T (v.cell T i)) : ∃ m', v.erase T m (v.cell T i) = .ok (m', v.cell T (i + 1)) ∧
    v.size m' = v.size m - 1 ∧ v.elements T m' = (v.elements T m).eraseIdx i := by
  have hlt := Mem.readWord_lt m (v.header + 8) 4
  have hmoved := size_moved hi hapart
  refine ⟨(v.moved T m i).writeWord (v.header + 8) 4 (v.size (v.moved T m i) + (2 ^ 32 - 1)), ?_, ?_⟩
  · have hpass : ¬(v.cell T i % 2 ^ 64).toNat &&& (T.size - 1) ≠ 0 := not_not.mpr hmask
    rw [erase_eq hi, if_neg hpass]
  · have hsize : v.size ((v.moved T m i).writeWord (v.header + 8) 4 (v.size (v.moved T m i) + (2 ^ 32 - 1))) = v.size m - 1 := by
      show Mem.readWord _ (v.header + 8) 4 = _
      rw [Mem.readWord_writeWord_self, hmoved]
      unfold size at hi ⊢
      omega
    refine ⟨hsize, ?_⟩
    apply List.ext_getElem
    · rw [elements_length, hsize, List.length_eraseIdx, if_pos (by rw [elements_length]; exact hi), elements_length]
    · intro j h₁ h₂
      rw [elements_length, hsize] at h₁
      have hword := hapart.word (show j < v.size m by omega)
      rw [elements_getElem, Mem.read_writeWord_disjoint (by omega), List.getElem_eraseIdx]
      -- in front of the erased place nothing moves, from there on everything by one
      split
      next hj => rw [elements_getElem, moved_before hi hapart hj]
      next hj => rw [elements_getElem, moved_behind hi hapart (by omega) (by omega)]

end Move

/-! ## What is asked for -/

/-- `erase` of the element with an index does not throw, leaves the others, and returns the place of the one that followed it:
    it has moved to that index. Behind the last one that is `end()`. -/
def ErasesAsAsked (T : PodLayout) (v : RegionVector) (m : Mem) (i : Nat) : Prop :=
  ∃ m' next, v.erase T m (v.cell T i) = .ok (m', next) ∧ v.elements T m' = (v.elements T m).eraseIdx i ∧
    next = if i + 1 < v.size m then v.cell T i else v.endPtr T m'

/-- **The returned iterator never is the follower**, for any size of an element, content and index. -/
theorem not_erasesAsAsked (hi : i < v.size m) : ¬ErasesAsAsked T v m i := by
  rintro ⟨m', next, herase, helements, hnext⟩
  have hsize : v.size m' = v.size m - 1 := by
    have hlength := congrArg List.length helements
    rwa [elements_length, List.length_eraseIdx, if_pos (by rw [elements_length]; exact hi), elements_length] at hlength
  -- the follower is at the index of the erased element, and so is the new end behind the last one
  have hplace : (if i + 1 < v.size m then v.cell T i else v.endPtr T m') = v.cell T i := by
    split
    · rfl
    · have hlast : v.size m' = i := by omega
      unfold endPtr
      rw [hlast]
      rfl
  have hbehind : next = v.cell T (i + 1) := by
    rw [erase_eq hi] at herase
    split at herase
    · cases herase
    · exact (congrArg Prod.snd (Except.ok.inj herase)).symm
  have hpos := T.size_pos
  rw [hplace, hbehind] at hnext
  unfold cell at hnext
  push_cast at hnext
  rw [mul_add] at hnext
  omega

def int32 : PodLayout := ⟨4, 4, by decide, by decide⟩

/-- A vector in a region of 64 bytes. -/
def vector : RegionVector := ⟨0, 16, 12, none⟩

/-- Its memory with 1024, 500 and 200. -/
def filled : Except Failure Mem := do
  let m ← vector.pushBack int32 (create int32 (fun _ => 0) 0 64 none).1 [0, 4, 0, 0]
  let m ← vector.pushBack int32 m [244, 1, 0, 0]
  vector.pushBack int32 m [200, 0, 0, 0]

/-- The first of the three. -/
theorem not_erasesAsAsked_first : ∃ m, filled = .ok m ∧ ¬ErasesAsAsked int32 vector m 0 := by
  have hfilled : filled.map vector.size = .ok 3 := by decide +kernel
  cases hm : filled with
  | error e =>
      rw [hm] at hfilled
      cases hfilled
  | ok m =>
      rw [hm] at hfilled
      have hsize : vector.size m = 3 := Except.ok.inj hfilled
      exact ⟨m, rfl, not_erasesAsAsked (by omega)⟩

/-- The one in the middle: the returned iterator is `end()`, and where it points there still is a 200, as in the follower. -/
theorem not_erasesAsAsked_middle : ∃ m m', filled = .ok m ∧ vector.erase int32 m (vector.cell int32 1) = .ok (m', 24) ∧
    vector.endPtr int32 m' = 24 ∧ m'.read 20 4 = [200, 0, 0, 0] ∧ m'.read 24 4 = [200, 0, 0, 0] ∧
    ¬ErasesAsAsked int32 vector m 1 := by
  have hrun : (filled.bind fun m => (vector.erase int32 m (vector.cell int32 1)).map fun r =>
      (vector.size m, r.2, vector.endPtr int32 r.1, r.1.read 20 4, r.1.read 24 4)) =
        .ok (3, 24, 24, [200, 0, 0, 0], [200, 0, 0, 0]) := by
    decide +kernel
  cases hm : filled with
  | error e =>
      rw [hm] at hrun
      cases hrun
  | ok m =>
      rw [hm] at hrun
      cases herase : vector.erase int32 m (vector.cell int32 1) with
      | error e =>
          simp only [Except.bind, herase] at hrun
          cases hrun
      | ok r =>
          obtain ⟨m', next⟩ := r
          simp only [Except.bind, herase, Except.map, Except.ok.injEq, Prod.mk.injEq] at hrun
          obtain ⟨hsize, rfl, hend, hfollower, hstale⟩ := hrun
          refine ⟨m, m', rfl, herase, hend, hfollower, hstale, ?_⟩
          rintro ⟨m₁, next, herase', -, hnext⟩
          rw [herase, Except.ok.injEq, Prod.mk.injEq] at herase'
          rw [← herase'.2, if_pos (by omega)] at hnext
          exact absurd hnext (by decide)

end RegionVector
end Snippets
