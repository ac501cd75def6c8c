import Snippets.RegionVector.Erase

/-!
# `RegionVector.Refinement` — a vector in a region is a bounded list

Any calls on a vector from `Create` on, between them `Restore` of the region by a process that has come later: the vector
answers as a list of at most `max_size()` elements does (`vector_refines`). What keeps the two together is that the header is
apart from all the places for elements, and that nothing is written to the two words of it that only `Restore` reads
(`Holds`). Where the list has no choice of its own it follows the code: `erase` rejects an iterator by its address, and
returns the one behind the erased place.
-/

namespace Snippets

open Lib

namespace RegionVector

open RegionTable (checkAligned alignTo vectorMagic)

variable {T : PodLayout} {v : RegionVector} {m m' m₀ : Mem} {l : List (List UInt8)} {i n : Nat}

/-! ## Calls -/

/-- Where a vector lies: the region, and the header if it has a place of its own. -/
structure Place where
  data : Int
  size : Nat
  header : Option Int

/-- The calls on a vector, and `Restore`. -/
inductive Op (T : PodLayout)
  | pushBack (x : { x : List UInt8 // x.length = T.size })
  | elementAt (index : Nat)
  | erase (index : Nat)
  | clear
  | onDestroy (f : Option DestroyFunc)
  | restore

/-- What a call gives back; an iterator is its address. -/
inductive Answer
  | done
  | element (x : List UInt8)
  | iterator (it : Int)
  | threw (e : Failure)
  | null
deriving DecidableEq

/-- A call that throws leaves everything as it was. -/
def attempt {α : Type} (s : RegionVector × Mem) (r : Except Failure α) (k : α → (RegionVector × Mem) × Answer) :
    (RegionVector × Mem) × Answer :=
  match r with
  | .ok a => k a
  | .error e => (s, .threw e)

/-- One call; `erase` gets `begin() + index`. -/
def step (T : PodLayout) (p : Place) (s : RegionVector × Mem) : Op T → (RegionVector × Mem) × Answer
  | .pushBack x => attempt s (s.1.pushBack T s.2 x.1) fun m => ((s.1, m), .done)
  | .elementAt index => attempt s (s.1.elementAt T s.2 index) fun x => (s, .element x)
  | .erase index =>
      attempt s (s.1.erase T s.2 (s.1.beginPtr + T.size * index)) fun r => ((s.1, r.1), .iterator r.2)
  | .clear => ((s.1, s.1.clear T s.2), .done)
  | .onDestroy f => (((s.1.onDestroy f).1, s.2), .done)
  | .restore =>
      match restore T s.2 p.data p.size p.header with
      | some v => ((v, s.2), .done)
      | none => (s, .null)

/-- A sequence of calls, with its answers. -/
def exec (T : PodLayout) (p : Place) : RegionVector × Mem → List (Op T) → (RegionVector × Mem) × List Answer
  | s, [] => (s, [])
  | s, op :: ops => ((exec T p (step T p s op).1 ops).1, (step T p s op).2 :: (exec T p (step T p s op).1 ops).2)

/-! ## The list -/

/-- What a call does to a list of at most `n` elements; `cell` gives the address of a place. -/
def listStep (n : Nat) (cell : Nat → Int) (l : List (List UInt8)) : Op T → List (List UInt8) × Answer
  | .pushBack x => if l.length = n then (l, .threw .badAlloc) else (l ++ [x.1], .done)
  | .elementAt index => (l, (l[index]?).elim (.threw .outOfRange) .element)
  | .erase index =>
      if l.length ≤ index then (l, .threw .outOfRange)
      else if (cell index % 2 ^ 64).toNat &&& (T.size - 1) ≠ 0 then (l, .threw .invalidIterator)
      else (l.eraseIdx index, .iterator (cell (index + 1)))
  | .clear => ([], .done)
  | .onDestroy _ => (l, .done)
  | .restore => (l, .done)

/-- A sequence of calls on a list, with its answers. -/
def listExec (n : Nat) (cell : Nat → Int) : List (List UInt8) → List (Op T) → List (List UInt8) × List Answer
  | l, [] => (l, [])
  | l, op :: ops =>
      ((listExec n cell (listStep n cell l op).1 ops).1, (listStep n cell l op).2 :: (listExec n cell (listStep n cell l op).1 ops).2)

/-! ## What keeps them together -/

/-- The two words of the header that `Restore` compares. -/
structure Marked (T : PodLayout) (v : RegionVector) (m : Mem) : Prop where
  magic : m.readWord v.header 8 = vectorMagic
  elementSize : m.readWord (v.header + 12) 4 = T.size

/-- **The vector holds a list.** But for its destroy function it is what `Create` has made of the place. -/
structure Holds (T : PodLayout) (p : Place) (v : RegionVector) (m : Mem) (l : List (List UInt8)) : Prop where
  created : ∃ m₁ m₂, create T m₁ p.data p.size p.header = (m₂, some { v with destroyFunc := none })
  apart : v.Apart T v.maxSize
  marked : Marked T v m
  elements : v.elements T m = l
  length_le : l.length ≤ v.maxSize

/-- The size is that of the list. -/
theorem Holds.size_eq (h : Holds T p v m l) : v.size m = l.length := by rw [← h.elements, elements_length]

/-! ## `Create` and `Restore` -/

/-- `Restore` of a place that `Create` accepted looks at the three words of the header only. -/
theorem restore_eq {p : Place} {m₁ m₂ : Mem} (hc : create T m₁ p.data p.size p.header = (m₂, some v)) (m : Mem) :
    restore T m p.data p.size p.header =
      if m.readWord v.header 8 ≠ vectorMagic ∨ m.readWord (v.header + 12) 4 ≠ T.size ∨
        v.maxSize < m.readWord (v.header + 8) 4 then none else some v := by
  dsimp only [create] at hc
  dsimp only [restore]
  generalize (if p.header.isNone = true then alignTo 8 p.data + 16 else p.data) = a at hc ⊢
  by_cases haligned : checkAligned p.data = true
  · rw [if_neg (not_not.mpr haligned)] at hc ⊢
    by_cases hsize : p.size < (alignTo T.align a - p.data).toNat
    · rw [if_pos hsize] at hc
      cases hc
    · rw [if_neg hsize] at hc ⊢
      obtain rfl := Option.some.inj (congrArg Prod.snd hc)
      rfl
  · rw [if_pos haligned] at hc
    cases hc

/-- A new vector holds nothing. -/
theorem holds_create {p : Place} (hc : create T m p.data p.size p.header = (m₀, some v))
    (hheader : ∀ h, p.header = some h → h + 16 ≤ p.data ∨ p.data + p.size ≤ h) (hT : T.size < 2 ^ 32) : Holds T p v m₀ [] := by
  obtain ⟨hapart, helements⟩ := create_apart hc hheader
  obtain ⟨-, -, hnone, -, -, hm⟩ := create_eq hc
  refine ⟨⟨m, m₀, ?_⟩, hapart, ⟨?_, ?_⟩, helements, Nat.zero_le _⟩
  · rw [hc, ← hnone]
  · rw [hm, Mem.readWord_writeWord_disjoint (by omega), Mem.readWord_writeWord_disjoint (by omega), Mem.readWord_writeWord_self]
    decide
  · rw [hm, Mem.readWord_writeWord_self, Nat.mod_eq_of_lt (by omega)]

/-! ## What the calls leave alone

The calls write the elements and the size, and neither the mark nor the capacity. The elements lie apart from the
header as long as there are no more of them than fit. -/

/-- A memory in which the header's other words read the same is marked too. -/
theorem Marked.congr (h : Marked T v m) (hmagic : m'.readWord v.header 8 = m.readWord v.header 8)
    (hsize : m'.readWord (v.header + 12) 4 = m.readWord (v.header + 12) 4) : Marked T v m' :=
  ⟨hmagic.trans h.magic, hsize.trans h.elementSize⟩

/-- `push_back` writes behind the last element. -/
theorem Marked.pushBack {x : List UInt8} (h : Marked T v m) (hx : x.length = T.size) (hapart : v.Apart T (v.size m + 1))
    (hpush : v.pushBack T m x = .ok m') : Marked T v m' := by
  have hcell : ∀ (a : Int) (k : Nat), v.header ≤ a → a + k ≤ v.header + 16 →
      a + k ≤ v.endPtr T m ∨ v.endPtr T m + x.length ≤ a := by
    intro a k ha hk
    have hout := hapart.outside (Nat.lt_succ_self (v.size m)) ha hk
    have hend : v.endPtr T m = v.cell T (v.size m) := rfl
    rw [hend, hx]
    exact hout.symm
  unfold RegionVector.pushBack at hpush
  split at hpush
  · cases hpush
  · cases hpush
    refine h.congr ?_ ?_
    · rw [Mem.readWord_write_disjoint (hcell _ 8 (by omega) (by omega)), Mem.readWord_writeWord_disjoint (by omega)]
    · rw [Mem.readWord_write_disjoint (hcell _ 4 (by omega) (by omega)), Mem.readWord_writeWord_disjoint (by omega)]

/-- `erase` moves elements down. -/
theorem Marked.erase {it : Int} (h : Marked T v m) (hi : i < v.size m) (hapart : v.Apart T (v.size m))
    (herase : v.erase T m (v.cell T i) = .ok (m', it)) : Marked T v m' := by
  have hmoved : ∀ (a : Int) (k : Nat), v.header ≤ a → a + k ≤ v.header + 16 →
      (v.moved T m i).readWord a k = m.readWord a k := by
    intro a k ha hk
    have hpos : (0 : Int) ≤ T.size * i := by exact_mod_cast Nat.zero_le _
    unfold Mem.readWord
    rw [moved_outside hi hapart]
    rcases hapart with hfront | hbehind
    · exact Or.inl (by unfold cell beginPtr; omega)
    · exact Or.inr (by omega)
  rw [erase_eq hi] at herase
  split at herase
  · cases herase
  · obtain ⟨rfl, -⟩ := Prod.mk.inj (Except.ok.inj herase)
    refine h.congr ?_ ?_
    · rw [Mem.readWord_writeWord_disjoint (by omega), hmoved _ 8 (by omega) (by omega)]
    · rw [Mem.readWord_writeWord_disjoint (by omega), hmoved _ 4 (by omega) (by omega)]

/-- The destroy function goes through the elements; the header stays. -/
theorem destroyAll_header {indices : List Nat} (hapart : v.Apart T n) (hindices : ∀ i ∈ indices, i < n) {a : Int} {k : Nat}
    (ha : v.header ≤ a) (hk : a + k ≤ v.header + 16) :
    (indices.foldl (fun m (i : Nat) => v.destroy T m (v.beginPtr + T.size * i)) m).readWord a k = m.readWord a k := by
  induction indices generalizing m with
  | nil => rfl
  | cons i indices ih =>
      rw [List.foldl_cons, ih fun j hj => hindices j (List.mem_cons_of_mem _ hj)]
      unfold Mem.readWord
      congr 1
      exact read_destroy (hapart.outside (hindices i List.mem_cons_self) ha hk).symm

/-- `clear` leaves the marks, and no elements. -/
theorem clear_spec (h : Marked T v m) (hapart : v.Apart T (v.size m)) :
    Marked T v (v.clear T m) ∧ v.elements T (v.clear T m) = [] := by
  have hheader : ∀ (a : Int) (k : Nat), v.header ≤ a → a + k ≤ v.header + 16 → a + k ≤ v.header + 8 ∨ v.header + 8 + 4 ≤ a →
      (v.clear T m).readWord a k = m.readWord a k := by
    intro a k ha hk hword
    unfold clear
    rw [Mem.readWord_writeWord_disjoint (by omega)]
    exact destroyAll_header hapart (fun i hi => List.mem_range.mp hi) ha hk
  refine ⟨h.congr (hheader _ 8 (by omega) (by omega) (by omega)) (hheader _ 4 (by omega) (by omega) (by omega)), ?_⟩
  apply List.eq_nil_of_length_eq_zero
  rw [elements_length]
  show Mem.readWord _ (v.header + 8) 4 = 0
  unfold clear
  rw [Mem.readWord_writeWord_self]
  rfl

/-! ## One call -/

/-- A call answers as the list does, and leaves the vector with what is in the list; only the destroy function may be another. -/
theorem Holds.step {p : Place} (h : Holds T p v m l) (hmax : v.maxSize < 2 ^ 32) (op : Op T) :
    ∃ v' m', step T p (v, m) op = ((v', m'), (listStep v.maxSize (v.cell T) l op).2) ∧
      v' = { v with destroyFunc := v'.destroyFunc } ∧ Holds T p v' m' (listStep v.maxSize (v.cell T) l op).1 := by
  have hsize := h.size_eq
  have hle := h.length_le
  have hapart : v.Apart T (v.size m) := h.apart.mono (by omega)
  cases op with
  | pushBack x =>
      by_cases hfull : l.length = v.maxSize
      · refine ⟨v, m, ?_, rfl, ?_⟩
        · have hpush : v.pushBack T m x.1 = .error .badAlloc := if_pos (hsize.trans hfull)
          show attempt (v, m) (v.pushBack T m x.1) _ = _
          rw [hpush, listStep, if_pos hfull]
          rfl
        · simpa only [listStep, if_pos hfull] using h
      · obtain ⟨m', hpush, -, helements⟩ := elements_pushBack (m := m) x.2 (by omega) (by omega) (h.apart.mono (by omega))
        refine ⟨v, m', ?_, rfl, ?_⟩
        · show attempt (v, m) (v.pushBack T m x.1) _ = _
          rw [hpush, listStep, if_neg hfull]
          rfl
        · simp only [listStep, if_neg hfull]
          refine ⟨h.created, h.apart, h.marked.pushBack x.2 (h.apart.mono (by omega)) hpush, ?_, ?_⟩
          · rw [helements, h.elements]
          · rw [List.length_append, List.length_singleton]
            omega
  | elementAt index =>
      refine ⟨v, m, ?_, rfl, h⟩
      show attempt (v, m) (v.elementAt T m index) _ = ((v, m), (l[index]?).elim _ _)
      unfold RegionVector.elementAt
      by_cases hi : v.size m ≤ index
      · rw [if_pos hi, List.getElem?_eq_none (by omega)]
        rfl
      · have hlt : index < (v.elements T m).length := by rw [elements_length]; omega
        rw [if_neg hi, ← h.elements, List.getElem?_eq_getElem hlt, elements_getElem]
        rfl
  | erase index =>
      by_cases hi : l.length ≤ index
      · -- the iterator is not in front of `end()`
        have hout : v.cell T index < v.beginPtr ∨ v.endPtr T m ≤ v.cell T index := by
          have hmul : (T.size : Int) * v.size m ≤ T.size * index := by exact_mod_cast Nat.mul_le_mul_left T.size (by omega)
          exact Or.inr (by unfold endPtr cell beginPtr; omega)
        refine ⟨v, m, ?_, rfl, ?_⟩
        · have herase : v.erase T m (v.cell T index) = .error .outOfRange := by
            unfold RegionVector.erase
            rw [if_pos hout]
          show attempt (v, m) (v.erase T m (v.cell T index)) _ = _
          rw [herase, listStep, if_pos hi]
          rfl
        · simpa only [listStep, if_pos hi] using h
      · by_cases hmask : (v.cell T index % 2 ^ 64).toNat &&& (T.size - 1) ≠ 0
        · refine ⟨v, m, ?_, rfl, ?_⟩
          · have herase : v.erase T m (v.cell T index) = .error .invalidIterator :=
              (erase_error_iff (by omega) _).mpr ⟨hmask, rfl⟩
            show attempt (v, m) (v.erase T m (v.cell T index)) _ = _
            rw [herase, listStep, if_neg hi, if_pos hmask]
            rfl
          · simpa only [listStep, if_neg hi, if_pos hmask] using h
        · obtain ⟨m', herase, hsize', helements⟩ := erase_ok (show index < v.size m by omega) hapart (not_not.mp hmask)
          refine ⟨v, m', ?_, rfl, ?_⟩
          · show attempt (v, m) (v.erase T m (v.cell T index)) _ = _
            rw [herase, listStep, if_neg hi, if_neg hmask]
            rfl
          · simp only [listStep, if_neg hi, if_neg hmask]
            refine ⟨h.created, h.apart, h.marked.erase (by omega) hapart herase, ?_, ?_⟩
            · rw [helements, h.elements]
            · exact le_trans (List.length_eraseIdx_le l index) hle
  | clear =>
      obtain ⟨hmarked, helements⟩ := clear_spec h.marked hapart
      exact ⟨v, v.clear T m, rfl, rfl, h.created, h.apart, hmarked, helements, Nat.zero_le _⟩
  | onDestroy f =>
      exact ⟨{ v with destroyFunc := f }, m, rfl, rfl, h.created, h.apart, ⟨h.marked.magic, h.marked.elementSize⟩,
        h.elements, hle⟩
  | restore =>
      obtain ⟨m₁, m₂, hcreate⟩ := h.created
      have hcount : ¬(m.readWord v.header 8 ≠ vectorMagic ∨ m.readWord (v.header + 12) 4 ≠ T.size ∨
          v.maxSize < m.readWord (v.header + 8) 4) := by
        have hcurrent : m.readWord (v.header + 8) 4 = v.size m := rfl
        rw [hcurrent, hsize]
        rintro (hmagic | helement | hmany)
        · exact hmagic h.marked.magic
        · exact helement h.marked.elementSize
        · omega
      have hrestore : restore T m p.data p.size p.header = some { v with destroyFunc := none } :=
        (restore_eq hcreate m).trans (if_neg hcount)
      refine ⟨{ v with destroyFunc := none }, m, ?_, rfl, ⟨m₁, m₂, hcreate⟩, h.apart,
        ⟨h.marked.magic, h.marked.elementSize⟩, h.elements, hle⟩
      simp only [RegionVector.step, hrestore, listStep]

/-! ## Runs -/

theorem Holds.exec {p : Place} (h : Holds T p v m l) (hmax : v.maxSize < 2 ^ 32) (ops : List (Op T)) :
    ∃ v' m', exec T p (v, m) ops = ((v', m'), (listExec v.maxSize (v.cell T) l ops).2) ∧
      v'.maxSize = v.maxSize ∧ v'.elements T m' = (listExec v.maxSize (v.cell T) l ops).1 := by
  induction ops generalizing v m l with
  | nil => exact ⟨v, m, rfl, rfl, h.elements⟩
  | cons op ops ih =>
      obtain ⟨v₁, m₁, hstep, hv, h₁⟩ := h.step hmax op
      have hsame : v₁.maxSize = v.maxSize ∧ v₁.cell T = v.cell T := by
        rw [hv]
        exact ⟨rfl, rfl⟩
      obtain ⟨v₂, m₂, hexec, hmax₂, helements⟩ := ih h₁ (by omega)
      rw [hsame.1, hsame.2] at hexec helements
      refine ⟨v₂, m₂, ?_, hmax₂.trans hsame.1, helements⟩
      rw [RegionVector.exec, hstep]
      simp only [hexec, listExec]

/-- **A vector in a region is a bounded list**, from `Create` on and through every `Restore`. -/
theorem vector_refines {p : Place} (hc : create T m p.data p.size p.header = (m₀, some v))
    (hheader : ∀ h, p.header = some h → h + 16 ≤ p.data ∨ p.data + p.size ≤ h) (hT : T.size < 2 ^ 32)
    (hmax : v.maxSize < 2 ^ 32) (ops : List (Op T)) :
    ∃ v' m', exec T p (v, m₀) ops = ((v', m'), (listExec v.maxSize (v.cell T) [] ops).2) ∧
      v'.maxSize = v.maxSize ∧ v'.elements T m' = (listExec v.maxSize (v.cell T) [] ops).1 :=
  (holds_create hc hheader hT).exec hmax ops

/-- An `int` as a value to store. -/
def stored (x : UInt8) : { x : List UInt8 // x.length = int32.size } := ⟨[x, 0, 0, 0], rfl⟩

/-- A vector with room for twelve: three go in, one goes out, another process restores the region and clears it. -/
theorem vector_refines_twelve : ∃ m₀ v' m', create int32 (fun _ => 0) 0 64 none = (m₀, some vector) ∧
    exec int32 ⟨0, 64, none⟩ (vector, m₀) [.pushBack (stored 7), .pushBack (stored 8), .pushBack (stored 9),
      .onDestroy (some ⟨fun bs => bs.map fun _ => 0, fun _ => List.length_map _⟩), .erase 0, .erase 2, .restore, .elementAt 1,
      .clear, .elementAt 0, .pushBack (stored 5)] =
      ((v', m'), [.done, .done, .done, .done, .iterator 20, .threw .outOfRange, .done, .element [9, 0, 0, 0], .done,
        .threw .outOfRange, .done]) ∧
    v'.elements int32 m' = [[5, 0, 0, 0]] := by
  have hc : create int32 (fun _ => 0) 0 64 none = ((create int32 (fun _ => 0) 0 64 none).1, some vector) := rfl
  obtain ⟨v', m', hexec, -, helements⟩ := vector_refines (p := ⟨0, 64, none⟩) hc (by rintro h ⟨⟩) (by decide) (by decide)
    [.pushBack (stored 7), .pushBack (stored 8), .pushBack (stored 9),
      .onDestroy (some ⟨fun bs => bs.map fun _ => 0, fun _ => List.length_map _⟩), .erase 0, .erase 2, .restore, .elementAt 1,
      .clear, .elementAt 0, .pushBack (stored 5)]
  exact ⟨_, v', m', hc, hexec, helements⟩

end RegionVector
end Snippets
