import Snippets.RegionAllocator.Soundness

/-!
# `RegionAllocator.Exhaustion` — how many nodes a region gives

A client that only calls `Allocate` and `clear` gets the ids 1, 2, … up to `max_size()`, and `bad_alloc` from then on. The
next id is a 32-bit word whose value 0 is the invalid id. `Create` and `clear` start it at 0 for a region without room for a
node, and it comes back to 0 behind the largest id there is; in both cases `Allocate` hands out the invalid id. The `k`-th
call does what it should in all others (`exhausts_iff`).
-/

namespace Snippets

open Lib

namespace RegionAllocator

variable (T : ElementLayout) (a : RegionAllocator) {m m₀ : Mem} {k : Nat}

/-- A call of a client that gives nothing back. -/
inductive Request
  | allocate
  | clear

/-- The memory after a call. -/
def after (m : Mem) : Request → Option Mem
  | .allocate => (a.allocate T m).map Prod.fst
  | .clear => some (a.clear m)

/-- One call of `Allocate` more since the last `clear`, or none. -/
def count (k : Nat) : Request → Nat
  | .allocate => k + 1
  | .clear => 0

/-- The calls of `Allocate` since the creation or the last `clear`. -/
def sinceClear (reqs : List Request) : Nat := reqs.foldl count 0

/-- What the `k`-th `Allocate` should do. -/
structure Serves (m : Mem) (k : Nat) : Prop where
  room : k ≤ a.maxSize → ∃ m', a.allocate T m = some (m', some k)
  full : a.maxSize < k → a.allocate T m = some (m, none)
  valid : ∀ m', a.allocate T m ≠ some (m', some 0)

/-- Every `Allocate` of a sequence of calls does. -/
def Exhausts (m : Mem) (reqs : List Request) : Prop :=
  ∀ done, done ++ [.allocate] <+: reqs → ∃ m', done.foldlM (a.after T) m = some m' ∧ a.Serves T m' (sinceClear done + 1)

/-- When the `k`-th one does, in a region with room for `max` nodes. -/
def Safe (max k : Nat) : Prop := (max = 0 → k ≠ 1) ∧ (max = 2 ^ 32 - 1 → k ≤ max)

instance (max k : Nat) : Decidable (Safe max k) := inferInstanceAs (Decidable (_ ∧ _))

/-! ## The next id -/

/-- `free` after `k` calls of `Allocate`. -/
def freeAfter (max : Nat) : Nat → Nat
  | 0 => min max 1
  | k + 1 => if max < freeAfter max k then freeAfter max k else (freeAfter max k + 1) % 2 ^ 32

theorem freeAfter_zero (k : Nat) : freeAfter 0 k = min k 1 := by
  induction k with
  | zero => rfl
  | succ k ih =>
      rw [freeAfter, ih]
      split <;> omega

theorem freeAfter_last (k : Nat) : freeAfter (2 ^ 32 - 1) k = (k + 1) % 2 ^ 32 := by
  induction k with
  | zero => rfl
  | succ k ih =>
      rw [freeAfter, ih]
      split <;> omega

theorem freeAfter_between {max : Nat} (hpos : 0 < max) (hlt : max < 2 ^ 32 - 1) (k : Nat) :
    freeAfter max k = min (k + 1) (max + 1) := by
  induction k with
  | zero =>
      rw [freeAfter]
      omega
  | succ k ih =>
      rw [freeAfter, ih]
      split <;> omega

/-- The `k`-th id, or none, is right exactly when that is safe. -/
theorem freeAfter_safe {max : Nat} (hmax : max < 2 ^ 32) (k : Nat) :
    Safe max (k + 1) ↔ (if max < k + 1 then max < freeAfter max k else freeAfter max k = k + 1) := by
  unfold Safe
  rcases Nat.eq_zero_or_pos max with rfl | hpos
  · -- no room: the first call gets the 0 that `free` starts with
    rw [freeAfter_zero, if_pos (Nat.succ_pos k)]
    omega
  · by_cases hlast : max = 2 ^ 32 - 1
    · -- as many nodes as there are ids: `free` wraps around and is never above the last one
      rw [hlast, freeAfter_last]
      split <;> omega
    · rw [freeAfter_between hpos (by omega)]
      split <;> omega

/-! ## Runs -/

/-- The header after `k` calls of `Allocate`: nothing is free to be used again, and `free` is the next id. -/
structure Counted (m : Mem) (k : Nat) : Prop where
  freeList : m.readWord (a.header + 20) 4 = 0
  free : m.readWord (a.header + 16) 4 = freeAfter a.maxNodeId k

variable {T a}

theorem Counted.allocate (h : Counted a m k) : ∃ m', a.allocate T m =
    some (m', if a.maxNodeId < freeAfter a.maxNodeId k then none else some (freeAfter a.maxNodeId k)) ∧
      Counted a m' (k + 1) ∧ (a.maxNodeId < freeAfter a.maxNodeId k → m' = m) := by
  dsimp only [RegionAllocator.allocate]
  rw [h.freeList, if_neg (not_not.mpr rfl), h.free]
  by_cases hfull : a.maxNodeId < freeAfter a.maxNodeId k
  · rw [if_pos hfull, if_pos hfull]
    refine ⟨m, rfl, ⟨h.freeList, ?_⟩, fun _ => rfl⟩
    rw [h.free, freeAfter, if_pos hfull]
  · rw [if_neg hfull, if_neg hfull]
    refine ⟨_, rfl, ⟨?_, ?_⟩, fun hlt => absurd hlt hfull⟩
    · rw [Mem.readWord_writeWord_disjoint (by omega), Mem.readWord_writeWord_disjoint (by omega)]
      exact h.freeList
    · rw [Mem.readWord_writeWord_disjoint (by omega), Mem.readWord_writeWord_self, freeAfter, if_neg hfull]
      norm_num

theorem counted_clear (m : Mem) : Counted a (a.clear m) 0 := by
  refine ⟨?_, ?_⟩
  · unfold clear
    rw [Mem.readWord_writeWord_self]
    rfl
  · unfold clear
    rw [Mem.readWord_writeWord_disjoint (by omega), Mem.readWord_writeWord_self, freeAfter]
    omega

theorem Counted.after (h : Counted a m k) (req : Request) : ∃ m', a.after T m req = some m' ∧ Counted a m' (count k req) := by
  cases req with
  | allocate =>
      obtain ⟨m', ha, h', -⟩ := h.allocate (T := T)
      refine ⟨m', ?_, h'⟩
      unfold RegionAllocator.after
      rw [ha]
      rfl
  | clear => exact ⟨_, rfl, counted_clear m⟩

/-- **A run counts.** -/
theorem Counted.run (h : Counted a m k) (reqs : List Request) :
    ∃ m', reqs.foldlM (a.after T) m = some m' ∧ Counted a m' (reqs.foldl count k) := by
  induction reqs generalizing m k with
  | nil => exact ⟨m, rfl, h⟩
  | cons req reqs ih =>
      obtain ⟨m₁, hreq, h₁⟩ := h.after (T := T) req
      obtain ⟨m₂, hreqs, h₂⟩ := ih h₁
      refine ⟨m₂, ?_, h₂⟩
      rw [List.foldlM_cons, hreq]
      exact hreqs

/-- One call of a run. -/
theorem Counted.serves_iff (h : Counted a m k) (hmax : a.maxNodeId < 2 ^ 32) :
    a.Serves T m (k + 1) ↔ Safe a.maxNodeId (k + 1) := by
  obtain ⟨m', ha, -, hsame⟩ := h.allocate (T := T)
  rw [freeAfter_safe hmax]
  constructor
  · intro hs
    -- what the call returned is compared with the id that `free` had
    split
    next hlt =>
      have hfull := hs.full hlt
      rw [ha, Option.some.injEq, Prod.mk.injEq] at hfull
      by_contra hle
      rw [if_neg hle] at hfull
      exact nomatch hfull.2
    next hle =>
      obtain ⟨m₁, hroom⟩ := hs.room (Nat.le_of_not_lt hle)
      rw [ha, Option.some.injEq, Prod.mk.injEq] at hroom
      split at hroom
      · exact nomatch hroom.2
      · exact Option.some.inj hroom.2
  · intro hfree
    refine ⟨fun hle => ?_, fun hlt => ?_, fun m₁ hzero => ?_⟩
    · have hnot : ¬a.maxNodeId < k + 1 := Nat.not_lt.mpr hle
      rw [if_neg hnot] at hfree
      rw [hfree, if_neg hnot] at ha
      exact ⟨m', ha⟩
    · have hlt' : a.maxNodeId < k + 1 := hlt
      rw [if_pos hlt'] at hfree
      rw [if_pos hfree, hsame hfree] at ha
      exact ha
    · rw [ha, Option.some.injEq, Prod.mk.injEq] at hzero
      split at hzero
      · exact nomatch hzero.2
      · have hid := Option.some.inj hzero.2
        split at hfree <;> omega

/-- **When a region is exhausted as it should be.** -/
theorem exhausts_iff {data : Int} {size : Nat} {header : Option Int} (hc : create T m₀ data size header = (m, some a))
    (reqs : List Request) : a.Exhausts T m reqs ↔
      ∀ done, done ++ [.allocate] <+: reqs → Safe a.maxSize (sinceClear done + 1) := by
  obtain ⟨-, -, -, hmaxId, hm⟩ := create_eq hc
  have hmax : a.maxNodeId < 2 ^ 32 := by
    rw [hmaxId]
    exact Nat.mod_lt _ (by decide)
  have h₀ : Counted a m 0 := by
    rw [hm]
    refine ⟨?_, ?_⟩
    · rw [Mem.readWord_writeWord_disjoint (by omega), Mem.readWord_writeWord_self]
      rfl
    · rw [Mem.readWord_writeWord_self, freeAfter]
      omega
  have hcall : ∀ done, (∃ m', done.foldlM (a.after T) m = some m' ∧ a.Serves T m' (sinceClear done + 1)) ↔
      Safe a.maxSize (sinceClear done + 1) := by
    intro done
    obtain ⟨m', hrun, h'⟩ := h₀.run (T := T) done
    rw [hrun]
    constructor
    · rintro ⟨m₁, heq, hs⟩
      obtain rfl := Option.some.inj heq
      exact (h'.serves_iff hmax).mp hs
    · intro hsafe
      exact ⟨m', rfl, (h'.serves_iff hmax).mpr hsafe⟩
  unfold Exhausts
  constructor
  · intro h done hdone
    exact (hcall done).mp (h done hdone)
  · intro h done hdone
    exact (hcall done).mpr (h done hdone)

/-- A region with room for three: four calls, a `clear`, and one more. -/
theorem exhausts_three :
    three.Exhausts word memThree [.allocate, .allocate, .allocate, .allocate, .clear, .allocate] := by
  refine (exhausts_iff create_three _).mpr fun done _ => ⟨fun h => ?_, fun h => ?_⟩
  · cases h
  · cases h

/-- A region of 24 bytes, which has room for its header: the first `Allocate` returns 0. -/
theorem not_exhausts_empty : ∃ m, create word (fun _ => 0) 0 24 none = (m, some ⟨0, 24, 0⟩) ∧
    ¬(⟨0, 24, 0⟩ : RegionAllocator).Exhausts word m [.allocate] ∧
    ((⟨0, 24, 0⟩ : RegionAllocator).allocate word m).map Prod.snd = some (some 0) := by
  have hc : create word (fun _ => 0) 0 24 none = ((create word (fun _ => 0) 0 24 none).1, some ⟨0, 24, 0⟩) :=
    Prod.ext rfl (by decide +kernel)
  have hzero : ((⟨0, 24, 0⟩ : RegionAllocator).allocate word (create word (fun _ => 0) 0 24 none).1).map Prod.snd =
      some (some 0) := by decide +kernel
  refine ⟨_, hc, ?_, hzero⟩
  intro h
  obtain ⟨m', hm, hs⟩ := h [] (List.prefix_refl _)
  obtain rfl := Option.some.inj hm
  obtain ⟨⟨m₁, res⟩, ha, hres⟩ := Option.map_eq_some_iff.mp hzero
  obtain rfl : res = some 0 := hres
  exact hs.valid m₁ ha

end RegionAllocator
end Snippets
