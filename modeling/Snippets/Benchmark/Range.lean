import Snippets.Benchmark.Model

/-!
# `Benchmark.Range` — when the range of a benchmark is complete

`GenerateRange` appends the doublings of `min` below `max`, and then `max`. Where `min = max` it appends nothing, and a doubling
that passes `2 ^ 31` comes back below zero, behind a larger one. So the range is complete exactly when `min < max` and a doubling
of `min` reaches `max` below `2 ^ 31` (`rangesRight_iff`).
-/

namespace Snippets
namespace Benchmark

open Lib

variable {min max i : Int} {fuel k : Nat} {range added : List Int}

/-! ## The loop

The loop has no bound of its own, and so it runs on fuel. What it appends does not depend on what is there
already. -/

/-- `i` doubles until it reaches `max`, and is an `int` there. -/
def Reaches (i max : Int) : Prop := ∃ k : Nat, max ≤ i * 2 ^ k ∧ i * 2 ^ k < 2 ^ 31

/-- A mapped result comes from a result. -/
theorem map_ok_inv {α β : Type} {f : α → β} {r : Except Failure α} {b : β} (h : r.map f = .ok b) : ∃ a, r = .ok a ∧ f a = b := by
  cases r with
  | error e => cases h
  | ok a => exact ⟨a, rfl, Except.ok.inj h⟩

/-- What was there before stays in front. -/
theorem rangeLoop_append (range : List Int) : ∀ (fuel : Nat) (i : Int) (added : List Int),
    rangeLoop max fuel i (range ++ added) = (rangeLoop max fuel i added).map (range ++ ·) := by
  intro fuel
  induction fuel with
  | zero =>
      intro i added
      rfl
  | succ fuel ih =>
      intro i added
      simp only [rangeLoop, List.append_assoc, ih]
      split <;> rfl

/-- Below `max` the loop appends `i` and goes on with its doubling, as an `int`. -/
theorem rangeLoop_lt (h : i < max) :
    rangeLoop max (fuel + 1) i [] = (rangeLoop max fuel (toInt32 (i * 2)) []).map (i :: ·) := by
  have happend := @rangeLoop_append max [i] fuel (toInt32 (i * 2)) []
  simpa [rangeLoop, h] using happend

/-- From `max` on it ends. -/
theorem rangeLoop_ge (h : ¬ i < max) : rangeLoop max (fuel + 1) i range = .ok range := by
  simp [rangeLoop, h]

/-- More fuel changes nothing. -/
theorem rangeLoop_mono : ∀ (fuel n : Nat) (i : Int) (range : List Int), fuel ≤ n → rangeLoop max fuel i range = .ok added →
    rangeLoop max n i range = .ok added := by
  intro fuel
  induction fuel with
  | zero =>
      intro n i range _ hrun
      cases hrun
  | succ fuel ih =>
      intro n i range hle hrun
      obtain ⟨n, rfl⟩ : ∃ m, n = m + 1 := ⟨n - 1, by omega⟩
      by_cases h : i < max
      · simp only [rangeLoop, if_pos h] at hrun ⊢
        exact ih n _ _ (by omega) hrun
      · rw [rangeLoop_ge h] at hrun ⊢
        exact hrun

/-- A loop that ends at once has appended nothing. -/
theorem rangeLoop_ok_ge (h : ¬ i < max) (hrun : rangeLoop max fuel i [] = .ok added) : added = [] := by
  cases fuel with
  | zero => cases hrun
  | succ fuel =>
      rw [rangeLoop_ge h] at hrun
      exact (Except.ok.inj hrun).symm

/-- Below `max` a loop that ends has appended `i`, and gone on with its doubling. -/
theorem rangeLoop_ok_inv (h : i < max) (hrun : rangeLoop max fuel i [] = .ok added) :
    ∃ rest, rangeLoop max (fuel - 1) (toInt32 (i * 2)) [] = .ok rest ∧ added = i :: rest := by
  cases fuel with
  | zero => cases hrun
  | succ fuel =>
      rw [rangeLoop_lt h] at hrun
      obtain ⟨rest, hloop, hrest⟩ := map_ok_inv hrun
      exact ⟨rest, hloop, hrest.symm⟩

/-- The doublings of `i` below `max`. -/
structure Doublings (i max : Int) (added : List Int) : Prop where
  head : i < max → added.head? = some i
  below : ∀ x ∈ added, i ≤ x ∧ x < max ∧ ∃ k : Nat, x = i * 2 ^ k
  increasing : added.Pairwise (· < ·)

/-- None are below `max` when `i` is not. -/
theorem doublings_nil (h : ¬ i < max) : Doublings i max [] := ⟨fun hlt => absurd hlt h, by simp, List.Pairwise.nil⟩

/-- `i`, and the doublings of its double. -/
theorem Doublings.cons (hpos : 0 < i) (h : i < max) (hadded : Doublings (i * 2) max added) :
    Doublings i max (i :: added) := by
  refine ⟨fun _ => rfl, ?_, ?_⟩
  · intro x hx
    rcases List.mem_cons.mp hx with rfl | hx
    · exact ⟨le_refl _, h, 0, by simp⟩
    · obtain ⟨hle, hlt, k, rfl⟩ := hadded.below x hx
      exact ⟨by omega, hlt, k + 1, by ring⟩
  · refine List.pairwise_cons.mpr ⟨?_, hadded.increasing⟩
    intro x hx
    have hle := (hadded.below x hx).1
    omega

/-- With enough fuel the loop appends the doublings below `max`. -/
theorem rangeLoop_reaches (max : Int) : ∀ (k : Nat) (i : Int), 0 < i → max ≤ i * 2 ^ k → i * 2 ^ k < 2 ^ 31 →
    ∃ added, rangeLoop max (k + 1) i [] = .ok added ∧ Doublings i max added := by
  intro k
  induction k with
  | zero =>
      intro i hpos hle hlt
      have hge : ¬ i < max := by simpa using hle
      exact ⟨[], rangeLoop_ge hge, doublings_nil hge⟩
  | succ k ih =>
      intro i hpos hle hlt
      by_cases h : i < max
      · have hdouble : i * 2 * 2 ^ k = i * 2 ^ (k + 1) := by ring
        have hone : i * 2 * 1 ≤ i * 2 * 2 ^ k := Int.mul_le_mul_of_nonneg_left (by exact_mod_cast Nat.one_le_two_pow) (by omega)
        obtain ⟨added, hrun, hadded⟩ := ih (i * 2) (by omega) (by omega) (by omega)
        refine ⟨i :: added, ?_, hadded.cons hpos h⟩
        rw [rangeLoop_lt h, toInt32_of_range (by omega) (by omega), hrun]
        rfl
      · exact ⟨[], rangeLoop_ge h, doublings_nil h⟩

/-- A doubling that wraps is below zero. -/
theorem toInt32_double_neg (h₁ : 2 ^ 31 ≤ i * 2) (h₂ : i < 2 ^ 31) : toInt32 (i * 2) < 0 := by
  unfold toInt32
  split <;> omega

/-- A loop that ends with an increasing list has not wrapped. -/
theorem reaches_of_increasing (hmax : 0 < max) (hlt : max < 2 ^ 31) : ∀ (fuel : Nat) (i : Int) (added : List Int), 0 < i → i < 2 ^ 31 →
    rangeLoop max fuel i [] = .ok added → (added ++ [max]).Pairwise (· < ·) → Reaches i max := by
  intro fuel
  induction fuel with
  | zero =>
      intro i added _ _ hrun
      cases hrun
  | succ fuel ih =>
      intro i added hpos hi hrun hincr
      by_cases h : i < max
      · obtain ⟨rest, hrest, rfl⟩ := rangeLoop_ok_inv h hrun
        obtain ⟨hhead, htail⟩ := List.pairwise_cons.mp hincr
        by_cases hwrap : i * 2 < 2 ^ 31
        · rw [toInt32_of_range (by omega) hwrap] at hrest
          obtain ⟨k, hle, hk⟩ := ih (i * 2) rest (by omega) hwrap hrest htail
          have hdouble : i * 2 * 2 ^ k = i * 2 ^ (k + 1) := by ring
          exact ⟨k + 1, by omega, by omega⟩
        · -- the wrapped doubling is appended next, behind a larger one
          have hneg := toInt32_double_neg (by omega) hi
          obtain ⟨rest', -, rfl⟩ := rangeLoop_ok_inv (by omega) hrest
          have hlt' := hhead (toInt32 (i * 2)) (by simp)
          omega
      · exact ⟨0, by simpa using h, by simpa using hi⟩

/-! ## Ranges

The range is complete when `min`, its doublings and `max` are there, each once and in order. -/

/-- What a range from `min` to `max` should be. -/
structure Complete (min max : Int) (added : List Int) : Prop where
  head : added.head? = some min
  last : added.getLast? = some max
  increasing : added.Pairwise (· < ·)
  doubled : ∀ x ∈ added.dropLast, ∃ k : Nat, x = min * 2 ^ k

/-- `GenerateRange` appends what the loop does, and `max` if it is not `min`. -/
theorem generateRange_eq (hmin : 1 ≤ min) (hle : min ≤ max) :
    generateRange fuel min max range =
      (rangeLoop max fuel min []).map fun added => range ++ if min ≠ max then added ++ [max] else added := by
  have hne : ¬ min = 0 := by omega
  have happend := @rangeLoop_append max range fuel min []
  rw [List.append_nil] at happend
  simp only [generateRange, if_neg hne, if_pos hle, happend]
  cases rangeLoop max fuel min [] with
  | error e => rfl
  | ok added =>
      by_cases heq : min = max
      · simp [heq, Except.map, bind, Except.bind, pure, Except.pure]
      · simp [heq, Except.map, bind, Except.bind, pure, Except.pure]

/-- More fuel changes nothing here either. -/
theorem generateRange_mono (hmin : 1 ≤ min) (hle : min ≤ max) {n : Nat} (hn : fuel ≤ n)
    (hrun : generateRange fuel min max range = .ok added) : generateRange n min max range = .ok added := by
  rw [generateRange_eq hmin hle] at hrun ⊢
  obtain ⟨below, hloop, hadded⟩ := map_ok_inv hrun
  rw [rangeLoop_mono fuel n min [] hn hloop, ← hadded]
  rfl

/-- `GenerateRange` ends, and what it appends is complete. -/
def GeneratesComplete (min max : Int) : Prop :=
  ∀ range : List Int, ∃ fuel added, generateRange fuel min max range = .ok (range ++ added) ∧ Complete min max added

/-- The doublings, and `max` behind them. -/
theorem Doublings.complete (h : Doublings min max added) (hlt : min < max) : Complete min max (added ++ [max]) := by
  refine ⟨by simp [h.head hlt], by simp, ?_, ?_⟩
  · refine List.pairwise_append.mpr ⟨h.increasing, by simp, ?_⟩
    intro x hx y hy
    rw [List.mem_singleton.mp hy]
    exact (h.below x hx).2.1
  · intro x hx
    rw [List.dropLast_concat] at hx
    exact (h.below x hx).2.2

/-- The range is complete exactly when `min` is below `max` and its doublings reach `max` as `int`s. -/
theorem generatesComplete_iff (hmin : 1 ≤ min) (hle : min ≤ max) (hlt : max < 2 ^ 31) :
    GeneratesComplete min max ↔ min < max ∧ Reaches min max := by
  constructor
  · intro hgen
    obtain ⟨fuel, added, hrun, hadded⟩ := hgen []
    rw [generateRange_eq hmin hle] at hrun
    obtain ⟨below, hloop, heq⟩ := map_ok_inv hrun
    rw [List.nil_append, List.nil_append] at heq
    by_cases hmm : min = max
    · -- the loop appends nothing
      have hnil : added = [] := by simpa [hmm, rangeLoop_ok_ge (by omega) hloop] using heq.symm
      have hhead := hadded.head
      simp [hnil] at hhead
    · refine ⟨by omega, reaches_of_increasing (by omega) hlt fuel min below (by omega) (by omega) hloop ?_⟩
      have hincr := hadded.increasing
      rwa [← heq, if_pos hmm] at hincr
  · rintro ⟨hmm, k, hk, hklt⟩ range
    obtain ⟨below, hloop, hbelow⟩ := rangeLoop_reaches max k min (by omega) hk hklt
    refine ⟨k + 1, below ++ [max], ?_, hbelow.complete hmm⟩
    rw [generateRange_eq hmin hle, hloop]
    simp [Except.map, hmm.ne]

/-! ## Execution -/

section

variable {W α : Type} {getTimestamp : W → UInt64 × W} {suite : Suite W} {e : Execution W} {x y : Int}

theorem measure_calls : (measure getTimestamp suite x y e).2.calls = e.calls ++ [(x, y)] := rfl

/-- The calls of a loop come on top of those before it, also where the fuel runs out. -/
theorem measureLoop_calls : ∀ (fuel : Nat) (duration : UInt64) (iteration : Int) (e : Execution W),
    e.calls <+: (done ((measureLoop getTimestamp suite x y fuel duration iteration e).map (·.2.2))).calls := by
  intro fuel
  induction fuel with
  | zero =>
      intro duration iteration e
      exact List.prefix_refl _
  | succ fuel ih =>
      intro duration iteration e
      by_cases h : duration < maxDuration
      · have hnext := ih (duration + (measure getTimestamp suite x y e).1.duration) (toInt32 (iteration + 1))
          (measure getTimestamp suite x y e).2
        rw [measure_calls] at hnext
        simp only [measureLoop, if_pos h]
        exact (List.prefix_append _ _).trans hnext
      · simp only [measureLoop, if_neg h]
        exact List.prefix_refl _

theorem executePair_done : (done (executePair getTimestamp suite fuel x y e)).calls =
    (done ((measureLoop getTimestamp suite x y fuel 0 0 e).map (·.2.2))).calls := by
  unfold executePair
  cases measureLoop getTimestamp suite x y fuel 0 0 e with
  | error e' => rfl
  | ok r => rfl

/-- No pair is left out: its loop starts from no duration. -/
theorem executePair_called (hfuel : 0 < fuel) : (x, y) ∈ (done (executePair getTimestamp suite fuel x y e)).calls := by
  obtain ⟨fuel, rfl⟩ : ∃ n, fuel = n + 1 := ⟨fuel - 1, by omega⟩
  have hstart : (0 : UInt64) < maxDuration := by decide
  rw [executePair_done]
  simp only [measureLoop, if_pos hstart]
  have hnext := @measureLoop_calls W getTimestamp suite x y fuel
    (0 + (measure getTimestamp suite x y e).1.duration) (toInt32 (0 + 1)) (measure getTimestamp suite x y e).2
  rw [measure_calls] at hnext
  exact hnext.subset (by simp)

theorem done_bind_calls {f : Execution W → Except (Execution W) (Execution W)} (hf : ∀ e, e.calls <+: (done (f e)).calls)
    (r : Except (Execution W) (Execution W)) : (done r).calls <+: (done (r >>= f)).calls := by
  cases r with
  | error e => exact List.prefix_refl _
  | ok e => exact hf e

variable {f : Execution W → α → Except (Execution W) (Execution W)}

theorem foldlM_calls (hf : ∀ e a, e.calls <+: (done (f e a)).calls) :
    ∀ (l : List α) (e : Execution W), e.calls <+: (done (l.foldlM f e)).calls := by
  intro l
  induction l with
  | nil =>
      intro e
      exact List.prefix_refl _
  | cons a l ih =>
      intro e
      rw [List.foldlM_cons]
      exact (hf e a).trans (done_bind_calls ih (f e a))

theorem foldlM_calls_head (hf : ∀ e a, e.calls <+: (done (f e a)).calls) (a : α) (l : List α) (e : Execution W) :
    (done (f e a)).calls <+: (done ((a :: l).foldlM f e)).calls := by
  rw [List.foldlM_cons]
  exact done_bind_calls (foldlM_calls hf l) (f e a)

/-- The first pair is called. -/
theorem execute_called (hfuel : 0 < fuel) (hx : suite.xs.head? = some x) (hy : suite.ys.head? = some y) :
    (x, y) ∈ (done (suite.execute getTimestamp fuel e)).calls := by
  have hpair (x : Int) : ∀ (e : Execution W) (y : Int), e.calls <+: (done (executePair getTimestamp suite fuel x y e)).calls := by
    intro e y
    rw [executePair_done]
    exact measureLoop_calls fuel 0 0 e
  obtain ⟨xs, hxs⟩ := List.head?_eq_some_iff.mp hx
  obtain ⟨ys, hys⟩ := List.head?_eq_some_iff.mp hy
  have hrow := foldlM_calls_head (hpair x) y ys e
  rw [← hys] at hrow
  unfold Suite.execute
  rw [hxs]
  have hall := foldlM_calls_head (fun e x => foldlM_calls (hpair x) suite.ys e) x xs e
  exact hall.subset (hrow.subset (executePair_called hfuel))

end

/-! ## Suites -/

/-- What the bounds of a suite should give: complete ranges, and an `Execute` that calls the benchmark for a pair of them. -/
structure RangesRight (minX maxX minY maxY : Int) : Prop where
  x : GeneratesComplete minX maxX
  y : GeneratesComplete minY maxY
  runs : ∀ (W : Type) (getTimestamp : W → UInt64 × W) (name : String) (bench : Func W) (setup teardown : Option (Func W)),
    ∃ fuel suite, Suite.create fuel name minX maxX minY maxY bench setup teardown = .ok suite ∧
      ∀ n > 0, ∀ world, ∃ x ∈ suite.xs, ∃ y ∈ suite.ys, (x, y) ∈ (done (suite.execute getTimestamp n { world := world })).calls

variable {minX maxX minY maxY : Int}

theorem create_eq (hminX : 1 ≤ minX) (hleX : minX ≤ maxX) (hminY : 1 ≤ minY) (hleY : minY ≤ maxY)
    {W : Type} {name : String} {bench : Func W} {setup teardown : Option (Func W)} {n : Nat} {xs ys : List Int}
    (hx : generateRange fuel minX maxX [] = .ok xs) (hy : generateRange n minY maxY [] = .ok ys) :
    Suite.create (Nat.max fuel n) name minX maxX minY maxY bench setup teardown =
      .ok ⟨name, xs, ys, bench, setup, teardown⟩ := by
  unfold Suite.create
  rw [generateRange_mono hminX hleX (Nat.le_max_left fuel n) hx, generateRange_mono hminY hleY (Nat.le_max_right fuel n) hy]
  rfl

/-- **The ranges of a suite are right exactly when the lower bounds lie below the upper ones, and their doublings reach them
    below `2 ^ 31`.** -/
theorem rangesRight_iff (hminX : 1 ≤ minX) (hleX : minX ≤ maxX) (hltX : maxX < 2 ^ 31)
    (hminY : 1 ≤ minY) (hleY : minY ≤ maxY) (hltY : maxY < 2 ^ 31) :
    RangesRight minX maxX minY maxY ↔ (minX < maxX ∧ Reaches minX maxX) ∧ (minY < maxY ∧ Reaches minY maxY) := by
  rw [← generatesComplete_iff hminX hleX hltX, ← generatesComplete_iff hminY hleY hltY]
  constructor
  · intro h
    exact ⟨h.x, h.y⟩
  · rintro ⟨hx, hy⟩
    refine ⟨hx, hy, ?_⟩
    intro W getTimestamp name bench setup teardown
    obtain ⟨fuel, xs, hxs, hxc⟩ := hx []
    obtain ⟨n, ys, hys, hyc⟩ := hy []
    refine ⟨_, _, create_eq hminX hleX hminY hleY hxs hys, ?_⟩
    intro n' hn' world
    exact ⟨minX, List.mem_of_head? hxc.head, minY, List.mem_of_head? hyc.head, execute_called hn' hxc.head hyc.head⟩

/-- From `1` to `10`, and from `3` to `12`. -/
theorem rangesRight_ten : RangesRight 1 10 3 12 :=
  (rangesRight_iff (by decide) (by decide) (by decide) (by decide) (by decide) (by decide)).mpr
    ⟨⟨by decide, 4, by decide, by decide⟩, by decide, 2, by decide, by decide⟩

/-- The doublings of `1` pass from `2 ^ 30` to `2 ^ 31`. -/
theorem not_reaches_max : ¬ Reaches 1 (2 ^ 31 - 1) := by
  rintro ⟨k, hle, hlt⟩
  rcases Nat.lt_or_ge k 31 with hk | hk
  · have hpow : (2 : Int) ^ k ≤ 2 ^ 30 := pow_le_pow_right₀ (by decide) (by omega)
    omega
  · have hpow : (2 : Int) ^ 31 ≤ 2 ^ k := pow_le_pow_right₀ (by decide) hk
    omega

/-- From `5` to `5` nothing is appended, and the doublings of `1` do not reach `2 ^ 31 - 1`. -/
theorem not_rangesRight_five : ¬ RangesRight 5 5 5 5 ∧ ¬ RangesRight 1 (2 ^ 31 - 1) 1 10 := by
  constructor
  · intro h
    have hlt := ((generatesComplete_iff (by decide) (by decide) (by decide)).mp h.x).1
    exact absurd hlt (by decide)
  · intro h
    have hreach := ((generatesComplete_iff (by decide) (by decide) (by decide)).mp h.x).2
    exact not_reaches_max hreach

end Benchmark
end Snippets
