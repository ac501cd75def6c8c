import Snippets.Lib.Bytes

/-!
# `Benchmark.Model` — the ranges of a benchmark suite, and how they are run

An `int` is an integer in its range, and `i *= 2` is taken modulo `2 ^ 32`. The loops are given fuel: one that runs out fails,
with what it has done. The functions of a suite and the clock act on a world of any type; `bench` is not empty.

The table that `OutputBenchmark` prints and the list of suites are left out.
-/

namespace Snippets
namespace Benchmark

open Lib

/-! ## Ranges -/

inductive Failure
  | assertion
  | fuel
deriving DecidableEq

/-- The loop of `GenerateRange`. -/
def rangeLoop (max : Int) : Nat → Int → List Int → Except Failure (List Int)
  | 0, _, _ => .error .fuel
  | fuel + 1, i, range =>
      if i < max then rangeLoop max fuel (toInt32 (i * 2)) (range ++ [i]) else .ok range

def generateRange (fuel : Nat) (min max : Int) (range : List Int) : Except Failure (List Int) := do
  let min := if min = 0 then 1 else min
  if min ≤ max then
    let range ← rangeLoop max fuel min range
    return if min ≠ max then range ++ [max] else range
  else
    throw .assertion

/-! ## Suites -/

/-- `BenchmarkState`. -/
structure State where
  maxX : Int
  maxY : Int
  duration : UInt64 := 0
  data : Nat := 0

/-- `BenchmarkFunc`. -/
abbrev Func (W : Type) := State → W → State × W

/-- `BenchmarkSuite`. -/
structure Suite (W : Type) where
  name : String
  xs : List Int
  ys : List Int
  bench : Func W
  setup : Option (Func W)
  teardown : Option (Func W)

def Suite.create {W : Type} (fuel : Nat) (name : String) (minX maxX minY maxY : Int) (bench : Func W)
    (setup teardown : Option (Func W)) : Except Failure (Suite W) := do
  let xs ← generateRange fuel minX maxX []
  let ys ← generateRange fuel minY maxY []
  return ⟨name, xs, ys, bench, setup, teardown⟩

/-- A line of `OutputBenchmark`. -/
structure Report where
  name : String
  x : Int
  y : Int
  iteration : Int
  duration : UInt64

/-- The world, the pairs that `bench` has been called with, and the lines that have been printed. -/
structure Execution (W : Type) where
  world : W
  calls : List (Int × Int) := []
  reports : List Report := []

/-- `if (f) f(state)`. -/
def callFunc {W : Type} (f : Option (Func W)) (state : State) (world : W) : State × W :=
  match f with
  | some f => f state world
  | none => (state, world)

/-- `max_duration`. -/
def maxDuration : UInt64 := 1000 * 100

section

variable {W : Type} (getTimestamp : W → UInt64 × W) (suite : Suite W)

/-- The body of the `while` loop of `Execute`. -/
def measure (x y : Int) (e : Execution W) : State × Execution W :=
  let (state, world) := callFunc suite.setup { maxX := x, maxY := y } e.world
  let (start, world) := getTimestamp world
  let (state, world) := suite.bench state world
  let (stop, world) := getTimestamp world
  let (state, world) := callFunc suite.teardown state world
  ({ state with duration := stop - start }, { e with world := world, calls := e.calls ++ [(x, y)] })

def measureLoop (x y : Int) : Nat → UInt64 → Int → Execution W → Except (Execution W) (UInt64 × Int × Execution W)
  | 0, _, _, e => .error e
  | fuel + 1, duration, iteration, e =>
      if duration < maxDuration then
        let (state, e) := measure getTimestamp suite x y e
        measureLoop x y fuel (duration + state.duration) (toInt32 (iteration + 1)) e
      else
        .ok (duration, iteration, e)

/-- What `Execute` does for one pair. -/
def executePair (fuel : Nat) (x y : Int) (e : Execution W) : Except (Execution W) (Execution W) := do
  let (duration, iteration, e) ← measureLoop getTimestamp suite x y fuel 0 0 e
  return { e with reports := e.reports ++ [⟨suite.name, x, y, iteration, duration⟩] }

def Suite.execute (fuel : Nat) (e : Execution W) : Except (Execution W) (Execution W) :=
  suite.xs.foldlM (fun e x => suite.ys.foldlM (fun e y => executePair getTimestamp suite fuel x y e) e) e

end

/-- Where an execution has come to, whether or not it has ended. -/
def done {W : Type} : Except (Execution W) (Execution W) → Execution W
  | .ok e => e
  | .error e => e

end Benchmark
end Snippets
