import Mathlib.Tactic.Ring
import Mathlib.Data.List.Basic
import Mathlib.Data.Nat.ModEq
import Mathlib.Algebra.Order.Ring.Int

/-!
# `Lib.Bytes` — little-endian words and byte-addressed memory

The programs modelled here overlay C structs on raw byte ranges, so two things are needed once and for all:

* **words** — `toLe n v` is the `n`-byte little-endian image of `v` and `ofLe` reads such an image back;
  `toInt32` and `toSize` are the conversions of an integer to a 32-bit `int` (two's complement
  wrap-around) and to a 64-bit `size_t`;
* **memory** — `Mem` is a total map from addresses to bytes, with `write` (`memcpy`/`memset`) and `read`.
  The frame rule is `read_write_disjoint`: a read that misses the written range does not see the write.
-/

namespace Snippets
namespace Lib

/-! ## Little-endian words -/

/-- The `n` low bytes of `v`, least significant first. -/
def toLe : Nat → Nat → List UInt8
  | 0, _ => []
  | n + 1, v => UInt8.ofNat v :: toLe n (v / 256)

/-- The value of a little-endian byte string. -/
def ofLe : List UInt8 → Nat
  | [] => 0
  | b :: bs => b.toNat + 256 * ofLe bs

@[simp] theorem toLe_length (n v : Nat) : (toLe n v).length = n := by
  induction n generalizing v with
  | zero => rfl
  | succ n ih => simp [toLe, ih]

/-- Reading back `n` bytes of `v` gives `v` modulo `256 ^ n`. -/
theorem ofLe_toLe (n v : Nat) : ofLe (toLe n v) = v % 256 ^ n := by
  induction n generalizing v with
  | zero => simp [toLe, ofLe, Nat.mod_one]
  | succ n ih =>
      have h₁ : (UInt8.ofNat v).toNat = v % 256 := UInt8.toNat_ofNat'
      rw [toLe, ofLe, ih, h₁, Nat.pow_succ', Nat.mod_mul]

theorem ofLe_lt (bs : List UInt8) : ofLe bs < 256 ^ bs.length := by
  induction bs with
  | nil => simp [ofLe]
  | cons b bs ih =>
      have hb := b.toNat_lt
      rw [ofLe, List.length_cons, Nat.pow_succ']
      omega

/-! ## Conversion to `int` and `size_t` -/

/-- Conversion of an integer to a 32-bit `int`. -/
@[irreducible] def toInt32 (x : Int) : Int :=
  if 2 ^ 31 ≤ (x % 2 ^ 32).toNat then (x % 2 ^ 32).toNat - 2 ^ 32 else (x % 2 ^ 32).toNat

theorem toInt32_of_range {x : Int} (h₁ : -(2 ^ 31) ≤ x) (h₂ : x < 2 ^ 31) : toInt32 x = x := by
  unfold toInt32
  split <;> omega

/-- Conversion of an integer to a 64-bit `size_t`. -/
@[irreducible] def toSize (x : Int) : Nat := (x % 2 ^ 64).toNat

theorem toSize_of_range {x : Int} (h₁ : 0 ≤ x) (h₂ : x < 2 ^ 64) : toSize x = x.toNat := by
  unfold toSize
  rw [Int.emod_eq_of_lt h₁ h₂]

/-- One wrap-around. -/
theorem toSize_of_wrap {x : Int} (h₁ : 2 ^ 64 ≤ x) (h₂ : x < 2 ^ 65) : toSize x = (x - 2 ^ 64).toNat := by
  unfold toSize
  rw [← Int.sub_emod_right, Int.emod_eq_of_lt (by omega) (by omega)]

/-- The bytes of an `int`. -/
def int32Bytes (v : Int) : List UInt8 := toLe 4 (v % 2 ^ 32).toNat

/-- The `int` held by four bytes. -/
def int32OfBytes (bs : List UInt8) : Int := toInt32 (ofLe bs)

@[simp] theorem int32Bytes_length (v : Int) : (int32Bytes v).length = 4 := toLe_length _ _

theorem int32OfBytes_int32Bytes (v : Int) : int32OfBytes (int32Bytes v) = toInt32 v := by
  unfold int32OfBytes int32Bytes
  rw [ofLe_toLe]
  have h : ((((v % 2 ^ 32).toNat % 256 ^ 4 : Nat)) : Int) = v % 2 ^ 32 := by omega
  rw [h]
  unfold toInt32
  rw [Int.emod_emod_of_dvd v (dvd_refl _)]

/-! ## Memory -/

/-- Byte-addressed memory. -/
abbrev Mem := Int → UInt8

namespace Mem

/-- Store the bytes `bs` from address `a` on. -/
def write (m : Mem) (a : Int) (bs : List UInt8) : Mem :=
  fun x => if a ≤ x ∧ x < a + bs.length then bs.getD (x - a).toNat 0 else m x

/-- The `n` bytes from address `a` on. -/
def read (m : Mem) (a : Int) (n : Nat) : List UInt8 := (List.range n).map fun i : Nat => m (a + i)

variable {m : Mem} {a b : Int} {n k : Nat} {bs : List UInt8}

@[simp] theorem read_length (m : Mem) (a : Int) (n : Nat) : (m.read a n).length = n := by
  simp [read]

theorem write_outside {x : Int} (h : x < a ∨ a + bs.length ≤ x) : m.write a bs x = m x := by
  unfold write
  rw [if_neg (by omega)]

theorem write_inside {i : Nat} (h : i < bs.length) : m.write a bs (a + i) = bs[i] := by
  unfold write
  rw [if_pos (by omega)]
  have hi : (a + i - a).toNat = i := by omega
  rw [hi]
  simp [h]

/-- Equal bytes at two places read the same. -/
theorem read_shift {m' : Mem} {b : Int} (h : ∀ i : Nat, i < n → m (a + i) = m' (b + i)) : m.read a n = m'.read b n := by
  unfold read
  apply List.map_congr_left
  intro i hi
  exact h i (List.mem_range.mp hi)

theorem read_congr {m' : Mem} (h : ∀ i : Nat, i < n → m (a + i) = m' (a + i)) :
    m.read a n = m'.read a n := read_shift h

/-- **The frame rule.** A read that misses the written range does not see the write. -/
theorem read_write_disjoint (h : a + n ≤ b ∨ b + bs.length ≤ a) :
    (m.write b bs).read a n = m.read a n := by
  apply read_congr
  intro i hi
  apply write_outside
  omega

/-- Reading exactly the written range gives the written bytes. -/
theorem read_write_self : (m.write a bs).read a bs.length = bs := by
  unfold read
  apply List.ext_getElem
  · simp
  · intro i h₁ h₂
    rw [List.getElem_map, List.getElem_range, write_inside h₂]

/-- **Moved bytes.** A read inside the written range gives what was at the same place of the range they came from. -/
theorem read_write_read {m' : Mem} {o : Nat} (h : o + k ≤ n) :
    (m.write a (m'.read b n)).read (a + o) k = m'.read (b + o) k := by
  apply read_shift
  intro i hi
  have hin : o + i < (m'.read b n).length := by
    rw [read_length]
    omega
  have hwrite := write_inside (m := m) (a := a) hin
  have hget : (m'.read b n)[o + i] = m' (b + (o + i : Nat)) := by simp [read]
  rw [hget] at hwrite
  simpa [Int.add_assoc] using hwrite

/-! ### Byte strings in memory -/

/-- The bytes `bs` lie in memory from address `a` on. -/
def Holds (m : Mem) : Int → List UInt8 → Prop
  | _, [] => True
  | a, b :: bs => m a = b ∧ Holds m (a + 1) bs

theorem holds_append {cs : List UInt8} :
    Holds m a (bs ++ cs) ↔ Holds m a bs ∧ Holds m (a + bs.length) cs := by
  induction bs generalizing a with
  | nil => simp [Holds]
  | cons b bs ih =>
      have hadd : a + 1 + (bs.length : Int) = a + ((bs.length + 1 : Nat) : Int) := by push_cast; ring
      simp only [List.cons_append, Holds, ih, List.length_cons, hadd, and_assoc]

theorem Holds.drop (h : Holds m a bs) (n : Nat) (hn : n ≤ bs.length) : Holds m (a + n) (bs.drop n) := by
  have h' := h
  rw [← List.take_append_drop n bs, holds_append, List.length_take, Nat.min_eq_left hn] at h'
  exact h'.2

/-- What is read back is what is held. -/
theorem holds_iff_read : Holds m a bs ↔ m.read a bs.length = bs := by
  induction bs generalizing a with
  | nil => simp [Holds, read]
  | cons b bs ih =>
      have hread : m.read a (bs.length + 1) = m a :: m.read (a + 1) bs.length := by
        unfold read
        rw [List.range_succ_eq_map, List.map_cons, List.map_map]
        refine congrArg₂ _ (by simp) (List.map_congr_left fun i _ => ?_)
        simp only [Function.comp_apply]
        push_cast
        ring_nf
      rw [Holds, ih, List.length_cons, hread, List.cons.injEq]

/-! ### `int` cells -/

def readInt32 (m : Mem) (a : Int) : Int := int32OfBytes (m.read a 4)

def writeInt32 (m : Mem) (a v : Int) : Mem := m.write a (int32Bytes v)

theorem readInt32_writeInt32_self {v : Int} (h₁ : -(2 ^ 31) ≤ v) (h₂ : v < 2 ^ 31) :
    (m.writeInt32 a v).readInt32 a = v := by
  unfold readInt32 writeInt32
  have h : (m.write a (int32Bytes v)).read a (int32Bytes v).length = int32Bytes v := read_write_self
  rw [int32Bytes_length] at h
  rw [h, int32OfBytes_int32Bytes, toInt32_of_range h₁ h₂]

theorem readInt32_writeInt32_disjoint {v : Int} (h : a + 4 ≤ b ∨ b + 4 ≤ a) :
    (m.writeInt32 b v).readInt32 a = m.readInt32 a := by
  unfold readInt32 writeInt32
  rw [read_write_disjoint (by rw [int32Bytes_length]; exact h)]

theorem writeInt32_outside {v x : Int} (h : x < a ∨ a + 4 ≤ x) : m.writeInt32 a v x = m x :=
  write_outside (by rw [int32Bytes_length]; exact h)

/-! ### Unsigned words -/

/-- The unsigned word of `n` bytes at an address. -/
def readWord (m : Mem) (a : Int) (n : Nat) : Nat := ofLe (m.read a n)

def writeWord (m : Mem) (a : Int) (n v : Nat) : Mem := m.write a (toLe n v)

theorem readWord_lt (m : Mem) (a : Int) (n : Nat) : m.readWord a n < 256 ^ n := by
  have h := ofLe_lt (m.read a n)
  rw [read_length] at h
  exact h

theorem readWord_writeWord_self (v : Nat) : (m.writeWord a n v).readWord a n = v % 256 ^ n := by
  have h : (m.write a (toLe n v)).read a (toLe n v).length = toLe n v := read_write_self
  rw [toLe_length] at h
  unfold readWord writeWord
  rw [h, ofLe_toLe]

theorem read_writeWord_disjoint {v : Nat} (h : a + n ≤ b ∨ b + k ≤ a) : (m.writeWord b k v).read a n = m.read a n := by
  unfold writeWord
  exact read_write_disjoint (by rw [toLe_length]; exact h)

theorem readWord_writeWord_disjoint {v : Nat} (h : a + n ≤ b ∨ b + k ≤ a) :
    (m.writeWord b k v).readWord a n = m.readWord a n := by
  unfold readWord
  rw [read_writeWord_disjoint h]

theorem readWord_write_disjoint (h : a + n ≤ b ∨ b + bs.length ≤ a) : (m.write b bs).readWord a n = m.readWord a n := by
  unfold readWord
  rw [read_write_disjoint h]

theorem writeWord_outside {v : Nat} {x : Int} (h : x < a ∨ a + n ≤ x) : m.writeWord a n v x = m x :=
  write_outside (by rw [toLe_length]; exact h)

theorem readWord_shift {m' : Mem} {b : Int} (h : ∀ i : Nat, i < n → m (a + i) = m' (b + i)) :
    m.readWord a n = m'.readWord b n := by
  unfold readWord
  rw [read_shift h]

end Mem

end Lib
end Snippets
