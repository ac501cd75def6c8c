import Mathlib.Data.List.Nodup
import Mathlib.Tactic.Basic
import Mathlib.Tactic.Push
import Snippets.Logger.AsyncLogger

/-!
# `Logger.Lossless` — nothing lost, duplicated or reordered

Every byte accepted by `Write` and not yet handed to `output_` sits, in order, in the thread's
`buffers_to_write`, then `buffers_`, then `current_` (`stream`). Each step moves bytes along that line and
never past one another, so the line always reads as the concatenation of the `Write` arguments
(`traceInv_run`); the final flush empties it into `output_`.

The ownership half of the invariant is what makes this sound on a heap of shared objects: the ids held by
`current_`, `next_`, `buffers_`, `tmp1` and `buffers_to_write` are pairwise distinct (`Inv.nodup`), so the
recycled buffer cleared in the output section is not one that still holds data.
-/

namespace Snippets
namespace Logger

open Lib

namespace FixedSizeBuffer

variable {size : Nat}

@[simp] theorem new_data : (new : FixedSizeBuffer size).data = [] := rfl

@[simp] theorem clearUsed_data (b : FixedSizeBuffer size) : b.clearUsed.data = [] := rfl

@[simp] theorem used_eq_zero {b : FixedSizeBuffer size} : b.used = 0 ↔ b.data = [] := by
  simp [used]

/-- `Append` succeeds exactly when the bytes fit, and adds them at the end. -/
theorem append_of_le {b : FixedSizeBuffer size} {bs : List UInt8} (h : bs.length ≤ b.available) :
    ∃ b', b.append bs = some b' ∧ b'.data = b.data ++ bs := by
  simp [append, h]

theorem append_some {b b' : FixedSizeBuffer size} {bs : List UInt8} (h : b.append bs = some b') :
    b'.data = b.data ++ bs := by
  unfold append at h
  split at h
  · cases h; rfl
  · cases h

end FixedSizeBuffer

namespace AsyncLogger

variable {s t : AsyncLogger}

/-! ## Ownership and the byte stream -/

/-- The buffer objects. -/
abbrev Heap := BufId → FixedSizeBuffer kBufferSize

/-- The bytes of a list of buffer objects, one after another. -/
def bytesOf (h : Heap) (bs : List BufId) : List UInt8 := (bs.map fun b => (h b).data).flatten

/-- Every buffer object some owner points to. -/
def owned (s : AsyncLogger) : List BufId :=
  s.current :: (s.next.toList ++ s.buffers ++ s.tmp1.toList ++ s.buffersToWrite)

/-- Everything accepted so far: what `output_` got, then what is still on its way to it. -/
def stream (s : AsyncLogger) : List UInt8 :=
  s.out.flatten ++ bytesOf s.heap s.buffersToWrite ++ bytesOf s.heap s.buffers
    ++ (s.heap s.current).data

/-- The reachable states: ownership, emptiness of the spare buffers, and what each thread position owes. -/
structure Inv (s : AsyncLogger) : Prop where
  nodup : s.owned.Nodup
  allocated : ∀ b ∈ s.owned, b < s.fresh
  nextNull : s.next = none → s.buffers ≠ []
  nextEmpty : ∀ b, s.next = some b → (s.heap b).data = []
  tmp1Empty : ∀ b, s.tmp1 = some b → (s.heap b).data = []
  tmp1Held : s.pc = .loopHead ∨ s.pc = .locking → s.tmp1 ≠ none
  unstarted : s.pc = .notStarted → s.tmp1 = none
  recycle : s.pc = .writing → s.tmp1 = none → s.buffersToWrite ≠ []
  idle : s.pc ≠ .writing → s.buffersToWrite = []
  outputSet : s.outputSet = true

theorem inv_create : Inv create := by
  constructor <;> simp [create, owned]

/-! ## Heap updates seen by the owners -/

@[simp] theorem bytesOf_nil (h : Heap) : bytesOf h [] = [] := rfl

@[simp] theorem bytesOf_append (h : Heap) (xs ys : List BufId) :
    bytesOf h (xs ++ ys) = bytesOf h xs ++ bytesOf h ys := by
  simp [bytesOf]

@[simp] theorem bytesOf_cons (h : Heap) (x : BufId) (xs : List BufId) :
    bytesOf h (x :: xs) = (h x).data ++ bytesOf h xs := by
  simp [bytesOf]

/-- The heap `setBuf` leaves behind. -/
def upd (h : Heap) (i : BufId) (b : FixedSizeBuffer kBufferSize) : Heap := fun j => if j = i then b else h j

@[simp] theorem setBuf_eq (i : BufId) (b : FixedSizeBuffer kBufferSize) :
    s.setBuf i b = { s with heap := upd s.heap i b } := rfl

@[simp] theorem upd_self (h : Heap) (i : BufId) (b : FixedSizeBuffer kBufferSize) :
    upd h i b i = b := by simp [upd]

theorem upd_ne {h : Heap} {i j : BufId} (hj : j ≠ i) (b : FixedSizeBuffer kBufferSize) :
    upd h i b j = h j := by simp [upd, hj]

/-- Updating a buffer object outside `xs` leaves the bytes of `xs` alone. -/
theorem bytesOf_upd {h : Heap} {xs : List BufId} {i : BufId} (hi : i ∉ xs)
    (b : FixedSizeBuffer kBufferSize) : bytesOf (upd h i b) xs = bytesOf h xs := by
  unfold bytesOf
  congr 1
  apply List.map_congr_left
  intro j hj
  have hne : j ≠ i := fun e => hi (e ▸ hj)
  rw [upd_ne hne]

/-- `current_` is owned by nobody else. -/
theorem Inv.current_not_mem (hi : Inv s) :
    s.next ≠ some s.current ∧ s.current ∉ s.buffers ∧ s.tmp1 ≠ some s.current ∧
      s.current ∉ s.buffersToWrite := by
  have h := (List.nodup_cons.mp hi.nodup).1
  simp only [List.mem_append, not_or, Option.mem_toList] at h
  exact ⟨h.1.1.1, h.1.1.2, h.1.2, h.2⟩

/-- A buffer the thread is writing out is owned by nobody else. -/
theorem Inv.toWrite_not_mem (hi : Inv s) {b : BufId} (hb : b ∈ s.buffersToWrite) :
    b ≠ s.current ∧ s.next ≠ some b ∧ b ∉ s.buffers := by
  have h := hi.nodup
  simp only [owned, List.nodup_cons, List.mem_append, List.nodup_append, Option.mem_toList] at h
  refine ⟨fun e => h.1 (Or.inr (e ▸ hb)), fun e => ?_, fun hq => ?_⟩
  · exact h.2.2.2 b (Or.inl (Or.inl e)) b hb rfl
  · exact h.2.2.2 b (Or.inl (Or.inr hq)) b hb rfl

/-- The next id `new` would hand out is owned by nobody. -/
theorem Inv.fresh_not_mem (hi : Inv s) : s.fresh ∉ s.owned :=
  fun h => absurd (hi.allocated _ h) (Nat.lt_irrefl _)

/-! ## `new FixedSizeBufferType` -/

/-- Allocating touches no owned buffer: the invariant and the stream stay. -/
theorem Inv.newBuffer (hi : Inv s) :
    Inv s.newBuffer.1 ∧ s.newBuffer.1.stream = s.stream ∧ s.newBuffer.1.owned = s.owned ∧
      (s.newBuffer.1.heap s.fresh).data = [] := by
  have hf := hi.fresh_not_mem
  simp only [owned, List.mem_cons, List.mem_append, Option.mem_toList, not_or] at hf
  obtain ⟨hc, ⟨⟨hn, hq⟩, ht⟩, hw⟩ := hf
  refine ⟨{ hi with allocated := ?_, nextEmpty := ?_, tmp1Empty := ?_ }, ?_, rfl, ?_⟩
  · intro b hb; exact Nat.lt_succ_of_lt (hi.allocated b hb)
  · intro b hb
    show (upd s.heap s.fresh .new b).data = []
    rw [upd_ne (fun e => hn (by rw [← e]; exact hb))]; exact hi.nextEmpty b hb
  · intro b hb
    show (upd s.heap s.fresh .new b).data = []
    rw [upd_ne (fun e => ht (by rw [← e]; exact hb))]; exact hi.tmp1Empty b hb
  · simp only [AsyncLogger.newBuffer, setBuf_eq, stream, bytesOf_upd hw, bytesOf_upd hq,
      upd_ne (Ne.symm hc)]
  · simp [AsyncLogger.newBuffer]

/-! ## `Write` -/

/-- Appending to `current_` keeps the invariant and extends the stream. -/
theorem Inv.setCurrent (hi : Inv s) {b : FixedSizeBuffer kBufferSize} {bs : List UInt8}
    (hb : b.data = (s.heap s.current).data ++ bs) :
    Inv (s.setBuf s.current b) ∧ (s.setBuf s.current b).stream = s.stream ++ bs := by
  obtain ⟨hn, hq, ht, hw⟩ := hi.current_not_mem
  refine ⟨{ hi with nextEmpty := ?_, tmp1Empty := ?_ }, ?_⟩
  · intro c hc
    show (upd s.heap s.current b c).data = []
    rw [upd_ne (fun e => hn (by rw [← e]; exact hc))]; exact hi.nextEmpty c hc
  · intro c hc
    show (upd s.heap s.current b c).data = []
    rw [upd_ne (fun e => ht (by rw [← e]; exact hc))]; exact hi.tmp1Empty c hc
  · simp only [setBuf_eq, stream, bytesOf_upd hw, bytesOf_upd hq, upd_self, hb, List.append_assoc]

/-- Queueing `current_` and continuing in an empty buffer `n` that nothing else needs. -/
theorem Inv.requeue (hi : Inv s) {n : BufId} (hperm : (n :: s.current :: (s.buffers ++ s.tmp1.toList
      ++ s.buffersToWrite)).Nodup) (hlt : n < s.fresh) (hn : (s.heap n).data = []) :
    Inv { s with buffers := s.buffers ++ [s.current], current := n, next := none } ∧
      stream { s with buffers := s.buffers ++ [s.current], current := n, next := none } = s.stream := by
  have hp : (n :: (s.buffers ++ [s.current] ++ s.tmp1.toList ++ s.buffersToWrite)).Perm
      (n :: s.current :: (s.buffers ++ s.tmp1.toList ++ s.buffersToWrite)) := by
    simp only [List.append_assoc, List.singleton_append]
    exact List.Perm.cons n List.perm_middle
  refine ⟨{ hi with nodup := hp.nodup_iff.mpr hperm, allocated := ?_, nextNull := ?_, nextEmpty := ?_ }, ?_⟩
  · intro b hb
    have hb' := hp.mem_iff.mp hb
    simp only [List.mem_cons, List.mem_append] at hb'
    rcases hb' with rfl | rfl | hb'
    · exact hlt
    · exact hi.allocated _ (by simp [owned])
    · exact hi.allocated b (by simp only [owned, List.mem_cons, List.mem_append]; tauto)
  · intro _; simp
  · intro b hb; cases hb
  · simp only [stream, bytesOf_append, bytesOf_cons, bytesOf_nil, hn, List.append_nil, List.append_assoc]

/-- Rotating `current_` into the queue keeps the invariant and the stream, and leaves it empty. -/
theorem Inv.rotate (hi : Inv s) :
    Inv s.rotate ∧ s.rotate.stream = s.stream ∧ (s.rotate.heap s.rotate.current).data = [] ∧
      s.rotate.pc = s.pc := by
  cases hn : s.next with
  | some n =>
      have hne := hi.nextEmpty n hn
      have hnd := hi.nodup
      simp only [owned, hn, Option.toList, List.singleton_append] at hnd
      have hnd' := (List.Perm.swap n s.current _).nodup_iff.mp hnd
      have hr : s.rotate = { s with buffers := s.buffers ++ [s.current], current := n, next := none } := by
        simp only [AsyncLogger.rotate, hn]
      obtain ⟨h₁, h₂⟩ := hi.requeue hnd' (hi.allocated n (by simp [owned, hn])) hne
      rw [hr]
      exact ⟨h₁, h₂, hne, rfl⟩
  | none =>
      obtain ⟨hi', hs', ho', he'⟩ := hi.newBuffer
      have hnd : (s.fresh :: s.owned).Nodup := List.nodup_cons.mpr ⟨hi.fresh_not_mem, hi.nodup⟩
      simp only [owned, hn, Option.toList, List.nil_append] at hnd
      have hr : s.rotate = { s.newBuffer.1 with
          buffers := s.newBuffer.1.buffers ++ [s.newBuffer.1.current], current := s.fresh, next := none } := by
        simp only [AsyncLogger.rotate, hn, AsyncLogger.newBuffer, setBuf_eq]
      obtain ⟨h₁, h₂⟩ := hi'.requeue (n := s.fresh) hnd (Nat.lt_succ_self _) he'
      rw [hr]
      exact ⟨h₁, h₂.trans hs', he', rfl⟩

/-- `current_->Append`, as `Write` uses it. -/
theorem appendCurrent_next {bs : List UInt8} (h : s.appendCurrent bs = .next t) :
    ∃ b, b.data = (s.heap s.current).data ++ bs ∧ t = s.setBuf s.current b := by
  unfold appendCurrent at h
  split at h
  · rename_i b hb
    exact ⟨b, FixedSizeBuffer.append_some hb, by injection h with h; exact h.symm⟩
  · cases h

/-- **`Write` keeps the invariant and appends its argument to the stream.** -/
theorem Inv.write (hi : Inv s) {bs : List UInt8} (h : s.write bs = .next t) :
    Inv t ∧ t.stream = s.stream ++ bs ∧ t.pc = s.pc := by
  unfold AsyncLogger.write at h
  split at h
  · obtain ⟨b, hb, rfl⟩ := appendCurrent_next h
    obtain ⟨h₁, h₂⟩ := hi.setCurrent hb
    exact ⟨h₁, h₂, rfl⟩
  · obtain ⟨hi', hs', -, hpc⟩ := hi.rotate
    obtain ⟨b, hb, rfl⟩ := appendCurrent_next h
    obtain ⟨h₁, h₂⟩ := hi'.setCurrent hb
    exact ⟨h₁, by rw [h₂, hs'], hpc⟩

/-- A `Write` that fits into an empty buffer never fails its `assert`. -/
theorem Inv.write_ne_abort (hi : Inv s) {bs : List UInt8} (hlen : bs.length ≤ kBufferSize) :
    s.write bs ≠ .abort := by
  unfold AsyncLogger.write
  split
  · rename_i hle
    obtain ⟨b, hb, -⟩ := FixedSizeBuffer.append_of_le hle
    simp [appendCurrent, hb]
  · have he := hi.rotate.2.2.1
    have hle : bs.length ≤ (s.rotate.heap s.rotate.current).available := by
      simp only [FixedSizeBuffer.available, FixedSizeBuffer.used, he, List.length_nil]; omega
    obtain ⟨b, hb, -⟩ := FixedSizeBuffer.append_of_le hle
    simp [appendCurrent, hb]

/-! ## The log thread -/

/-- A list that takes each id at most as often as the owners do is duplicate-free and allocated. -/
theorem Inv.owned_le (hi : Inv s) (xs : List BufId) (h : ∀ b, xs.count b ≤ s.owned.count b) :
    xs.Nodup ∧ ∀ b ∈ xs, b < s.fresh := by
  refine ⟨List.nodup_iff_count_le_one.mpr fun b => Nat.le_trans (h b) ?_, fun b hb => hi.allocated b ?_⟩
  · exact List.nodup_iff_count_le_one.mp hi.nodup b
  · exact List.count_pos_iff.mp (Nat.lt_of_lt_of_le (List.count_pos_iff.mpr hb) (h b))

/-- Starting the thread: `tmp1` is a new, empty buffer. -/
theorem Inv.start (hi : Inv s) (h : s.start = .next t) :
    Inv t ∧ t.stream = s.stream ∧ t.pc ≠ .done := by
  unfold AsyncLogger.start at h
  split at h
  · rename_i hpc
    obtain ⟨hi', hs', ho', he'⟩ := hi.newBuffer
    have hw := hi.idle (by rw [hpc]; decide)
    have ht := hi.unstarted hpc
    have hnd : (s.fresh :: s.owned).Nodup := List.nodup_cons.mpr ⟨hi.fresh_not_mem, hi.nodup⟩
    cases h
    refine ⟨{ hi' with
      nodup := ?_
      allocated := ?_
      tmp1Empty := ?_
      tmp1Held := ?_
      recycle := ?_
      unstarted := ?_
      idle := fun _ => hw }, hs', by simp⟩
    · refine (List.Perm.nodup_iff ?_).mp hnd
      rw [List.perm_iff_count]
      intro b
      simp only [owned, ht, setBuf_eq, Option.toList, List.count_append, List.count_cons, List.count_nil]
      omega
    · intro b hb
      show b < s.fresh + 1
      simp only [owned, setBuf_eq, Option.toList, List.mem_append, List.mem_cons, List.not_mem_nil,
        or_false] at hb
      by_cases hbf : b = s.fresh
      · rw [hbf]; exact Nat.lt_succ_self _
      · refine Nat.lt_succ_of_lt (hi.allocated b ?_)
        simp only [owned, List.mem_append, List.mem_cons]
        tauto
    · intro b hb; cases hb; exact he'
    · intro _; simp
    · intro h; cases h
    · intro h; cases h
  · cases h

/-- The test of `running_`: only the thread position moves. -/
theorem Inv.test (hi : Inv s) (h : s.test = .next t) :
    Inv t ∧ t.stream = s.stream ∧ t.pc ≠ .done := by
  unfold AsyncLogger.test at h
  split at h
  · rename_i hpc
    have hw := hi.idle (by rw [hpc]; decide)
    have ht := hi.tmp1Held (Or.inl hpc)
    have key : ∀ p : ThreadPc, p ≠ .writing → p ≠ .done → p ≠ .notStarted →
        Inv { s with pc := p } ∧ stream { s with pc := p } = s.stream ∧ p ≠ .done := by
      intro p h₁ h₂ h₃
      exact ⟨{ hi with
        tmp1Held := fun _ => ht
        recycle := fun h => absurd h h₁
        unstarted := fun h => absurd h h₃
        idle := fun _ => hw }, rfl, h₂⟩
    split at h
    · split at h
      · split at h
        · cases h; exact key .locking (by decide) (by decide) (by decide)
        · cases h
      · cases h
    · cases h; exact key .flushing (by decide) (by decide) (by decide)
  · cases h

/-- The locked swap section moves the queue to the thread and hands it `tmp1` as the new `next_`. -/
theorem Inv.swap (hi : Inv s) (h : s.swap = .next t) :
    Inv t ∧ t.stream = s.stream ∧ t.pc ≠ .done := by
  unfold AsyncLogger.swap at h
  split at h
  · rename_i hpc
    have hw := hi.idle (by rw [hpc]; decide)
    have ht := hi.tmp1Held (Or.inr hpc)
    split at h
    · cases h
    · by_cases hq : s.buffers = []
      · -- nothing queued, so `next_` is there and only the thread position moves
        have hn : s.next ≠ none := fun hn => hi.nextNull hn hq
        simp only [if_neg (not_not.mpr hq), if_neg hn] at h
        cases h
        exact ⟨{ hi with
          tmp1Held := fun _ => ht
          unstarted := fun h => by cases h
          recycle := fun _ h' => absurd h' ht
          idle := fun h => absurd rfl h }, rfl, by simp⟩
      · by_cases hn : s.next = none
        · simp only [if_pos (show s.buffers ≠ [] from hq), if_pos hn, hw] at h
          cases h
          have hle := hi.owned_le (s.current :: (s.tmp1.toList ++ [] ++ [] ++ s.buffers))
            (fun b => by
              simp only [owned, hn, hw, Option.toList, List.count_append, List.count_cons, List.count_nil]
              omega)
          refine ⟨{ hi with
            nodup := hle.1
            allocated := hle.2
            nextNull := fun h => absurd h ht
            nextEmpty := hi.tmp1Empty
            tmp1Empty := fun b hb => by cases hb
            tmp1Held := fun h => by simp at h
            unstarted := fun h => by cases h
            recycle := fun _ _ => hq
            idle := fun h => absurd rfl h }, ?_, by simp⟩
          simp [stream, hw]
        · simp only [if_pos (show s.buffers ≠ [] from hq), if_neg hn, hw] at h
          cases h
          have hle := hi.owned_le (s.current :: (s.next.toList ++ [] ++ s.tmp1.toList ++ s.buffers))
            (fun b => by
              simp only [owned, hw, List.count_append, List.count_cons, List.count_nil]
              omega)
          refine ⟨{ hi with
            nodup := hle.1
            allocated := hle.2
            nextNull := fun h => absurd h hn
            tmp1Held := fun h => by simp at h
            unstarted := fun h => by cases h
            recycle := fun _ _ => hq
            idle := fun h => absurd rfl h }, ?_, by simp⟩
          simp [stream, hw]
  · cases h

/-- The unlocked output section: the swapped buffers go out, the first becomes the spare. -/
theorem Inv.output (hi : Inv s) (h : s.output = .next t) :
    Inv t ∧ t.stream = s.stream ∧ t.pc ≠ .done := by
  unfold AsyncLogger.output at h
  split at h
  · simp only [if_pos hi.outputSet] at h
    cases ht : s.tmp1 with
    | some c =>
        simp only [ht] at h
        cases h
        have hle := hi.owned_le (s.current :: (s.next.toList ++ s.buffers ++ s.tmp1.toList ++ []))
          (fun b => by
            simp only [owned, List.count_append, List.count_cons, List.count_nil]
            omega)
        refine ⟨{ hi with
          nodup := ht ▸ hle.1
          allocated := ht ▸ hle.2
          tmp1Empty := fun b hb => hi.tmp1Empty b (ht.trans hb)
          tmp1Held := fun _ => by simp
          unstarted := fun h => by cases h
          recycle := fun h => by cases h
          idle := fun _ => rfl }, ?_, by simp⟩
        simp [stream, bytesOf]
    | none =>
        cases hb : s.buffersToWrite with
        | nil => simp [ht, hb] at h
        | cons b bs =>
            simp only [ht, hb, setBuf_eq] at h
            cases h
            have hle := hi.owned_le (s.current :: (s.next.toList ++ s.buffers ++ [b] ++ []))
              (fun c => by
                simp only [owned, ht, hb, Option.toList, List.count_append, List.count_cons, List.count_nil]
                omega)
            obtain ⟨hc, hn, hq⟩ := hi.toWrite_not_mem (b := b) (by simp [hb])
            refine ⟨{ hi with
              nodup := hle.1
              allocated := hle.2
              nextEmpty := fun c hc' => ?_
              tmp1Empty := fun c hc' => ?_
              tmp1Held := fun _ => by simp
              unstarted := fun h => by cases h
              recycle := fun h => by cases h
              idle := fun _ => rfl }, ?_, by simp⟩
            · show (upd s.heap b _ c).data = []
              rw [upd_ne (fun e => hn (by rw [← e]; exact hc'))]; exact hi.nextEmpty c hc'
            · cases hc'
              show (upd s.heap b _ b).data = []
              rw [upd_self]; rfl
            · simp only [stream, bytesOf_upd hq, upd_ne (Ne.symm hc), hb]
              simp [bytesOf]
  · cases h

/-- The final flush hands the whole stream to `output_`. -/
theorem Inv.flush (hi : Inv s) (h : s.flush = .next t) :
    Inv t ∧ t.out.flatten = s.stream ∧ t.pc = .done := by
  unfold AsyncLogger.flush at h
  split at h
  · rename_i hpc
    have hw := hi.idle (by rw [hpc]; decide)
    simp only [if_pos hi.outputSet] at h
    cases h
    refine ⟨{ hi with
      tmp1Held := fun h => by simp at h
      unstarted := fun h => by cases h
      recycle := fun h => by cases h
      idle := fun _ => hw }, ?_, rfl⟩
    have hn : s.flushOne s.next = [] := by
      cases hn : s.next with
      | none => rfl
      | some b => simp [flushOne, hi.nextEmpty b hn]
    have hc : (s.flushOne (some s.current)).flatten = (s.heap s.current).data := by
      by_cases hd : (s.heap s.current).data = []
      · simp [flushOne, hd]
      · simp [flushOne, hd]
    simp only [List.flatten_append, hn, hc, stream, hw, bytesOf_nil, List.append_nil]
    rfl
  · cases h

/-! ## Whole runs -/

@[simp] theorem writesOf_append (as bs : List Action) : writesOf (as ++ bs) = writesOf as ++ writesOf bs := by
  induction as with
  | nil => rfl
  | cons a as ih => cases a <;> simp [writesOf, ih]

/-- What holds after the labels `as`: the invariant, and until the final flush the stream is what was
    written. -/
def TraceInv (as : List Action) (s : AsyncLogger) : Prop :=
  Inv s ∧ (s.pc ≠ .done → s.stream = (writesOf as).flatten)

/-- A log-thread step before the flush leaves the stream, and writes nothing. -/
theorem traceInv_of_thread {as : List Action} {a : Action} (ha : writesOf [a] = []) (hpc : s.pc ≠ .done)
    (h : TraceInv as s) (ht : Inv t ∧ t.stream = s.stream ∧ t.pc ≠ .done) : TraceInv (as ++ [a]) t := by
  refine ⟨ht.1, fun _ => ?_⟩
  rw [ht.2.1, h.2 hpc, writesOf_append, ha, List.append_nil]

theorem traceInv_step (as : List Action) (s : AsyncLogger) (a : Action) (t : AsyncLogger)
    (h : TraceInv as s) (hst : Step s a t) : TraceInv (as ++ [a]) t := by
  have hi := h.1
  cases a with
  | write bs =>
      obtain ⟨hi', hs', hpc⟩ := hi.write hst
      refine ⟨hi', fun hd => ?_⟩
      rw [hs', h.2 (by rw [← hpc]; exact hd), writesOf_append]
      simp [writesOf]
  | stop =>
      cases hst
      refine ⟨{ hi with }, fun hd => ?_⟩
      rw [writesOf_append, show writesOf [Action.stop] = [] from rfl, List.append_nil]
      exact h.2 hd
  | start =>
      have hpc : s.pc ≠ .done := fun e => by simp [Step, step, AsyncLogger.start, e] at hst
      exact traceInv_of_thread rfl hpc h (hi.start hst)
  | test =>
      have hpc : s.pc ≠ .done := fun e => by simp [Step, step, AsyncLogger.test, e] at hst
      exact traceInv_of_thread rfl hpc h (hi.test hst)
  | swap =>
      have hpc : s.pc ≠ .done := fun e => by simp [Step, step, AsyncLogger.swap, e] at hst
      exact traceInv_of_thread rfl hpc h (hi.swap hst)
  | output =>
      have hpc : s.pc ≠ .done := fun e => by simp [Step, step, AsyncLogger.output, e] at hst
      exact traceInv_of_thread rfl hpc h (hi.output hst)
  | flush =>
      obtain ⟨hi', -, hpc⟩ := hi.flush hst
      exact ⟨hi', fun hd => absurd hpc hd⟩

theorem traceInv_run {as : List Action} (h : Run Step create as s) : TraceInv as s :=
  Run.invariantTrace traceInv_step h ⟨inv_create, fun _ => rfl⟩

/-- No step of a reachable logger fails an assertion, given `Write`s no longer than a buffer. -/
theorem Inv.step_ne_abort (hi : Inv s) {a : Action} (ha : ∀ bs, a = .write bs → bs.length ≤ kBufferSize) :
    s.step a ≠ .abort := by
  cases a with
  | write bs => exact hi.write_ne_abort (ha bs rfl)
  | stop => simp [step]
  | start => simp only [step, AsyncLogger.start]; split <;> simp
  | test =>
      simp only [step, AsyncLogger.test]
      split
      · rename_i hpc
        split
        · cases ht : s.tmp1 with
          | none => exact absurd ht (hi.tmp1Held (Or.inl hpc))
          | some b => simp [hi.tmp1Empty b ht]
        · simp
      · simp
  | swap => simp only [step, AsyncLogger.swap]; split <;> (try split) <;> simp
  | output =>
      simp only [step, AsyncLogger.output, if_pos hi.outputSet]
      split
      · rename_i hpc
        cases ht : s.tmp1 with
        | some b => simp
        | none =>
            cases hb : s.buffersToWrite with
            | nil => exact absurd hb (hi.recycle hpc ht)
            | cons b bs => simp
      · simp
  | flush => simp only [step, AsyncLogger.flush, if_pos hi.outputSet]; split <;> simp

/-- **The logger loses, duplicates and reorders nothing.** In every state reached from a fresh logger by
    any interleaving of `Write`s and log-thread steps: when the last step is the final flush, the bytes
    handed to `output_` are the `Write` arguments of the run, in lock order; `next_` is null only when
    something is queued; `next_` and the thread's spare buffer are empty; no buffer object has two owners;
    and no further step fails an assertion, a `Write` of at most `kBufferSize` bytes included. -/
theorem asyncLogger_lossless {as : List Action} (hrun : Run Step create as s) :
    (∀ pre, as = pre ++ [.flush] → s.out.flatten = (writesOf pre).flatten) ∧
    (s.next = none → s.buffers ≠ []) ∧
    (∀ b, s.next = some b → (s.heap b).used = 0) ∧
    (∀ b, s.tmp1 = some b → (s.heap b).used = 0) ∧
    (s.current :: (s.next.toList ++ s.buffers ++ s.tmp1.toList ++ s.buffersToWrite)).Nodup ∧
    (∀ a, (∀ bs, a = .write bs → bs.length ≤ kBufferSize) → s.step a ≠ .abort) := by
  have hi := (traceInv_run hrun).1
  refine ⟨?_, hi.nextNull, fun b hb => ?_, fun b hb => ?_, hi.nodup, fun a ha => hi.step_ne_abort ha⟩
  · rintro pre rfl
    obtain ⟨u, hu, hst⟩ := hrun.snoc_inv
    obtain ⟨hiu, hsu⟩ := traceInv_run hu
    have hpc : u.pc ≠ .done := fun e => by simp [Step, step, AsyncLogger.flush, e] at hst
    rw [(hiu.flush hst).2.1, hsu hpc]
  · exact FixedSizeBuffer.used_eq_zero.mpr (hi.nextEmpty b hb)
  · exact FixedSizeBuffer.used_eq_zero.mpr (hi.tmp1Empty b hb)

/-! ## A run that rotates -/

/-- A `Write` whose `Append` succeeds on `current_` as it stands. -/
theorem write_of_append {bs : List UInt8} {b : FixedSizeBuffer kBufferSize}
    (hfit : bs.length ≤ (s.heap s.current).available) (hb : (s.heap s.current).append bs = some b) :
    s.write bs = .next (s.setBuf s.current b) := by
  simp only [write, if_pos hfit, appendCurrent, hb]

/-- A `Write` that does not fit goes into the buffer `rotate` makes current. -/
theorem write_of_rotate {bs : List UInt8} {b : FixedSizeBuffer kBufferSize}
    (hfull : ¬ bs.length ≤ (s.heap s.current).available)
    (hb : (s.rotate.heap s.rotate.current).append bs = some b) :
    s.write bs = .next (s.rotate.setBuf s.rotate.current b) := by
  simp only [write, if_neg hfull, appendCurrent, hb]

/-- The swap section with something queued and `next_` used up: the thread takes the queue and gives up its
    spare buffer. -/
theorem swap_of_queued (hpc : s.pc = .locking) (hq : s.buffers ≠ []) (hn : s.next = none) :
    s.swap = .next { s with
      maxBuffersSize := max s.maxBuffersSize s.buffers.length
      buffersToWrite := s.buffers
      buffers := s.buffersToWrite
      next := s.tmp1
      tmp1 := none
      pc := .writing } := by
  have hwait : ¬ ((s.heap s.current).available = kBufferSize ∧ s.buffers = []) := fun h => hq h.2
  simp only [swap, if_pos hpc, if_neg hwait, if_pos hq, if_pos hn]

/-- `ys` does not fit behind `xs`, so the log thread gets the buffer that holds `xs` and writes it out and
    recycles it; `zs` goes in behind `ys`. -/
theorem exists_rotating (xs ys zs : List UInt8) (hx : xs.length ≤ kBufferSize)
    (hxy : kBufferSize < xs.length + ys.length) (hyz : ys.length + zs.length ≤ kBufferSize) :
    ∃ s, Run Step create
      [.write xs, .write ys, .start, .test, .swap, .output, .write zs, .stop, .test, .flush] s := by
  have hy : ys.length ≤ kBufferSize := Nat.le_trans (Nat.le_add_right _ _) hyz
  obtain ⟨b, hb, hbx⟩ := @FixedSizeBuffer.append_of_le kBufferSize .new xs hx
  obtain ⟨c, hc, hcy⟩ := @FixedSizeBuffer.append_of_le kBufferSize .new ys hy
  simp only [FixedSizeBuffer.new_data, List.nil_append] at hbx hcy
  have hcz : zs.length ≤ c.available := by
    simp only [FixedSizeBuffer.available, FixedSizeBuffer.used, hcy]; omega
  obtain ⟨d, hd, -⟩ := FixedSizeBuffer.append_of_le hcz
  -- `xs` and `ys`: the first fills `current_`, the second rotates it away
  have hfull : ¬ ys.length ≤ ((create.setBuf 0 b).heap (create.setBuf 0 b).current).available := by
    simp only [setBuf_eq, create, upd_self, FixedSizeBuffer.available, FixedSizeBuffer.used, hbx]; omega
  have hxs : Step create (.write xs) (create.setBuf 0 b) := write_of_append hx hb
  have hys : Step (create.setBuf 0 b) (.write ys) ((create.setBuf 0 b).rotate.setBuf 1 c) :=
    write_of_rotate hfull hc
  have hqueued : ((create.setBuf 0 b).rotate.setBuf 1 c).buffers ≠ [] := by simp [rotate, create]
  -- the thread's pass through its loop
  have htested := (((Run.single hxs).tail hys).tail (show Step _ .start _ from rfl)).tail
    (show Step _ .test _ from rfl)
  have hlooped := (htested.tail (show Step _ .swap _ from swap_of_queued rfl hqueued rfl)).tail
    (show Step _ .output _ from rfl)
  have hzs := hlooped.tail (show Step _ (.write zs) _ from write_of_append hcz hd)
  exact ⟨_, ((hzs.tail (show Step _ .stop _ from rfl)).tail (show Step _ .test _ from rfl)).tail
    (show Step _ .flush _ from rfl)⟩

/-- Three messages of which the first two do not fit one buffer, with a full pass of the log thread between
    the second and the third. -/
theorem asyncLogger_lossless_stop :
    ∃ s, Run Step create [.write (List.replicate 40000 7), .write (List.replicate 30000 8), .start, .test,
        .swap, .output, .write [1, 2, 3], .stop, .test, .flush] s ∧
      s.out.flatten = List.replicate 40000 7 ++ (List.replicate 30000 8 ++ [1, 2, 3]) := by
  obtain ⟨s, hrun⟩ := exists_rotating (List.replicate 40000 7) (List.replicate 30000 8) [1, 2, 3]
    (by rw [List.length_replicate]; decide)
    (by rw [List.length_replicate, List.length_replicate]; decide) (by rw [List.length_replicate]; decide)
  refine ⟨s, hrun, ?_⟩
  rw [(asyncLogger_lossless hrun).1 [.write (List.replicate 40000 7), .write (List.replicate 30000 8), .start,
    .test, .swap, .output, .write [1, 2, 3], .stop, .test] rfl]
  simp only [writesOf, List.flatten_cons, List.flatten_nil, List.append_nil]

end AsyncLogger
end Logger
end Snippets
