import Snippets.Lib.Joins
import Snippets.LogFiles.Rotation
import Snippets.Logger.Formatter
import Snippets.Logger.Lossless

/-!
# `Logger.Lines` — from log statements to whole lines in files

`logger/src/main.cc` puts the parts together: log statements on any threads write into an `AsyncLogger`, whose
`output_` appends to a `LogFile`. A `Write` never straddles two buffers, each `output_` takes one buffer, and
a `LogFile` rotates between two `Append`s only. So a line stays in one piece all the way (`Lib.Joins`).
-/

namespace Snippets
namespace Logger

open Lib LogFiles

namespace AsyncLogger

variable {s t : AsyncLogger} {a : Action} {as : List Action}

/-! ## Blocks -/

/-- The contents of some buffer objects. -/
def dataOf (h : Heap) (bs : List BufId) : List Bytes := bs.map fun b => (h b).data

/-- The blocks that are closed to `Write`: those `output_` got, and those on their way to it. -/
def sealed (s : AsyncLogger) : List Bytes :=
  s.out ++ dataOf s.heap s.buffersToWrite ++ dataOf s.heap s.buffers

/-- Every block, `current_` last. -/
def blocks (s : AsyncLogger) : List Bytes := s.sealed ++ [(s.heap s.current).data]

@[simp] theorem dataOf_append (h : Heap) (xs ys : List BufId) : dataOf h (xs ++ ys) = dataOf h xs ++ dataOf h ys := by
  simp [dataOf]

@[simp] theorem dataOf_nil (h : Heap) : dataOf h [] = [] := rfl

@[simp] theorem dataOf_singleton (h : Heap) (x : BufId) : dataOf h [x] = [(h x).data] := rfl

theorem dataOf_upd {h : Heap} {xs : List BufId} {i : BufId} (hi : i ∉ xs) (b : FixedSizeBuffer kBufferSize) :
    dataOf (upd h i b) xs = dataOf h xs := by
  apply List.map_congr_left
  intro j hj
  have hne : j ≠ i := fun e => hi (e ▸ hj)
  rw [upd_ne hne]

/-- `Append` adds to the block of `current_`. -/
theorem Inv.appendCurrent_blocks (hi : Inv s) {bs : Bytes} (h : s.appendCurrent bs = .next t) :
    t.sealed = s.sealed ∧ (t.heap t.current).data = (s.heap s.current).data ++ bs ∧ t.out = s.out := by
  obtain ⟨b, hb, rfl⟩ := appendCurrent_next h
  obtain ⟨-, hq, -, hw⟩ := hi.current_not_mem
  refine ⟨?_, by simp [hb], rfl⟩
  simp [sealed, dataOf_upd hq, dataOf_upd hw]

/-- Rotating seals the block of `current_`. -/
theorem Inv.rotate_sealed (hi : Inv s) : s.rotate.sealed = s.blocks ∧ s.rotate.out = s.out := by
  cases hn : s.next with
  | some n => exact ⟨by simp [AsyncLogger.rotate, hn, sealed, blocks], by simp [AsyncLogger.rotate, hn]⟩
  | none =>
      have hf := hi.fresh_not_mem
      simp only [owned, List.mem_cons, List.mem_append, not_or] at hf
      obtain ⟨hc, ⟨⟨-, hq⟩, -⟩, hw⟩ := hf
      refine ⟨?_, by simp [AsyncLogger.rotate, hn, AsyncLogger.newBuffer]⟩
      simp [AsyncLogger.rotate, hn, AsyncLogger.newBuffer, sealed, blocks, dataOf_upd hq, dataOf_upd hw,
        upd_ne (Ne.symm hc)]

/-- A `Write` goes into the last block, or opens one of its own. -/
theorem Inv.write_blocks (hi : Inv s) {bs : Bytes} (h : s.write bs = .next t) :
    t.out = s.out ∧
      (t.blocks = s.sealed ++ [(s.heap s.current).data ++ bs] ∨ t.blocks = s.blocks ++ [bs]) := by
  unfold AsyncLogger.write at h
  split at h
  · obtain ⟨hsealed, hcur, hout⟩ := hi.appendCurrent_blocks h
    exact ⟨hout, Or.inl (by rw [blocks, hsealed, hcur])⟩
  · obtain ⟨hi', -, hempty, -⟩ := hi.rotate
    obtain ⟨hrot, hout'⟩ := hi.rotate_sealed
    obtain ⟨hsealed, hcur, hout⟩ := hi'.appendCurrent_blocks h
    exact ⟨hout.trans hout', Or.inr (by rw [blocks, hsealed, hrot, hcur, hempty, List.nil_append])⟩

/-- The swap section leaves the queue where it is, or takes it. -/
theorem swap_queue (h : s.swap = .next t) :
    t.heap = s.heap ∧ t.current = s.current ∧ t.out = s.out ∧
      ((t.buffersToWrite = s.buffersToWrite ∧ t.buffers = s.buffers) ∨
        (t.buffersToWrite = s.buffers ∧ t.buffers = s.buffersToWrite)) := by
  unfold AsyncLogger.swap at h
  split at h
  · split at h
    · cases h
    · cases h
      by_cases hq : s.buffers = [] <;> by_cases hn : s.next = none <;> simp [hq, hn]
  · cases h

/-- The thread's steps before the flush move whole blocks along, and `output_` gets blocks only. -/
theorem Inv.thread_blocks (hi : Inv s) (h : Step s a t) (ha : writesOf [a] = []) (hflush : a ≠ .flush) :
    t.blocks = s.blocks ∧ ∀ b ∈ t.out, b ∈ s.blocks := by
  have hsame : ∀ b ∈ s.out, b ∈ s.blocks := fun b hb => by simp [blocks, sealed, hb]
  cases a with
  | write bs => simp [writesOf] at ha
  | flush => exact absurd rfl hflush
  | stop => cases h; exact ⟨rfl, hsame⟩
  | start =>
      simp only [Step, step, AsyncLogger.start] at h
      split at h
      · cases h
        have hf := hi.fresh_not_mem
        simp only [owned, List.mem_cons, List.mem_append, not_or] at hf
        obtain ⟨hc, ⟨⟨-, hq⟩, -⟩, hw⟩ := hf
        refine ⟨?_, hsame⟩
        simp [AsyncLogger.newBuffer, sealed, blocks, dataOf_upd hq, dataOf_upd hw, upd_ne (Ne.symm hc)]
      · cases h
  | test =>
      simp only [Step, step, AsyncLogger.test] at h
      split at h
      · split at h
        · split at h
          · split at h <;> cases h
            exact ⟨rfl, hsame⟩
          · cases h
        · cases h
          exact ⟨rfl, hsame⟩
      · cases h
  | swap =>
      have hw : s.buffersToWrite = [] := by
        refine hi.idle fun hpc => ?_
        simp [Step, step, AsyncLogger.swap, hpc] at h
      obtain ⟨hheap, hcur, hout, hqueue⟩ := swap_queue h
      refine ⟨?_, hout ▸ hsame⟩
      rcases hqueue with ⟨hq, hq'⟩ | ⟨hq, hq'⟩ <;> simp [blocks, sealed, hheap, hcur, hout, hq, hq', hw]
  | output =>
      simp only [Step, step, AsyncLogger.output, if_pos hi.outputSet] at h
      split at h
      · have hout : ∀ b ∈ s.out ++ dataOf s.heap s.buffersToWrite, b ∈ s.blocks := by
          intro b hb
          simp only [blocks, sealed, List.mem_append] at hb ⊢
          tauto
        cases ht : s.tmp1 with
        | some c =>
            simp only [ht] at h
            cases h
            exact ⟨by simp [blocks, sealed, dataOf], hout⟩
        | none =>
            cases hb : s.buffersToWrite with
            | nil => simp [ht, hb] at h
            | cons b bs =>
                simp only [ht, hb, setBuf_eq] at h
                cases h
                obtain ⟨hc, -, hq⟩ := hi.toWrite_not_mem (b := b) (by simp [hb])
                refine ⟨?_, by simpa [hb, dataOf] using hout⟩
                simp only [blocks, sealed, dataOf_upd hq, upd_ne (Ne.symm hc), hb]
                simp [dataOf]
      · cases h

/-- The final flush hands over every block, but an empty one of `current_`. -/
theorem Inv.flush_blocks (hi : Inv s) (h : s.flush = .next t) :
    (t.out = s.blocks ∨ s.blocks = t.out ++ [[]]) := by
  unfold AsyncLogger.flush at h
  split at h
  · rename_i hpc
    have hw := hi.idle (by rw [hpc]; decide)
    have hn : s.flushOne s.next = [] := by
      cases hn : s.next with
      | none => rfl
      | some b => simp [flushOne, hi.nextEmpty b hn]
    simp only [if_pos hi.outputSet, hn] at h
    cases h
    by_cases hd : (s.heap s.current).data = []
    · exact Or.inr (by simp [blocks, sealed, hw, flushOne, hd, dataOf])
    · exact Or.inl (by simp [blocks, sealed, hw, flushOne, hd, dataOf])
  · cases h

/-- No block is longer than a buffer. -/
theorem blocks_length (hout : ∀ b ∈ s.out, b.length ≤ kBufferSize) : ∀ b ∈ s.blocks, b.length ≤ kBufferSize := by
  have hdata : ∀ bs, ∀ b ∈ dataOf s.heap bs, b.length ≤ kBufferSize := by
    intro bs b hb
    obtain ⟨i, -, rfl⟩ := List.mem_map.mp hb
    exact (s.heap i).fits
  intro b hb
  simp only [blocks, sealed, List.mem_append, List.mem_singleton] at hb
  rcases hb with ((hb | hb) | hb) | rfl
  · exact hout b hb
  · exact hdata _ b hb
  · exact hdata _ b hb
  · exact (s.heap s.current).fits

/-! ## Whole runs -/

/-- What holds after the labels `as`, in the middle of them and at the end: the blocks are what was written,
    grouped. -/
structure BlockInv (as : List Action) (s : AsyncLogger) : Prop where
  trace : TraceInv as s
  joins : s.pc ≠ .done → Joins (writesOf as) s.blocks
  bounded : ∀ b ∈ s.out, b.length ≤ kBufferSize

theorem blockInv_step (as : List Action) (s : AsyncLogger) (a : Action) (t : AsyncLogger) (h : BlockInv as s)
    (hst : Step s a t) : BlockInv (as ++ [a]) t := by
  have hi := h.trace.1
  have htrace := traceInv_step as s a t h.trace hst
  by_cases hwrite : ∃ bs, a = .write bs
  · obtain ⟨bs, rfl⟩ := hwrite
    obtain ⟨hout, hblocks⟩ := hi.write_blocks hst
    refine ⟨htrace, fun hd => ?_, hout ▸ h.bounded⟩
    have hj := h.joins (by rw [← (hi.write hst).2.2]; exact hd)
    rw [writesOf_append]
    rcases hblocks with hblocks | hblocks <;> rw [hblocks]
    · exact hj.extend bs
    · exact hj.snoc bs
  · have hnil : writesOf [a] = [] := by
      cases a with
      | write bs => exact absurd ⟨bs, rfl⟩ hwrite
      | stop | start | test | swap | output | flush => rfl
    by_cases hflush : a = .flush
    · subst hflush
      have hd : t.pc = .done := (hi.flush hst).2.2
      refine ⟨htrace, fun hne => absurd hd hne, fun b hb => blocks_length h.bounded b ?_⟩
      rcases hi.flush_blocks hst with hout | hblocks
      · exact hout ▸ hb
      · exact hblocks ▸ List.mem_append_left _ hb
    · obtain ⟨hblocks, hout⟩ := hi.thread_blocks hst hnil hflush
      refine ⟨htrace, fun hd => ?_, fun b hb => blocks_length h.bounded b (hout b hb)⟩
      rw [writesOf_append, hnil, List.append_nil, hblocks]
      refine h.joins fun hdone => hd ?_
      cases a with
      | write bs => exact absurd ⟨bs, rfl⟩ hwrite
      | flush => exact absurd rfl hflush
      | stop => cases hst; exact hdone
      | start => simp [Step, step, AsyncLogger.start, hdone] at hst
      | test => simp [Step, step, AsyncLogger.test, hdone] at hst
      | swap => simp [Step, step, AsyncLogger.swap, hdone] at hst
      | output => simp [Step, step, AsyncLogger.output, hdone] at hst

theorem blockInv_run (hrun : Run Step create as s) : BlockInv as s :=
  Run.invariantTrace blockInv_step hrun
    ⟨⟨inv_create, fun _ => rfl⟩, fun _ => ⟨[[]], rfl, rfl⟩, by simp [create]⟩

/-- After the final flush, `output_` has got what was written, grouped into blocks of at most a buffer. -/
theorem flushed_blocks {pre : List Action} (hrun : Run Step create (pre ++ [.flush]) s)
    (hpre : ∀ w ∈ writesOf pre, w ≠ []) :
    Joins (writesOf pre) s.out ∧ ∀ b ∈ s.out, b.length ≤ kBufferSize := by
  obtain ⟨u, hu, hst⟩ := hrun.snoc_inv
  have hb := blockInv_run hu
  have hpc : u.pc ≠ .done := fun e => by simp [Step, step, AsyncLogger.flush, e] at hst
  refine ⟨?_, (blockInv_run hrun).bounded⟩
  have hj := hb.joins hpc
  rcases hb.trace.1.flush_blocks hst with hout | hblocks
  · exact hout ▸ hj
  · exact (hblocks ▸ hj).dropEmpty hpre

end AsyncLogger

/-! ## The synchronous logger -/

/-- Nothing a `LogFormatter` writes is dropped. -/
theorem SyncLogger.writeAll_eq {bufs : List Bytes} (hbufs : ∀ buf ∈ bufs, buf.length ≤ kMaxLogLength) :
    SyncLogger.writeAll bufs = bufs := by
  induction bufs using List.reverseRecOn with
  | nil => rfl
  | append_singleton bufs buf ih =>
      have hbuf := hbufs buf (by simp)
      rw [SyncLogger.writeAll_snoc, ih fun b hb => hbufs b (by simp [hb]), SyncLogger.nonLockWrite,
        if_neg (Nat.not_lt.mpr hbuf)]

/-! ## Lines in files -/

/-- **Whole lines, in order, in every file.** Let the log statements `calls` of a program, in the order in which
    their `Write`s got the lock, be logged through an `AsyncLogger` to its final flush, by any interleaving with
    the log thread. Then the `LogFile` behind `output_` takes all it is given, and its files hold the lines of
    the statements at a level that is logged, each in full in one file and in that order: the header, as much of
    the text as 4096 bytes leave room for, and a newline. A file that has been left is longer than
    `rotate_size_`, by at most a buffer. The same program on a `SyncLogger` writes the same bytes, cut into files
    at other lines. -/
theorem whole_lines {s : AsyncLogger} {current : LogLevel} {calls : List LogCall} {pre : List Action}
    (rotateSize : Nat) (hcalls : logAll current calls = some (writesOf pre))
    (hrun : Run AsyncLogger.Step .create (pre ++ [.flush]) s) :
    ∃ f g, LogFile.appendAll (.new rotateSize) s.out = some f ∧
      LogFile.appendAll (.new rotateSize) (SyncLogger.writeAll (writesOf pre)) = some g ∧
      (Joins (linesOf current calls) f.files ∧ (∀ file ∈ f.files, file.length ≤ rotateSize + kBufferSize) ∧
        ∀ file ∈ f.closed, rotateSize < file.length) ∧
      (Joins (linesOf current calls) g.files ∧ (∀ file ∈ g.files, file.length ≤ rotateSize + kMaxLogLength) ∧
        ∀ file ∈ g.closed, rotateSize < file.length) ∧
      f.files.flatten = g.files.flatten := by
  obtain ⟨hlines, hall⟩ := logAll_eq hcalls
  obtain ⟨hblocks, hlength⟩ := AsyncLogger.flushed_blocks hrun fun w hw => (hall w hw).1
  rw [SyncLogger.writeAll_eq fun w hw => (hall w hw).2]
  rw [hlines] at hblocks ⊢
  obtain ⟨f, hf, hfjoins, hfsize, hfclosed⟩ := logFile_files rotateSize hlength
  obtain ⟨g, hg, hgjoins, hgsize, hgclosed⟩ := logFile_files rotateSize fun w hw => (hall w (hlines ▸ hw)).2
  have hfj : Joins (linesOf current calls) f.files := hblocks.trans hfjoins
  exact ⟨f, g, hf, hg, ⟨hfj, hfsize, hfclosed⟩, ⟨hgjoins, hgsize, hgclosed⟩, hfj.flatten.trans hgjoins.flatten.symm⟩

/-- A statement at a level that is logged, and one that is not. -/
theorem whole_lines_info :
    ∃ c d : LogCall, ∃ s, Run AsyncLogger.Step .create [.write c.text, .start, .stop, .test, .flush] s ∧
      ∃ f, LogFile.appendAll (.new 8) (AsyncLogger.out s) = some f ∧ Joins (linesOf .kLogInfo [c, d]) f.files := by
  suffices key : ∀ c d : LogCall, c.text.length ≤ kBufferSize → logAll .kLogInfo [c, d] = some [c.text] →
      ∃ s, Run AsyncLogger.Step .create [.write c.text, .start, .stop, .test, .flush] s ∧
        ∃ f, LogFile.appendAll (.new 8) (AsyncLogger.out s) = some f ∧ Joins (linesOf .kLogInfo [c, d]) f.files by
    refine ⟨_, _, key
      ⟨.kLogInfo, literal "src/main.cc", literal "main", 7, literal "2014", 42, 5, -1, [literal "up ", literal "and on"]⟩
      ⟨.kLogDebug, literal "src/main.cc", literal "main", 8, literal "2014", 43, 5, -1, [literal "again"]⟩ ?_ ?_⟩
    · decide
    · decide
  intro c d hlen hcalls
  have hfit : c.text.length ≤ (AsyncLogger.create.heap AsyncLogger.create.current).available := by
    simpa [AsyncLogger.create, FixedSizeBuffer.available, FixedSizeBuffer.used] using hlen
  obtain ⟨b, hb, -⟩ := FixedSizeBuffer.append_of_le hfit
  have hwrite : AsyncLogger.step .create (.write c.text) = .next (AsyncLogger.create.setBuf 0 b) := by
    rw [AsyncLogger.step, AsyncLogger.write, if_pos hfit, AsyncLogger.appendCurrent, hb]
    rfl
  have hrun := ((((Run.single (show AsyncLogger.Step .create _ _ from hwrite)).tail
    (show AsyncLogger.Step _ .start _ from rfl)).tail (show AsyncLogger.Step _ .stop _ from rfl)).tail
    (show AsyncLogger.Step _ .test _ from rfl)).tail (show AsyncLogger.Step _ .flush _ from rfl)
  have hwrites : logAll .kLogInfo [c, d] = some (writesOf [.write c.text, .start, .stop, .test]) := hcalls
  obtain ⟨f, g, hf, -, ⟨hjoins, -⟩, -⟩ := whole_lines 8 hwrites hrun
  exact ⟨_, hrun, f, hf, hjoins⟩

end Logger
end Snippets
