import Snippets.Lib.Joins
import Snippets.LogFiles.Model

/-!
# `LogFiles.Rotation` — what ends up in which file

Each log object cuts the messages into files by a rule of its own, and the files are exactly the chunks of
that rule (`Lib.chunks`): `LogFdFile` and `LogCFile` leave a file that has reached `rotate_size_` when the next
message comes, `LogFile` leaves a file that has gone over `rotate_size_` at once, and `LogMMapFile` leaves a
mapping that has no room for the next message. `LogCFile` counts what an `int` keeps of a length, which is all of
it below `2^31` bytes.
-/

namespace Snippets
namespace LogFiles

open Lib

/-- The bytes of some messages. -/
def bytesOf (msgs : List (List UInt8)) : Nat := msgs.flatten.length

@[simp] theorem bytesOf_nil : bytesOf [] = 0 := rfl

@[simp] theorem bytesOf_snoc (msgs : List (List UInt8)) (msg : List UInt8) :
    bytesOf (msgs ++ [msg]) = bytesOf msgs + msg.length := by simp [bytesOf]

/-- What `LogCFile` adds to `bytes_written_` for some messages: what an `int` keeps of their lengths, when it is not negative. -/
def intBytesOf (msgs : List (List UInt8)) : Nat := (msgs.map fun msg => (toInt32 msg.length).toNat).sum

@[simp] theorem intBytesOf_snoc (msgs : List (List UInt8)) (msg : List UInt8) :
    intBytesOf (msgs ++ [msg]) = intBytesOf msgs + (toInt32 msg.length).toNat := by simp [intBytesOf]

/-- Below `2^31` bytes that is the length. -/
theorem intBytesOf_eq {msgs : List (List UInt8)} (h : ∀ msg ∈ msgs, msg.length < 2 ^ 31) : intBytesOf msgs = bytesOf msgs := by
  unfold bytesOf intBytesOf
  rw [List.length_flatten]
  congr 1
  apply List.map_congr_left
  intro msg hmsg
  have hlt := h msg hmsg
  rw [toInt32_of_range (by omega) (by omega)]
  rfl

/-- Start a new file when the current one holds at least `limit` bytes. -/
def reached (limit : Nat) (cur : List (List UInt8)) (_msg : List UInt8) : Bool := limit ≤ bytesOf cur

/-- Start a new file when at least `limit` bytes have been counted for the current one. -/
def intReached (limit : Nat) (cur : List (List UInt8)) (_msg : List UInt8) : Bool := limit ≤ intBytesOf cur

/-- Start a new file when the message does not fit into what is left of `limit` bytes. -/
def noRoom (limit : Nat) (cur : List (List UInt8)) (msg : List UInt8) : Bool := limit < bytesOf cur + msg.length

/-- The files a chunking of the messages stands for. -/
def filesOf (s : Chunks (List UInt8)) : List (List UInt8) := s.all.map List.flatten

/-! ## `LogFdFile` and `LogCFile` -/

/-- The object holds the chunks `s`, and has counted the current one by `count`. -/
structure Files (count : List (List UInt8) → Nat) (limit : Nat) (f : RotatingFile) (s : Chunks (List UInt8)) : Prop where
  closed : f.closed = s.closed.map List.flatten
  cur : f.cur = s.cur.flatten
  rotateSize : f.rotateSize = limit
  bytesWritten : f.bytesWritten = count s.cur

variable {count : List (List UInt8) → Nat} {limit : Nat} {f : RotatingFile} {s : Chunks (List UInt8)}

theorem files_new (hcount : count [] = 0) : Files count limit (.new limit) .empty := ⟨rfl, rfl, rfl, hcount.symm⟩

theorem Files.filesOf (h : Files count limit f s) : f.files = filesOf s := by
  simp [RotatingFile.files, LogFiles.filesOf, Chunks.all, h.closed, h.cur]

theorem Files.rotate (hcount : count [] = 0) (h : Files count limit f s) : Files count limit f.rotateFile s.roll where
  closed := by simp [RotatingFile.rotateFile, h.closed, h.cur]
  cur := rfl
  rotateSize := h.rotateSize
  bytesWritten := hcount.symm

/-- Rotating a full file is rolling by the count. -/
theorem Files.rotateFull (hcount : count [] = 0) (h : Files count limit f s) :
    Files count limit (if f.bytesWritten ≥ f.rotateSize then f.rotateFile else f) (if limit ≤ count s.cur then s.roll else s) := by
  rw [h.bytesWritten, h.rotateSize]
  by_cases hfull : limit ≤ count s.cur
  · rw [if_pos hfull, if_pos hfull]
    exact h.rotate hcount
  · rw [if_neg hfull, if_neg hfull]
    exact h

theorem Files.write (h : Files bytesOf limit f s) (msg : List UInt8) :
    Files bytesOf limit (f.write msg (some msg.length)) (s.put msg) where
  closed := h.closed
  cur := by simp [RotatingFile.write, h.cur]
  rotateSize := h.rotateSize
  bytesWritten := by simp [RotatingFile.write, h.bytesWritten]

theorem Files.append (h : Files bytesOf limit f s) (msg : List UInt8) :
    Files bytesOf limit (LogFdFile.append f msg (some msg.length)) (s.add (reached limit) msg) := by
  have hrotated := h.rotateFull rfl
  rw [Chunks.add_eq]
  simpa [reached, LogFdFile.append] using hrotated.write msg

theorem Files.appendC (h : Files intBytesOf limit f s) (msg : List UInt8) :
    Files intBytesOf limit (LogCFile.append f msg msg.length) (s.add (intReached limit) msg) := by
  have hrotated := h.rotateFull rfl
  rw [Chunks.add_eq]
  unfold LogCFile.append intReached
  simp only [decide_eq_true_eq, List.take_length]
  generalize (if f.bytesWritten ≥ f.rotateSize then f.rotateFile else f) = f at hrotated ⊢
  generalize (if limit ≤ intBytesOf s.cur then s.roll else s) = s at hrotated ⊢
  have hcur : f.cur ++ msg = (s.put msg).cur.flatten := by simp [hrotated.cur]
  have hcounted : intBytesOf (s.put msg).cur = f.bytesWritten + (toInt32 msg.length).toNat := by simp [hrotated.bytesWritten]
  split
  · -- a negative count is not added
    rename_i hneg
    refine ⟨hrotated.closed, hcur, hrotated.rotateSize, ?_⟩
    rw [hcounted, Int.toNat_of_nonpos (le_of_lt hneg), Nat.add_zero]
  · exact ⟨hrotated.closed, hcur, hrotated.rotateSize, hcounted.symm⟩

theorem Files.appendAll (msgs : List (List UInt8)) :
    Files bytesOf limit (LogFdFile.appendAll (.new limit) msgs) (chunks (reached limit) msgs) := by
  induction msgs using List.reverseRecOn with
  | nil => exact files_new rfl
  | append_singleton msgs msg ih => simpa [LogFdFile.appendAll, List.foldl_append] using ih.append msg

theorem Files.appendAllC (msgs : List (List UInt8)) :
    Files intBytesOf limit (LogCFile.appendAll (.new limit) msgs) (chunks (intReached limit) msgs) := by
  induction msgs using List.reverseRecOn with
  | nil => exact files_new rfl
  | append_singleton msgs msg ih => simpa [LogCFile.appendAll, List.foldl_append] using ih.appendC msg

/-- Messages shorter than `2^31` bytes are cut alike. -/
theorem chunks_intReached {msgs : List (List UInt8)} (h : ∀ msg ∈ msgs, msg.length < 2 ^ 31) :
    chunks (intReached limit) msgs = chunks (reached limit) msgs := by
  induction msgs using List.reverseRecOn with
  | nil => rfl
  | append_singleton msgs msg ih =>
      have hfront : ∀ m ∈ msgs, m.length < 2 ^ 31 := fun m hm => h m (List.mem_append_left _ hm)
      have hcur : ∀ m ∈ (chunks (reached limit) msgs).cur, m.length < 2 ^ 31 := by
        intro m hm
        apply hfront
        rw [← @chunks_flatten _ (reached limit) msgs]
        exact List.mem_flatten.mpr ⟨_, List.mem_append_right _ List.mem_cons_self, hm⟩
      have hcut : ∀ m, intReached limit (chunks (reached limit) msgs).cur m = reached limit (chunks (reached limit) msgs).cur m := by
        intro m
        rw [intReached, intBytesOf_eq hcur]
        rfl
      rw [chunks_snoc, chunks_snoc, ih hfront, Chunks.add_eq, Chunks.add_eq, hcut]

/-! ## `LogFile` -/

/-- A `LogFile` has already left a chunk that is over the limit, so it holds those of the rule
    `reached (limit + 1)`, and one empty file more when the last of them is full. -/
def leave (limit : Nat) (s : Chunks (List UInt8)) : Chunks (List UInt8) :=
  if limit < bytesOf s.cur then s.roll else s

theorem leave_put (limit : Nat) (s : Chunks (List UInt8)) (msg : List UInt8) :
    leave limit ((leave limit s).put msg) = leave limit (s.add (reached (limit + 1)) msg) := by
  unfold Chunks.add reached
  by_cases hfull : limit < bytesOf s.cur
  · have hreached : limit + 1 ≤ bytesOf s.cur := hfull
    simp [leave, hfull, hreached]
  · have hreached : ¬limit + 1 ≤ bytesOf s.cur := hfull
    simp [leave, hfull, hreached]

theorem Files.appendFile (h : Files bytesOf limit f (leave limit s)) (msg : List UInt8) :
    ∃ f', LogFile.append f msg msg.length = some f' ∧
      Files bytesOf limit f' (leave limit (s.add (reached (limit + 1)) msg)) := by
  rw [← leave_put]
  have hw : Files bytesOf limit (f.write msg (some msg.length)) ((leave limit s).put msg) := h.write msg
  unfold LogFile.append
  by_cases hfull : limit < bytesOf ((leave limit s).put msg).cur
  · refine ⟨_, if_pos rfl, ?_⟩
    rw [hw.bytesWritten, hw.rotateSize, if_pos hfull, leave, if_pos hfull]
    exact hw.rotate rfl
  · refine ⟨_, if_pos rfl, ?_⟩
    rw [hw.bytesWritten, hw.rotateSize, if_neg hfull, leave, if_neg hfull]
    exact hw

theorem Files.appendAllFile (limit : Nat) (msgs : List (List UInt8)) :
    ∃ f, LogFile.appendAll (.new limit) msgs = some f ∧
      Files bytesOf limit f (leave limit (chunks (reached (limit + 1)) msgs)) := by
  induction msgs using List.reverseRecOn with
  | nil => exact ⟨_, rfl, files_new rfl⟩
  | append_singleton msgs msg ih =>
      obtain ⟨f, hf, hfiles⟩ := ih
      obtain ⟨f', hf', hfiles'⟩ := hfiles.appendFile msg
      unfold LogFile.appendAll at hf ⊢
      exact ⟨f', by simp [List.foldlM_append, hf, hf'], by simpa using hfiles'⟩

/-! ### How long the files of a `LogFile` are -/

theorem leave_flatten (limit : Nat) (msgs : List (List UInt8)) :
    (leave limit (chunks (reached (limit + 1)) msgs)).all.flatten = msgs := by
  unfold leave
  split <;> simp [chunks_flatten]

/-- A file goes over the limit by its last message at most. -/
theorem chunk_length {msgs c : List (List UInt8)} {most : Nat} (hmsgs : ∀ msg ∈ msgs, msg.length ≤ most)
    (hc : c ∈ (chunks (reached (limit + 1)) msgs).all) : bytesOf c ≤ limit + most := by
  rcases List.eq_nil_or_concat c with rfl | ⟨front, msg, rfl⟩
  · simp
  · have hmem : msg ∈ (chunks (reached (limit + 1)) msgs).all.flatten := List.mem_flatten.mpr ⟨_, hc, by simp⟩
    rw [chunks_flatten] at hmem
    have hmsg := hmsgs msg hmem
    rw [List.concat_eq_append, bytesOf_snoc]
    by_cases hfront : front = []
    · subst hfront
      simpa using Nat.le_trans hmsg (Nat.le_add_left most limit)
    · have hcut := chunks_cutBy msgs _ hc front msg [] (by simp) hfront
      have hle : bytesOf front ≤ limit := by simpa [reached, Nat.lt_succ_iff] using hcut
      exact Nat.add_le_add hle hmsg

/-- A file that has been left went over the limit. -/
theorem closed_length {msgs c : List (List UInt8)} (hc : c ∈ (chunks (reached (limit + 1)) msgs).closed) :
    limit < bytesOf c := by
  obtain ⟨us, ws, hclosed⟩ := List.append_of_mem hc
  obtain ⟨d, vs, hd⟩ : ∃ d vs, ws ++ [(chunks (reached (limit + 1)) msgs).cur] = d :: vs :=
    List.exists_cons_of_ne_nil (by simp)
  have hall : (chunks (reached (limit + 1)) msgs).all = us ++ c :: d :: vs := by
    simp [Chunks.all, hclosed, hd]
  obtain ⟨x, -, hcut⟩ := chunks_consecutive msgs hall
  simpa [reached, Nat.succ_le_iff] using hcut

/-- What the files of a `LogFile` are, for messages of at most `most` bytes: the messages, whole and in order,
    in files that all but the last go over the limit, by less than a message. -/
theorem logFile_files {msgs : List (List UInt8)} {most : Nat} (limit : Nat) (hmsgs : ∀ msg ∈ msgs, msg.length ≤ most) :
    ∃ f, LogFile.appendAll (.new limit) msgs = some f ∧ Joins msgs f.files ∧
      (∀ file ∈ f.files, file.length ≤ limit + most) ∧ (∀ file ∈ f.closed, limit < file.length) := by
  obtain ⟨f, hf, hfiles⟩ := Files.appendAllFile limit msgs
  refine ⟨f, hf, ⟨_, leave_flatten limit msgs, hfiles.filesOf⟩, ?_, ?_⟩
  · intro file hfile
    rw [hfiles.filesOf] at hfile
    obtain ⟨c, hc, rfl⟩ := List.mem_map.mp hfile
    unfold leave at hc
    split at hc
    · rcases List.mem_append.mp (Chunks.roll_all _ ▸ hc) with hc | hc
      · exact chunk_length hmsgs hc
      · obtain rfl : c = [] := by simpa using hc
        simp
    · exact chunk_length hmsgs hc
  · intro file hfile
    rw [hfiles.closed] at hfile
    obtain ⟨c, hc, rfl⟩ := List.mem_map.mp hfile
    unfold leave at hc
    split at hc
    · rename_i hfull
      rcases List.mem_append.mp hc with hc | hc
      · exact closed_length hc
      · obtain rfl : c = (chunks (reached (limit + 1)) msgs).cur := by simpa using hc
        exact hfull
    · exact closed_length hc

/-! ## `LogMMapFile` -/

/-- The object holds the chunks `s`, all of it inside the mapping. -/
structure Mapped (limit : Nat) (f : LogMMapFile) (s : Chunks (List UInt8)) : Prop where
  unmapped : f.unmapped = s.closed.map List.flatten
  cur : f.cur = s.cur.flatten
  rotateSize : f.rotateSize = limit
  bytesWritten : f.bytesWritten = bytesOf s.cur

variable {m : LogMMapFile}

theorem mapped_new : Mapped limit (.new limit) .empty := ⟨rfl, rfl, rfl, rfl⟩

theorem Mapped.filesOf (h : Mapped limit m s) : m.mappings = filesOf s := by
  simp [LogMMapFile.mappings, LogFiles.filesOf, Chunks.all, h.unmapped, h.cur]

theorem Mapped.rotate (h : Mapped limit m s) : Mapped limit m.rotateFile s.roll where
  unmapped := by simp [LogMMapFile.rotateFile, h.unmapped, h.cur]
  cur := rfl
  rotateSize := h.rotateSize
  bytesWritten := rfl

theorem Mapped.copy (h : Mapped limit m s) {msg : List UInt8} (hfit : bytesOf s.cur + msg.length ≤ limit) :
    ∃ m', m.copy msg = some m' ∧ Mapped limit m' (s.put msg) := by
  refine ⟨_, if_pos (by rw [h.bytesWritten, h.rotateSize]; exact hfit), ?_⟩
  exact ⟨h.unmapped, by simp [h.cur], h.rotateSize, by simp [h.bytesWritten]⟩

theorem Mapped.append (h : Mapped limit m s) {msg : List UInt8} (hfit : msg.length ≤ limit) :
    ∃ m', m.append msg = some m' ∧ Mapped limit m' (s.add (noRoom limit) msg) := by
  unfold LogMMapFile.append Chunks.add noRoom
  rw [h.bytesWritten, h.rotateSize]
  by_cases hroom : limit < bytesOf s.cur + msg.length
  · have hempty : bytesOf s.roll.cur + msg.length ≤ limit := by simpa using hfit
    simpa [hroom] using h.rotate.copy hempty
  · simpa [hroom] using h.copy (Nat.le_of_not_lt hroom)

/-- A message longer than the mapping runs past its end, in a fresh mapping too. -/
theorem Mapped.append_long (h : Mapped limit m s) {msg : List UInt8} (hlong : limit < msg.length) :
    m.append msg = none := by
  have hfull : m.bytesWritten + msg.length > m.rotateSize := by rw [h.rotateSize]; omega
  unfold LogMMapFile.append
  rw [if_pos hfull]
  exact if_neg (by simp only [LogMMapFile.rotateFile, h.rotateSize]; omega)

/-! ## The files of a run -/

/-- **Rotation is exact.** After any messages, the files of a `LogFdFile` are the messages cut, in order and whole,
    where the current file has `rotate_size_` bytes or more; those of a `LogCFile` are the messages cut where it has
    counted `rotate_size_` bytes or more, which is the same when no message has `2^31` bytes; those of a `LogFile`
    are the messages cut where the current file has more than `rotate_size_`, followed by the empty file it has
    already opened when the last one is over the size. -/
theorem rotation (limit : Nat) (msgs : List (List UInt8)) :
    (LogFdFile.appendAll (.new limit) msgs).files = filesOf (chunks (reached limit) msgs) ∧
    (LogCFile.appendAll (.new limit) msgs).files = filesOf (chunks (intReached limit) msgs) ∧
    ((∀ msg ∈ msgs, msg.length < 2 ^ 31) →
      (LogCFile.appendAll (.new limit) msgs).files = (LogFdFile.appendAll (.new limit) msgs).files) ∧
    (LogFile.appendAll (.new limit) msgs).map RotatingFile.files =
      some (filesOf (chunks (reached (limit + 1)) msgs) ++
        if limit < bytesOf (chunks (reached (limit + 1)) msgs).cur then [[]] else []) := by
  have hfd : (LogFdFile.appendAll (.new limit) msgs).files = filesOf (chunks (reached limit) msgs) :=
    (Files.appendAll msgs).filesOf
  have hc : (LogCFile.appendAll (.new limit) msgs).files = filesOf (chunks (intReached limit) msgs) :=
    (Files.appendAllC msgs).filesOf
  refine ⟨hfd, hc, ?_, ?_⟩
  · intro hshort
    rw [hc, hfd, chunks_intReached hshort]
  obtain ⟨f, hf, hfiles⟩ := Files.appendAllFile limit msgs
  rw [hf, Option.map_some, hfiles.filesOf]
  by_cases hfull : limit < bytesOf (chunks (reached (limit + 1)) msgs).cur <;> simp [leave, hfull, filesOf]

/-- **The mapped log stays inside its mappings** exactly when no message is longer than `rotate_size_`; it then
    moves on at the first message that does not fit, and no mapping holds part of a message. -/
theorem mapped_iff (limit : Nat) (msgs : List (List UInt8)) :
    (∀ m, LogMMapFile.appendAll (.new limit) msgs = some m → m.mappings = filesOf (chunks (noRoom limit) msgs)) ∧
    ((LogMMapFile.appendAll (.new limit) msgs).isSome ↔ ∀ msg ∈ msgs, msg.length ≤ limit) := by
  suffices h : (∀ msg ∈ msgs, msg.length ≤ limit) ∧ (∃ m, LogMMapFile.appendAll (.new limit) msgs = some m ∧
        Mapped limit m (chunks (noRoom limit) msgs)) ∨
      (∃ msg ∈ msgs, limit < msg.length) ∧ LogMMapFile.appendAll (.new limit) msgs = none by
    rcases h with ⟨hall, m, hm, hmapped⟩ | ⟨⟨msg, hmem, hlong⟩, hm⟩
    · rw [hm]
      exact ⟨fun m' hm' => Option.some.inj hm' ▸ hmapped.filesOf, by simpa using hall⟩
    · rw [hm]
      exact ⟨fun m' hm' => absurd hm' (by simp), by simpa using ⟨msg, hmem, hlong⟩⟩
  induction msgs using List.reverseRecOn with
  | nil => exact Or.inl ⟨by simp, _, rfl, mapped_new⟩
  | append_singleton msgs msg ih =>
      have hsnoc : LogMMapFile.appendAll (.new limit) (msgs ++ [msg]) =
          (LogMMapFile.appendAll (.new limit) msgs).bind (fun m => m.append msg) := by
        simp [LogMMapFile.appendAll, List.foldlM_append]
      rw [hsnoc]
      rcases ih with ⟨hall, m, hm, hmapped⟩ | ⟨⟨long, hmem, hlong⟩, hm⟩
      · rw [hm, Option.bind_some]
        by_cases hfit : msg.length ≤ limit
        · obtain ⟨m', hm', hmapped'⟩ := hmapped.append hfit
          refine Or.inl ⟨?_, m', hm', by simpa using hmapped'⟩
          simpa [or_imp, forall_and] using ⟨hall, hfit⟩
        · exact Or.inr ⟨⟨msg, by simp, Nat.lt_of_not_le hfit⟩, hmapped.append_long (Nat.lt_of_not_le hfit)⟩
      · rw [hm]
        exact Or.inr ⟨⟨long, by simp [hmem], hlong⟩, rfl⟩

end LogFiles
end Snippets
