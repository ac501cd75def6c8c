import Mathlib.Tactic.Push
import Mathlib.Tactic.Linarith
import Mathlib.Algebra.BigOperators.Group.List.Basic
import Snippets.RingBuffer.Model

/-!
# `RingBuffer.Fifo` — the ring is a FIFO, as long as `int` does not overflow

`Rep` relates a ring to the queue it holds. A ring is in one of two phases: *unwrapped*, with the queue laid
out from `front` to `back`, or *wrapped*, with a first part laid out from `front` to the padding and a
non-empty second part from `start_` to `back < front`. `Laid a q b` is the shared notion of a queue packed
without gaps into `[a, b)`.

For buffers of at most `2^31 - 4` bytes every `int` computation is exact and `Rep` is a simulation
(`rep_step`), which gives the FIFO specification (`fifoSpec_of_le`).
-/

namespace Snippets

open Lib

namespace RingBuffer

/-! ## Packed layouts -/

/-- The entries of `q` lie one after another, without gaps, from `a` to `b`. -/
def Laid : Int → List Entry → Int → Prop
  | a, [], b => a = b
  | a, e :: q, b => e.addr = a ∧ Laid (a + e.cost) q b

/-- A layout can be cut anywhere between two entries. -/
theorem laid_append {a c : Int} {q r : List Entry} :
    Laid a (q ++ r) c ↔ ∃ b, Laid a q b ∧ Laid b r c := by
  induction q generalizing a with
  | nil => simp [Laid]
  | cons e q ih =>
      simp only [List.cons_append, Laid, ih]
      constructor
      · rintro ⟨he, b, hq, hr⟩; exact ⟨b, ⟨he, hq⟩, hr⟩
      · rintro ⟨b, ⟨he, hq⟩, hr⟩; exact ⟨he, b, hq, hr⟩

/-- An entry takes four bytes at least, those of its length. -/
theorem Entry.cost_pos (e : Entry) : 4 ≤ e.cost := by unfold Entry.cost; omega

@[simp] theorem totalCost_nil : totalCost [] = 0 := rfl

@[simp] theorem totalCost_cons (e : Entry) (q : List Entry) : totalCost (e :: q) = e.cost + totalCost q := by
  simp [totalCost]

@[simp] theorem totalCost_append (q r : List Entry) : totalCost (q ++ r) = totalCost q + totalCost r := by
  simp [totalCost]

/-- The extent of a packed layout is the cost of its entries, at least four bytes each. -/
theorem Laid.extent {a b : Int} {q : List Entry} (h : Laid a q b) :
    b = a + totalCost q ∧ 4 * (q.length : Int) ≤ totalCost q := by
  induction q generalizing a with
  | nil => simp [Laid] at h; simp [h]
  | cons e q ih =>
      obtain ⟨h₁, h₂⟩ := ih h.2
      have he := e.cost_pos
      rw [totalCost_cons, List.length_cons]
      push_cast
      omega

/-- Every entry lies inside the extent. -/
theorem Laid.bounds {a b : Int} {q : List Entry} (h : Laid a q b) :
    ∀ e ∈ q, a ≤ e.addr ∧ e.addr + e.cost ≤ b := by
  induction q generalizing a with
  | nil => simp
  | cons d q ih =>
      intro e he
      have hd := d.cost_pos
      obtain ⟨hb, hc⟩ := Laid.extent h.2
      rcases List.mem_cons.mp he with rfl | hq
      · have h₁ := h.1
        omega
      · have := ih h.2 e hq
        omega

/-! ## The representation relation -/

/-- The entry's length word and text are in memory. -/
def Stored (m : Mem) (e : Entry) : Prop :=
  m.read e.addr 4 = int32Bytes e.msg.length ∧ m.read (e.addr + 4) e.msg.length = e.msg

/-- Unwrapped: no padding is outstanding and the queue runs from `front` to `back`. -/
def Unwrapped (rb : RingBuffer) (q : List Entry) : Prop :=
  rb.padding = 0 ∧ 0 ≤ rb.front ∧ Laid rb.front q rb.back ∧ rb.back < rb.endOff

/-- Wrapped: the older part ends at the padding, the newer part starts at `start_`. -/
def Wrapped (rb : RingBuffer) (q : List Entry) : Prop :=
  ∃ q₁ q₂, q = q₁ ++ q₂ ∧ q₂ ≠ [] ∧ 0 < rb.padding ∧ Laid rb.front q₁ (rb.endOff - rb.padding) ∧
    Laid 0 q₂ rb.back ∧ rb.back < rb.front

/-- What `rb` says about the queue `q` apart from where it lies. -/
structure Contents (len : Nat) (rb : RingBuffer) (q : List Entry) : Prop where
  endOff : rb.endOff = len
  length : rb.length = len
  size : rb.size = q.length
  small : ∀ e ∈ q, e.msg.length < len
  stored : ∀ e ∈ q, Stored rb.mem e

/-- The ring `rb` over a buffer of `len` bytes holds the queue `q`. -/
structure Rep (len : Nat) (rb : RingBuffer) (q : List Entry) : Prop extends Contents len rb q where
  layout : Unwrapped rb q ∨ Wrapped rb q

variable {len : Nat} {rb rb' : RingBuffer} {q : List Entry}

/-- A queued entry keeps clear of `[start_, end_)`'s ends. -/
theorem Rep.bounds (h : Rep len rb q) : ∀ e ∈ q, 0 ≤ e.addr ∧ e.addr + e.cost ≤ len := by
  have hend := h.endOff
  rcases h.layout with ⟨_, hf, hl, hb⟩ | ⟨q₁, q₂, rfl, hne, hp, hl₁, hl₂, hb⟩
  · intro e he
    have := hl.bounds e he
    omega
  · intro e he
    have h₂ := (hl₂.extent).1
    have hq₂ : 0 ≤ totalCost q₂ := by have := hl₂.extent; omega
    rcases List.mem_append.mp he with he | he
    · have := hl₁.bounds e he
      omega
    · have := hl₂.bounds e he
      have hx := (hl₁.extent)
      omega

/-- A new ring is unwrapped and empty. -/
theorem rep_create {mem : Mem} (hlen : len ≤ 2 ^ 31 - 4) (h : create len mem = some rb) : Rep len rb [] := by
  unfold create at h
  split at h
  · have hl : toInt32 (len : Int) = len := toInt32_of_range (by omega) (by omega)
    cases h
    refine ⟨⟨rfl, hl, rfl, by simp, by simp⟩, Or.inl ⟨rfl, le_refl 0, rfl, ?_⟩⟩
    show (0 : Int) < len
    omega
  · cases h

/-- `used()` is the cost of the queue. -/
theorem Rep.used (hlen : len ≤ 2 ^ 31 - 4) (h : Rep len rb q) : rb.used = totalCost q := by
  have hend := h.endOff
  have hl := h.length
  unfold RingBuffer.used
  rcases h.layout with ⟨_, hf, hla, hb⟩ | ⟨q₁, q₂, rfl, hne, hp, hl₁, hl₂, hb⟩
  · have hx := hla.extent
    rw [if_pos (by omega), toInt32_of_range (by omega) (by omega)]
    omega
  · have hx₁ := hl₁.extent
    have hx₂ := hl₂.extent
    rw [if_neg (by omega), totalCost_append, toInt32_of_range (by omega) (by omega)]
    omega

/-! ## `Push`

The message goes to `back`, which is either free there (`checkCanWrite` wants no padding), or the ring is
unwrapped, the rest of the buffer is padded, and the message goes to `start_`. In both cases what is written
avoids the entries that are stored. -/

@[simp] theorem store_offsets (rb : RingBuffer) (w : MemWrite) : (rb.store w).offsets = rb.offsets := rfl

/-- Writes that avoid an entry leave it stored. -/
theorem Stored.write {m : Mem} {e : Entry} {w : MemWrite} (h : Stored m e) (hw : w.Avoids e) :
    Stored (m.write w.addr w.bytes) e := by
  have hc : e.cost = 4 + e.msg.length := rfl
  unfold MemWrite.Avoids at hw
  unfold Stored
  rw [Mem.read_write_disjoint (by push_cast; omega), Mem.read_write_disjoint (by omega)]
  exact h

/-- `putMessage` stores the new entry at `back` and keeps every entry it avoids. -/
theorem putMessage_stored (rb : RingBuffer) (buf : List UInt8) :
    Stored (rb.putMessage buf).1.mem ⟨rb.back, buf⟩ := by
  constructor
  · show Mem.read (((rb.mem.write rb.back (int32Bytes buf.length)).write (rb.back + 4) buf)) rb.back 4 = _
    rw [Mem.read_write_disjoint (by left; omega)]
    exact Mem.read_write_self
  · exact Mem.read_write_self

/-- An entry that the writes avoid keeps its length and its bytes. -/
theorem putMessage_keeps {buf : List UInt8} {e : Entry} (h : Stored rb.mem e)
    (hw : ∀ w ∈ (rb.putMessage buf).2, w.Avoids e) : Stored (rb.putMessage buf).1.mem e := by
  have h₁ := h.write (hw _ (List.mem_cons_self))
  exact h₁.write (hw _ (List.mem_cons_of_mem _ List.mem_cons_self))

/-- The two writes of `putMessage` cover exactly the new entry. -/
theorem putMessage_range {buf : List UInt8} {w : MemWrite} (h : w ∈ (rb.putMessage buf).2) :
    rb.back ≤ w.addr ∧ w.addr + w.bytes.length ≤ rb.back + 4 + buf.length := by
  simp only [putMessage, List.mem_cons, List.not_mem_nil, or_false] at h
  rcases h with rfl | rfl
  · simp
  · constructor
    · simp
    · show rb.back + 4 + (buf.length : Int) ≤ _
      omega

/-- The representation of a ring after `putMessage` at a place clear of the queue. -/
theorem Contents.putMessage (h : Contents len rb q) {buf : List UInt8}
    (hsmall : buf.length < len) (hclear : ∀ e ∈ q, rb.back + 4 + buf.length ≤ e.addr ∨ e.addr + e.cost ≤ rb.back)
    (hroom : 0 ≤ rb.back ∧ rb.back + 4 + buf.length ≤ len) (n : Int) (hn : toSize n = q.length + 1)
    (hlay : Unwrapped ((rb.putMessage buf).1) (q ++ [⟨rb.back, buf⟩]) ∨
      Wrapped ((rb.putMessage buf).1) (q ++ [⟨rb.back, buf⟩])) :
    Rep len ((rb.putMessage buf).1.setSize n) (q ++ [⟨rb.back, buf⟩]) ∧
      ∀ w ∈ (rb.putMessage buf).2, w.InBuffer len ∧ ∀ e ∈ q, w.Avoids e := by
  have hav : ∀ w ∈ (rb.putMessage buf).2, ∀ e ∈ q, w.Avoids e := by
    intro w hw e he
    have hr := putMessage_range hw
    unfold MemWrite.Avoids
    -- what is written lies before the entry or behind it
    rcases hclear e he with hc | hc <;> omega
  refine ⟨⟨⟨h.endOff, h.length, ?_, ?_, ?_⟩, hlay⟩, fun w hw => ⟨?_, hav w hw⟩⟩
  · show toSize n = _
    simpa using hn
  · intro e he
    rcases List.mem_append.mp he with he | he
    · exact h.small e he
    · rw [List.mem_singleton] at he; subst he; exact hsmall
  · intro e he
    rcases List.mem_append.mp he with he | he
    · exact putMessage_keeps (h.stored e he) fun w hw => hav w hw e he
    · rw [List.mem_singleton] at he; subst he; exact putMessage_stored rb buf
  · have hr := putMessage_range hw
    constructor <;> omega

/-- The tail padding of an unwrapped ring keeps the contents and touches nothing queued. -/
theorem Contents.padTail (h : Contents len rb q) (hb : 0 ≤ rb.back ∧ rb.back < rb.endOff)
    (hlen : len ≤ 2 ^ 31 - 4) (hclear : ∀ e ∈ q, e.addr + e.cost ≤ rb.back) :
    Contents len rb.padTail.1 q ∧ rb.padTail.1.padding = rb.endOff - rb.back ∧
      rb.padTail.2.InBuffer len ∧ ∀ e ∈ q, rb.padTail.2.Avoids e := by
  have hend := h.endOff
  have hpad : toInt32 (rb.endOff - rb.back) = rb.endOff - rb.back :=
    toInt32_of_range (by omega) (by omega)
  have hav : ∀ e ∈ q, rb.padTail.2.Avoids e := fun e he => Or.inr (hclear e he)
  refine ⟨⟨h.endOff, h.length, h.size, h.small, fun e he => ?_⟩, hpad, ⟨hb.1, ?_⟩, hav⟩
  · exact (h.stored e he).write (hav e he)
  · show rb.back + ((List.replicate (toSize (toInt32 (rb.endOff - rb.back))) (0 : UInt8)).length : Int) ≤ _
    rw [List.length_replicate, hpad, toSize_of_range (by omega) (by omega)]
    omega

/-- The queue is short enough for `size()` to count it. -/
theorem Rep.length_lt (hlen : len ≤ 2 ^ 31 - 4) (h : Rep len rb q) : q.length < 2 ^ 31 := by
  have hend := h.endOff
  have hq : 4 * (q.length : Int) ≤ len := by
    rcases h.layout with ⟨_, hf, hla, hb⟩ | ⟨q₁, q₂, rfl, hne, hp, hl₁, hl₂, hb⟩
    · have hx := hla.extent
      omega
    · have hx₁ := hl₁.extent
      have hx₂ := hl₂.extent
      rw [List.length_append]
      push_cast
      omega
  omega

/-- `CheckCanWrite` grants room without padding: up to `end_` when unwrapped, up to `front` when wrapped. -/
theorem checkCanWrite_noPad {n : Int} (h : rb.checkCanWrite n = some false) :
    (rb.front ≤ rb.back ∧ rb.back + toInt32 (4 + n) < rb.endOff) ∨
    (rb.back < rb.front ∧ rb.back + toInt32 (4 + n) < rb.front) := by
  unfold checkCanWrite at h
  dsimp only at h
  split at h
  · split at h
    · split at h <;> simp at h
    · left; omega
  · split at h
    · simp at h
    · right; omega

/-- `CheckCanWrite` asks for padding: unwrapped, no room before `end_`, room before `front`. -/
theorem checkCanWrite_pad {n : Int} (h : rb.checkCanWrite n = some true) :
    rb.front ≤ rb.back ∧ rb.endOff ≤ rb.back + toInt32 (4 + n) ∧ toInt32 (4 + n) < rb.front := by
  unfold checkCanWrite at h
  dsimp only at h
  split at h
  · split at h
    · split at h
      · simp at h
      · omega
    · simp at h
  · split at h <;> simp at h

/-- What an accepted `Push` did: it appended at `back`, or padded the tail and appended at `start_`. -/
theorem push_accepted {buf : List UInt8} {ws : List MemWrite}
    (h : rb.push buf = some (rb', true, ws)) :
    0 < buf.length ∧ (buf.length : Int) < rb.length ∧
    ((rb.checkCanWrite buf.length = some false ∧ ws = (rb.putMessage buf).2 ∧
        rb' = (rb.putMessage buf).1.setSize (1 + rb.size)) ∨
     (rb.checkCanWrite buf.length = some true ∧ ws = rb.padTail.2 :: (rb.padTail.1.putMessage buf).2 ∧
        rb' = (rb.padTail.1.putMessage buf).1.setSize (1 + rb.size))) := by
  unfold push at h
  split at h
  · cases h
  · rename_i hlen
    rw [not_or] at hlen
    refine ⟨by omega, by omega, ?_⟩
    split at h
    · cases h
    · rename_i np hnp
      -- whether the tail is padded first
      cases np with
      | false =>
          simp only [write, Bool.false_eq_true, if_false] at h
          left
          cases h
          exact ⟨hnp, rfl, rfl⟩
      | true =>
          simp only [write, if_true] at h
          right
          split at h
          · cases h
          · rename_i rb₁ ws₁ hw
            split at hw
            · cases hw; cases h; exact ⟨hnp, rfl, rfl⟩
            · cases hw

/-- A rejected `Push` changes nothing and writes nothing. -/
theorem push_rejected {buf : List UInt8} {ws : List MemWrite} (h : rb.push buf = some (rb', false, ws)) :
    rb' = rb ∧ ws = [] := by
  unfold push at h
  split at h
  · cases h; exact ⟨rfl, rfl⟩
  · split at h
    · cases h; exact ⟨rfl, rfl⟩
    · split at h
      · cases h
      · simp at h

/-- `needs_padding` is only asked for when `back >= front`, so `Write`'s assert holds. -/
theorem push_ne_none (rb : RingBuffer) (buf : List UInt8) : rb.push buf ≠ none := by
  unfold push
  split
  · simp
  · split
    · simp
    · rename_i np hnp
      cases np with
      | false => simp [write]
      | true =>
          have hb : rb.back ≥ rb.front := (checkCanWrite_pad hnp).1
          simp [write, hb]

/-- **An accepted `Push` appends to the queue**, inside the buffer and clear of what is queued. -/
theorem Rep.push (hlen : len ≤ 2 ^ 31 - 4) (h : Rep len rb q) {buf : List UInt8} {ws : List MemWrite}
    (hp : rb.push buf = some (rb', true, ws)) :
    ∃ a, Rep len rb' (q ++ [⟨a, buf⟩]) ∧ ∀ w ∈ ws, w.InBuffer len ∧ ∀ e ∈ q, w.Avoids e := by
  obtain ⟨hpos, hlt, hcase⟩ := push_accepted hp
  have hend := h.endOff
  have hsz : toSize (1 + (rb.size : Int)) = q.length + 1 := by
    have := h.length_lt hlen
    rw [h.size, toSize_of_range (by omega) (by omega)]
    omega
  have hsmall : buf.length < len := by have := h.length; omega
  have htot : toInt32 (4 + (buf.length : Int)) = 4 + buf.length := toInt32_of_range (by omega) (by omega)
  rcases hcase with ⟨hc, rfl, rfl⟩ | ⟨hc, rfl, rfl⟩
  · -- no padding: the message goes to `back`, in either phase
    refine ⟨rb.back, ?_⟩
    have hroom := checkCanWrite_noPad hc
    rw [htot] at hroom
    rcases h.layout with ⟨hpad, hf, hla, hb⟩ | ⟨q₁, q₂, rfl, hne, hpad, hl₁, hl₂, hb⟩
    -- unwrapped: the queue gets longer at its end
    · have hx := hla.extent
      refine h.toContents.putMessage hsmall ?_ (by omega) _ hsz (Or.inl ?_)
      · intro e he
        right
        exact (hla.bounds e he).2
      · refine ⟨hpad, hf, laid_append.mpr ⟨rb.back, hla, rfl, ?_⟩, ?_⟩
        · show rb.back + (4 + (buf.length : Int)) = rb.back + 4 + buf.length
          omega
        · show rb.back + 4 + (buf.length : Int) < rb.endOff
          omega
    -- wrapped: the second part does
    · have hx₁ := hl₁.extent
      have hx₂ := hl₂.extent
      refine h.toContents.putMessage hsmall ?_ (by omega) _ hsz (Or.inr ?_)
      · intro e he
        rcases List.mem_append.mp he with he | he
        · have := hl₁.bounds e he
          left
          omega
        · right
          exact (hl₂.bounds e he).2
      · refine ⟨q₁, q₂ ++ [⟨rb.back, buf⟩], by simp, by simp, hpad, hl₁, laid_append.mpr ⟨rb.back, hl₂, rfl, ?_⟩, ?_⟩
        · show rb.back + (4 + (buf.length : Int)) = rb.back + 4 + buf.length
          omega
        · show rb.back + 4 + (buf.length : Int) < rb.front
          omega
  · -- padding: only an unwrapped ring asks for it, and becomes wrapped
    refine ⟨0, ?_⟩
    obtain ⟨hfb, htail, hhead⟩ := checkCanWrite_pad hc
    rw [htot] at htail hhead
    rcases h.layout with ⟨hpad, hf, hla, hb⟩ | ⟨q₁, q₂, rfl, hne, hpad, hl₁, hl₂, hb⟩
    · have hx := hla.extent
      have hclear : ∀ e ∈ q, e.addr + e.cost ≤ rb.back := fun e he => (hla.bounds e he).2
      obtain ⟨hc', hpad', hin, hav⟩ := h.toContents.padTail (by omega) hlen hclear
      have hput := hc'.putMessage hsmall (n := 1 + (rb.size : Int)) ?_ ⟨le_refl _, ?_⟩ hsz (Or.inr ?_)
      · refine ⟨hput.1, fun w hw => ?_⟩
        rcases List.mem_cons.mp hw with rfl | hw
        · exact ⟨hin, hav⟩
        · exact hput.2 w hw
      · intro e he
        left
        have := hla.bounds e he
        show 0 + 4 + (buf.length : Int) ≤ e.addr
        omega
      · show 0 + 4 + (buf.length : Int) ≤ len
        omega
      · refine ⟨q, [⟨0, buf⟩], rfl, by simp, ?_, ?_, ⟨rfl, ?_⟩, ?_⟩
        · show 0 < rb.padTail.1.padding
          rw [hpad']; omega
        · show Laid rb.front q (rb.endOff - rb.padTail.1.padding)
          rw [hpad', show rb.endOff - (rb.endOff - rb.back) = rb.back by omega]
          exact hla
        · show (0 : Int) + (4 + (buf.length : Int)) = 0 + 4 + buf.length
          omega
        · show 0 + 4 + (buf.length : Int) < rb.front
          omega
    · omega

/-! ## `Pop`

The first entry is read, at `front` or, when only the padding is left there, at `start_`, and the ring is
unwrapped again. -/

/-- Reading a stored entry gives back its length and its text. -/
theorem Stored.readBack {m : Mem} {e : Entry} (h : Stored m e) (hlt : e.msg.length < 2 ^ 31) :
    int32OfBytes (m.read e.addr 4) = e.msg.length ∧ m.read (e.addr + 4) (e.msg.length : Int).toNat = e.msg := by
  refine ⟨?_, ?_⟩
  · rw [h.1, int32OfBytes_int32Bytes]
    exact toInt32_of_range (by omega) (by omega)
  · rw [Int.toNat_natCast]
    exact h.2

/-- `ReadNext` on a stored entry at the read position `front'` (after a possible restart at `start_`). -/
theorem readNext_eq (rb : RingBuffer) {e : Entry} (h : Stored rb.mem e) (hlt : e.msg.length < 2 ^ 31) :
    (rb.front + rb.padding = rb.endOff → e.addr = 0 →
      rb.readNext = ((rb.setPadding 0).setFront (e.addr + e.cost), ⟨e.addr + 4, e.msg.length, e.msg⟩)) ∧
    (rb.front + rb.padding ≠ rb.endOff → e.addr = rb.front →
      rb.readNext = (rb.setFront (e.addr + e.cost), ⟨e.addr + 4, e.msg.length, e.msg⟩)) := by
  obtain ⟨hl, hm⟩ := h.readBack hlt
  have hc : e.addr + 4 + (e.msg.length : Int) = e.addr + e.cost := by unfold Entry.cost; omega
  constructor
  · intro hpad ha
    unfold readNext
    rw [if_pos hpad]
    show ((rb.setPadding 0).setFront (0 + 4 + int32OfBytes (rb.mem.read 0 4)),
      (⟨0 + 4, int32OfBytes (rb.mem.read 0 4),
        rb.mem.read (0 + 4) (int32OfBytes (rb.mem.read 0 4)).toNat⟩ : Popped)) = _
    rw [← ha, hl, hm, hc]
  · intro hpad ha
    unfold readNext
    rw [if_neg hpad]
    show (rb.setFront (rb.front + 4 + int32OfBytes (rb.mem.read rb.front 4)),
      (⟨rb.front + 4, int32OfBytes (rb.mem.read rb.front 4),
        rb.mem.read (rb.front + 4) (int32OfBytes (rb.mem.read rb.front 4)).toNat⟩ : Popped)) = _
    rw [← ha, hl, hm, hc]

/-- No queue takes less than nothing. -/
theorem totalCost_nonneg (q : List Entry) : 0 ≤ totalCost q := by
  induction q with
  | nil => simp
  | cons e q ih =>
      have he := e.cost_pos
      rw [totalCost_cons]
      omega

/-- Only the empty queue takes no bytes, so that `used() = 0` is the test for it. -/
theorem totalCost_eq_zero (h : totalCost q = 0) : q = [] := by
  cases q with
  | nil => rfl
  | cons e q =>
      have he := e.cost_pos
      have hq : 0 ≤ totalCost q := totalCost_nonneg q
      rw [totalCost_cons] at h
      omega

/-- **`Pop` returns the oldest message**, and `NULL` exactly on the empty queue. -/
theorem Rep.pop (hlen : len ≤ 2 ^ 31 - 4) (h : Rep len rb q) :
    (q = [] ∧ rb.pop = (rb, none)) ∨
    ∃ e q', q = e :: q' ∧ rb.pop.2 = some ⟨e.addr + 4, e.msg.length, e.msg⟩ ∧ Rep len rb.pop.1 q' := by
  have hused := h.used hlen
  have hend := h.endOff
  cases q with
  | nil =>
      left
      refine ⟨rfl, ?_⟩
      unfold RingBuffer.pop
      rw [if_pos (by rw [hused]; rfl)]
  | cons e q' =>
      right
      refine ⟨e, q', rfl, ?_⟩
      have hne : rb.used ≠ 0 := by
        intro h0
        rw [hused] at h0
        exact absurd (totalCost_eq_zero h0) (by simp)
      have hlt : e.msg.length < 2 ^ 31 := by
        have := h.small e List.mem_cons_self
        omega
      have hst := h.stored e List.mem_cons_self
      have hsz : toSize ((rb.size : Int) - 1) = q'.length := by
        have h₁ := h.length_lt hlen
        have h₂ := h.size
        rw [List.length_cons] at h₁ h₂
        rw [toSize_of_range (by omega) (by omega)]
        omega
      -- the popped ring, once the new `front` and padding are known, still holds `q'`
      have hrest : ∀ rb' : RingBuffer, rb'.endOff = rb.endOff → rb'.length = rb.length →
          rb'.size = q'.length → rb'.mem = rb.mem → (Unwrapped rb' q' ∨ Wrapped rb' q') → Rep len rb' q' := by
        intro rb' h₁ h₂ h₃ h₄ h₅
        exact ⟨⟨h₁ ▸ h.endOff, h₂ ▸ h.length, h₃, fun d hd => h.small d (List.mem_cons_of_mem _ hd),
          fun d hd => h₄ ▸ h.stored d (List.mem_cons_of_mem _ hd)⟩, h₅⟩
      obtain ⟨hwrap, hplain⟩ := readNext_eq (rb.setSize (rb.size - 1)) hst hlt
      unfold RingBuffer.pop
      rw [if_neg hne]
      rcases h.layout with ⟨hpad, hf, hla, hb⟩ | ⟨q₁, q₂, hq, hq₂, hpad, hl₁, hl₂, hb⟩
      -- unwrapped: the entry at `front`
      · have hx := hla.extent
        have hstep := hplain (by show rb.front + rb.padding ≠ rb.endOff; omega) hla.1
        dsimp only
        rw [hstep]
        refine ⟨rfl, hrest _ rfl rfl hsz rfl (Or.inl ⟨hpad, ?_, ?_, hb⟩)⟩
        · show 0 ≤ e.addr + e.cost
          have := hla.1
          have := e.cost_pos
          omega
        · show Laid (e.addr + e.cost) q' rb.back
          rw [hla.1]
          exact hla.2
      · cases q₁ with
        | nil =>
            -- `front` stands at the padding: restart at `start_`
            obtain rfl : e :: q' = q₂ := hq
            have hfp : rb.front = rb.endOff - rb.padding := hl₁
            have hstep := hwrap (by show rb.front + rb.padding = rb.endOff; omega) hl₂.1
            have hx := hl₂.2.extent
            have he := e.cost_pos
            dsimp only
            rw [hstep]
            refine ⟨rfl, hrest _ rfl rfl hsz rfl (Or.inl ⟨rfl, ?_, ?_, ?_⟩)⟩
            · show 0 ≤ e.addr + e.cost
              have := hl₂.1
              omega
            · show Laid (e.addr + e.cost) q' rb.back
              rw [hl₂.1]
              exact hl₂.2
            · show rb.back < rb.endOff
              omega
        | cons d q₁ =>
            obtain ⟨rfl, rfl⟩ : e = d ∧ q' = q₁ ++ q₂ := by simpa using hq
            have hx := hl₁.2.extent
            have he := e.cost_pos
            have hstep := hplain (by show rb.front + rb.padding ≠ rb.endOff; omega) hl₁.1
            dsimp only
            rw [hstep]
            refine ⟨rfl, hrest _ rfl rfl hsz rfl (Or.inr ⟨q₁, q₂, rfl, hq₂, hpad, ?_, hl₂, ?_⟩)⟩
            · show Laid (e.addr + e.cost) q₁ (rb.endOff - rb.padding)
              rw [hl₁.1]
              exact hl₁.2
            · show rb.back < e.addr + e.cost
              have := hl₁.1
              omega

/-! ## The simulation -/

/-- Each call on a ring that holds `q` is a queue step from `q`. -/
theorem rep_step (hlen : len ≤ 2 ^ 31 - 4) (rb : RingBuffer) (c : Call) (rb' : RingBuffer) (q : List Entry)
    (h : Rep len rb q) (hst : Step rb c rb') : ∃ q', FifoStep len q c q' ∧ Rep len rb' q' := by
  cases c with
  | push buf ok ws =>
      cases ok with
      | true =>
          obtain ⟨a, hrep, hws⟩ := h.push hlen hst.2
          exact ⟨_, ⟨⟨a, rfl⟩, hws⟩, hrep⟩
      | false =>
          obtain ⟨rfl, rfl⟩ := push_rejected hst.2
          exact ⟨q, ⟨rfl, rfl⟩, h⟩
  | pop res =>
      have hst' : rb.pop = (rb', res) := hst
      rcases h.pop hlen with ⟨rfl, hp⟩ | ⟨e, q', rfl, hres, hrep⟩
      · rw [hst'] at hp
        obtain ⟨rfl, rfl⟩ := Prod.mk.inj hp
        exact ⟨[], ⟨rfl, rfl⟩, h⟩
      · rw [hst'] at hres hrep
        obtain rfl : res = _ := hres
        exact ⟨q', ⟨e, rfl, rfl, rfl, rfl⟩, hrep⟩

/-- Buffers of at most `2^31 - 4` bytes meet the FIFO specification. -/
theorem fifoSpec_of_le (hlen : len ≤ 2 ^ 31 - 4) : FifoSpec len := by
  intro mem rb₀ hc calls rb hrun
  obtain ⟨q, hq, hrep⟩ := Run.simulates (rep_step hlen) hrun (rep_create hlen hc)
  exact ⟨⟨q, hq, hrep.size, hrep.used hlen⟩, fun buf ws rb' hst => (push_rejected hst.2).1,
    fun buf _ => push_ne_none rb buf⟩

end RingBuffer
end Snippets
