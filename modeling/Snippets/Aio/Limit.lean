import Snippets.Aio.Model
import Snippets.Lib.Run

/-!
# `Aio.Limit` — the table of a handle and its requests

A request looks for a free slot of the table and keeps its number, but nothing is ever stored in the table: every slot stays
free (`Untouched`). So every request gets slot 0, none is refused, and `cleanup_handle` finds no info to collect. `limited_iff`
says that the limit is none as soon as one info is outstanding.
-/

namespace Snippets

open Lib

namespace Aio

variable {garbage : Nat → UInt8} {s t u : State} {p q : InfoPtr} {info : Info} {calls : List Call} {call : Call} {fd : Int}
  {mode : Mode} {infos : List (Option InfoPtr)} {i : Nat}

/-! ## The property -/

/-- An info that was not destroyed. -/
def Outstanding (s : State) (p : InfoPtr) (info : Info) : Prop := s.infos[p]? = some info ∧ info.gc = false

/-- How many infos are outstanding. -/
def outstandingCount (s : State) : Nat := s.infos.countP fun info => !info.gc

/-- A request that the mode of the handle admits. -/
def Request (garbage : Nat → UInt8) (s : State) (run : Except Failure (State × InfoPtr)) : Prop :=
  (s.handle.mode = .read ∧ ∃ offset nbytes, run = laioRead garbage s offset nbytes) ∨
    (s.handle.mode = .write ∧ ∃ offset data, run = laioWrite s offset data)

/-- The outstanding infos have slots of their own, requests are refused when there are as many as slots, and the infos go with
    their handle. -/
structure Limited (garbage : Nat → UInt8) (s : State) : Prop where
  inTable : ∀ p info, Outstanding s p info → 0 ≤ info.idx ∧ info.idx < maxInfoSize
  distinct : ∀ p q info info', Outstanding s p info → Outstanding s q info' → p ≠ q → info.idx ≠ info'.idx
  refused : ∀ run, Request garbage s run → (run = .error .maxConcurrent ↔ outstandingCount s = maxInfoSize)
  collected : ∃ t, cleanupHandle s = some t ∧ ∀ p info, Outstanding s p info →
    ∃ info' : Info, t.infos[p]? = some info' ∧ info'.gc = true

/-- The run has made the info. -/
def Made (calls : List Call) (p : InfoPtr) : Prop :=
  (∃ offset nbytes, Call.read offset nbytes (.ok p) ∈ calls) ∨ ∃ offset data, Call.write offset data (.ok p) ∈ calls

/-! ## Slots

The search for a free slot, which is the first one. -/

/-- The loop stops at the first free slot, or behind the last. -/
theorem firstSlotLoop_spec (infos : List (Option InfoPtr)) (i : Nat) :
    ∃ k ≤ infos.length, firstSlotLoop infos i = i + k ∧ (k < infos.length → infos[k]? = some none) ∧
      ∀ j < k, infos[j]? ≠ some none := by
  induction infos generalizing i with
  | nil => exact ⟨0, Nat.le_refl _, rfl, fun h => absurd h (Nat.lt_irrefl _), fun j hj => absurd hj (Nat.not_lt_zero j)⟩
  | cons slot rest ih =>
      cases slot with
      | none => exact ⟨0, Nat.zero_le _, rfl, fun _ => rfl, fun j hj => absurd hj (Nat.not_lt_zero j)⟩
      | some p =>
          obtain ⟨k, hk, heq, hfree, hfull⟩ := ih (i + 1)
          refine ⟨k + 1, Nat.succ_le_succ hk, ?_, ?_, ?_⟩
          · unfold firstSlotLoop
            rw [heq]
            omega
          · intro hlt
            exact hfree (Nat.lt_of_succ_lt_succ hlt)
          · intro j hj
            cases j with
            | zero => exact fun h => nomatch h
            | succ j => exact hfull j (Nat.lt_of_succ_lt_succ hj)

/-- **`first_slot`** is the first free slot, or -1 when there is none. -/
theorem firstSlot_spec (infos : List (Option InfoPtr)) :
    (firstSlot infos = -1 ∧ ∀ j < infos.length, infos[j]? ≠ some none) ∨
      ∃ k < infos.length, firstSlot infos = k ∧ infos[k]? = some none ∧ ∀ j < k, infos[j]? ≠ some none := by
  obtain ⟨k, hk, heq, hfree, hfull⟩ := firstSlotLoop_spec infos 0
  rw [Nat.zero_add] at heq
  unfold firstSlot
  dsimp only
  rw [heq]
  by_cases hend : k = infos.length
  · rw [if_pos hend]
    exact Or.inl ⟨rfl, fun j hj => hfull j (hend ▸ hj)⟩
  · rw [if_neg hend]
    have hlt : k < infos.length := Nat.lt_of_le_of_ne hk hend
    exact Or.inr ⟨k, hlt, rfl, hfree hlt, hfull⟩

/-! ## Cleaning up

`cleanup_info` frees a slot that was free anyway, and marks the request. -/

/-- What it does to a request that was not cleaned up before. -/
theorem cleanupInfo_inv (h : cleanupInfo s p = some t) :
    ∃ info, s.infos[p]? = some info ∧ ((info.gc = true ∧ t = s) ∨ (info.gc = false ∧
      t = ⟨{ s.handle with infos := s.handle.infos.setIfInBounds info.idx.toNat none },
        s.infos.set p { info with buf := none, gc := true }⟩)) := by
  unfold cleanupInfo at h
  cases hp : s.infos[p]? with
  | none =>
      rw [hp] at h
      cases h
  | some info =>
      rw [hp] at h
      cases hgc : info.gc with
      | true =>
          simp only [hgc, if_true] at h
          exact ⟨info, rfl, Or.inl ⟨hgc, (Option.some.inj h).symm⟩⟩
      | false =>
          simp only [hgc, Bool.false_eq_true, if_false] at h
          exact ⟨info, rfl, Or.inr ⟨hgc, (Option.some.inj h).symm⟩⟩

/-- The table names no info. -/
def Untouched (s : State) : Prop := ∀ i, i < maxInfoSize → s.handle.infos[i]? = some none

/-- Over a table without requests it does nothing, -/
theorem Untouched.cleanupLoop (h : Untouched s) (n i : Nat) : cleanupLoop n i s = some s := by
  induction n generalizing i with
  | zero => rfl
  | succ n ih =>
      unfold Aio.cleanupLoop
      by_cases hi : i < maxInfoSize
      · rw [h i hi]
        exact ih (i + 1)
      · rw [Vector.getElem?_eq_none (Nat.le_of_not_lt hi)]
        exact ih (i + 1)

/-- **`cleanup_handle` collects what the table names**: nothing, when it is empty. -/
theorem Untouched.cleanupHandle (h : Untouched s) : ∃ t, cleanupHandle s = some t ∧ t.infos = s.infos := by
  unfold Aio.cleanupHandle
  cases s.handle.gc with
  | true => exact ⟨s, rfl, rfl⟩
  | false =>
      rw [h.cleanupLoop]
      exact ⟨_, rfl, rfl⟩

/-- and the first slot is free. -/
theorem Untouched.firstSlot (h : Untouched s) : firstSlot s.handle.infos.toList = 0 := by
  have hzero : s.handle.infos.toList[0]? = some none := by
    rw [Vector.getElem?_toList]
    exact h 0 (by decide)
  have hlen : s.handle.infos.toList.length = maxInfoSize := Vector.length_toList
  rcases firstSlot_spec s.handle.infos.toList with ⟨-, hfull⟩ | ⟨k, -, heq, -, hfirst⟩
  · exact absurd hzero (hfull 0 (by rw [hlen]; decide))
  · cases k with
    | zero => exact heq
    | succ k => exact absurd hzero (hfirst 0 (Nat.succ_pos k))

/-- **A request is never refused**, and gets the first slot. -/
theorem Untouched.request (h : Untouched s) (offset : Int) (buf : List UInt8) :
    ∃ info, request s offset buf = .ok ({ s with infos := s.infos ++ [info] }, s.infos.length) ∧ info.idx = 0 ∧
      info.gc = false := by
  unfold Aio.request
  rw [h.firstSlot]
  exact ⟨_, rfl, rfl, rfl⟩

/-- A read in its mode is a request, -/
theorem laioRead_eq (h : s.handle.mode = .read) (offset : Int) (nbytes : Nat) :
    laioRead garbage s offset nbytes = request s offset ((List.range nbytes).map garbage) :=
  if_neg (not_not.mpr h)

/-- and so is a write. -/
theorem laioWrite_eq (h : s.handle.mode = .write) (offset : Int) (data : List UInt8) :
    laioWrite s offset data = request s offset data :=
  if_neg (not_not.mpr h)

/-- With the first slot free nothing is refused. -/
theorem Untouched.not_refused (h : Untouched s) {run : Except Failure (State × InfoPtr)} (hrun : Request garbage s run) :
    run ≠ .error .maxConcurrent := by
  rcases hrun with ⟨hmode, offset, nbytes, rfl⟩ | ⟨hmode, offset, data, rfl⟩
  · obtain ⟨info, hok, -⟩ := h.request offset ((List.range nbytes).map garbage)
    rw [laioRead_eq hmode, hok]
    exact fun heq => nomatch heq
  · obtain ⟨info, hok, -⟩ := h.request offset data
    rw [laioWrite_eq hmode, hok]
    exact fun heq => nomatch heq

/-! ## Runs

`Tracked` says what the requests are after the calls made so far: one for each that succeeded, cleaned up when it
was destroyed. -/

/-- What a run leaves behind: an empty table, and an info for every request, collected when it was destroyed. -/
structure Tracked (calls : List Call) (s : State) : Prop where
  table : Untouched s
  slot : ∀ (p : InfoPtr) (info : Info), s.infos[p]? = some info → info.idx = 0
  made : ∀ p, p < s.infos.length ↔ Made calls p
  valid : ∀ p, Call.destroy p ∈ calls → p < s.infos.length
  destroyed : ∀ (p : InfoPtr) (info : Info), s.infos[p]? = some info → (info.gc = true ↔ Call.destroy p ∈ calls)

/-- A new handle has no requests. -/
theorem tracked_new (fd : Int) (mode : Mode) : Tracked [] (newHandle fd mode) := by
  refine ⟨?_, (fun p info hp => nomatch hp), ?_, fun p hp => absurd hp List.not_mem_nil, (fun p info hp => nomatch hp)⟩
  · intro i hi
    unfold newHandle
    rw [Vector.getElem?_replicate, if_pos hi]
  · intro p
    refine iff_of_false (Nat.not_lt_zero p) ?_
    rintro (⟨offset, nbytes, hmem⟩ | ⟨offset, data, hmem⟩)
    · exact absurd hmem List.not_mem_nil
    · exact absurd hmem List.not_mem_nil

/-- Requests are made by one call or another, -/
theorem made_concat : Made (calls ++ [call]) p ↔ Made calls p ∨ Made [call] p := by
  unfold Made
  simp only [List.mem_append, exists_or]
  exact or_or_or_comm

/-- No other call makes an info. -/
theorem not_made (hread : ∀ offset nbytes q, call ≠ .read offset nbytes (.ok q))
    (hwrite : ∀ offset data q, call ≠ .write offset data (.ok q)) (p : InfoPtr) : ¬ Made [call] p := by
  rintro (⟨offset, nbytes, hmem⟩ | ⟨offset, data, hmem⟩)
  · exact hread offset nbytes p (List.mem_singleton.mp hmem).symm
  · exact hwrite offset data p (List.mem_singleton.mp hmem).symm

/-- and destroyed by calls to destroy them. -/
theorem destroy_mem_concat (hcall : ∀ p, call ≠ .destroy p) (p : InfoPtr) :
    Call.destroy p ∈ calls ++ [call] ↔ Call.destroy p ∈ calls := by
  rw [List.mem_append, List.mem_singleton, or_iff_left (Ne.symm (hcall p))]

/-- A call that makes no info and destroys none. -/
theorem Tracked.other (h : Tracked calls s) (hmade : ∀ p, ¬ Made [call] p) (hcall : ∀ p, call ≠ .destroy p) :
    Tracked (calls ++ [call]) s := by
  have hmem : ∀ p, Call.destroy p ∈ calls ++ [call] ↔ Call.destroy p ∈ calls := destroy_mem_concat hcall
  refine ⟨h.table, h.slot, ?_, ?_, ?_⟩
  · intro p
    rw [made_concat, or_iff_left (hmade p)]
    exact h.made p
  · intro p hp
    exact h.valid p ((hmem p).mp hp)
  · intro p info hp
    rw [hmem]
    exact h.destroyed p info hp

/-- An info is an old one, or the new one. -/
theorem concat_cases {infos : List Info} {new info : Info} (hp : (infos ++ [new])[p]? = some info) :
    infos[p]? = some info ∨ (p = infos.length ∧ info = new) := by
  rcases Nat.lt_trichotomy p infos.length with hlt | heq | hgt
  · rw [List.getElem?_append_left hlt] at hp
    exact Or.inl hp
  · subst heq
    rw [List.getElem?_concat_length] at hp
    exact Or.inr ⟨rfl, (Option.some.inj hp).symm⟩
  · have hlen := (List.getElem?_eq_some_iff.mp hp).1
    rw [List.length_append, List.length_singleton] at hlen
    omega

/-- **A request** puts its info behind the others, and nothing into the table. -/
theorem Tracked.request (h : Tracked calls s) {offset : Int} {buf : List UInt8} (hrun : request s offset buf = .ok (t, q))
    (hmade : ∀ p, Made [call] p ↔ p = q) (hcall : ∀ p, call ≠ .destroy p) : Tracked (calls ++ [call]) t := by
  obtain ⟨info, hok, hidx, hgc⟩ := h.table.request offset buf
  rw [hok] at hrun
  cases hrun
  have hmem : ∀ p, Call.destroy p ∈ calls ++ [call] ↔ Call.destroy p ∈ calls := destroy_mem_concat hcall
  refine ⟨h.table, ?_, ?_, ?_, ?_⟩
  · intro p info' hp
    rcases concat_cases hp with hold | ⟨-, rfl⟩
    · exact h.slot p info' hold
    · exact hidx
  · intro p
    rw [made_concat, hmade, ← h.made, List.length_append, List.length_singleton]
    exact Nat.lt_succ_iff_lt_or_eq
  · intro p hp
    have hlt := h.valid p ((hmem p).mp hp)
    show p < (s.infos ++ [info]).length
    rw [List.length_append, List.length_singleton]
    exact Nat.lt_succ_of_lt hlt
  · intro p info' hp
    rw [hmem]
    rcases concat_cases hp with hold | ⟨rfl, rfl⟩
    · exact h.destroyed p info' hold
    · rw [hgc]
      refine iff_of_false Bool.false_ne_true ?_
      intro hdestroy
      exact absurd (h.valid _ hdestroy) (Nat.lt_irrefl _)

/-- Freeing a slot leaves the table free. -/
theorem Untouched.set (h : Untouched s) (k : Nat) (infos : List Info) :
    Untouched ⟨{ s.handle with infos := s.handle.infos.setIfInBounds k none }, infos⟩ := by
  intro i hi
  show (s.handle.infos.setIfInBounds k none)[i]? = some none
  rw [Vector.getElem?_setIfInBounds]
  split
  · split
    · rfl
    · omega
  · exact h i hi

/-- What `destroy` keeps track of: the info is collected, and the others stay as they are. -/
theorem Tracked.destroy_of (h : Tracked calls s) (hlt : q < s.infos.length) (htable : Untouched t)
    (hlen : t.infos.length = s.infos.length) (hslot : ∀ (p : InfoPtr) (info : Info), t.infos[p]? = some info → info.idx = 0)
    (hgc : ∀ (p : InfoPtr) (info : Info), t.infos[p]? = some info → (info.gc = true ↔ Call.destroy p ∈ calls ∨ p = q)) :
    Tracked (calls ++ [.destroy q]) t := by
  have hmade : ∀ p, ¬ Made [Call.destroy q] p := not_made (by rintro _ _ _ ⟨⟩) (by rintro _ _ _ ⟨⟩)
  have hmem : ∀ p, Call.destroy p ∈ calls ++ [.destroy q] ↔ Call.destroy p ∈ calls ∨ p = q := by
    intro p
    rw [List.mem_append, List.mem_singleton, Call.destroy.injEq]
  refine ⟨htable, hslot, ?_, ?_, ?_⟩
  · intro p
    rw [made_concat, or_iff_left (hmade p), hlen]
    exact h.made p
  · intro p hp
    rw [hlen]
    rcases (hmem p).mp hp with hp | rfl
    · exact h.valid p hp
    · exact hlt
  · intro p info hp
    rw [hmem]
    exact hgc p info hp

/-- A destroyed request is cleaned up, -/
theorem Tracked.destroy (h : Tracked calls s) (hrun : cleanupInfo s q = some t) : Tracked (calls ++ [.destroy q]) t := by
  obtain ⟨info, hq, hcase⟩ := cleanupInfo_inv hrun
  have hlt := (List.getElem?_eq_some_iff.mp hq).1
  rcases hcase with ⟨hgc, rfl⟩ | ⟨hgc, rfl⟩
  · refine h.destroy_of hlt h.table rfl h.slot ?_
    intro p info' hp
    by_cases hpq : p = q
    · subst hpq
      rw [hq] at hp
      cases hp
      exact iff_of_true hgc (Or.inr rfl)
    · rw [or_iff_left hpq]
      exact h.destroyed p info' hp
  · have hcases : ∀ (p : InfoPtr) (info' : Info), (s.infos.set q { info with buf := none, gc := true })[p]? = some info' →
        (p ≠ q ∧ s.infos[p]? = some info') ∨ (p = q ∧ info' = { info with buf := none, gc := true }) := by
      intro p info' hp
      by_cases hpq : p = q
      · subst hpq
        rw [List.getElem?_set_self hlt] at hp
        exact Or.inr ⟨rfl, (Option.some.inj hp).symm⟩
      · rw [List.getElem?_set_ne (Ne.symm hpq)] at hp
        exact Or.inl ⟨hpq, hp⟩
    refine h.destroy_of hlt (h.table.set _ _) List.length_set ?_ ?_
    · intro p info' hp
      rcases hcases p info' hp with ⟨-, hold⟩ | ⟨-, rfl⟩
      · exact h.slot p info' hold
      · exact h.slot q info hq
    · intro p info' hp
      rcases hcases p info' hp with ⟨hpq, hold⟩ | ⟨rfl, rfl⟩
      · rw [or_iff_left hpq]
        exact h.destroyed p info' hold
      · exact iff_of_true rfl (Or.inr rfl)

/-- and a completed one is as before but for its result. -/
theorem Tracked.complete (h : Tracked calls s) (q : InfoPtr) (error ret : Int) :
    Tracked calls (aioCompletionHandler s q error ret) := by
  have hcases : ∀ (p : InfoPtr) (info' : Info), (aioCompletionHandler s q error ret).infos[p]? = some info' →
      ∃ info : Info, s.infos[p]? = some info ∧ info'.idx = info.idx ∧ info'.gc = info.gc := by
    intro p info' hp
    unfold aioCompletionHandler at hp
    dsimp only at hp
    rw [List.getElem?_modify] at hp
    obtain ⟨info, hinfo, hinfo'⟩ := Option.map_eq_some_iff.mp hp
    refine ⟨info, hinfo, ?_⟩
    rw [← hinfo']
    split
    · exact ⟨rfl, rfl⟩
    · exact ⟨rfl, rfl⟩
  have hlen : (aioCompletionHandler s q error ret).infos.length = s.infos.length := List.length_modify _ _ _
  refine ⟨h.table, ?_, ?_, ?_, ?_⟩
  · intro p info' hp
    obtain ⟨info, hinfo, hidx, -⟩ := hcases p info' hp
    rw [hidx]
    exact h.slot p info hinfo
  · intro p
    rw [hlen]
    exact h.made p
  · intro p hp
    rw [hlen]
    exact h.valid p hp
  · intro p info' hp
    obtain ⟨info, hinfo, -, hgc⟩ := hcases p info' hp
    rw [hgc]
    exact h.destroyed p info hinfo

/-- A read makes one request, -/
theorem made_read {offset : Int} {nbytes : Nat} : Made [.read offset nbytes (.ok q)] p ↔ p = q := by
  constructor
  · rintro (⟨offset', nbytes', hmem⟩ | ⟨offset', data, hmem⟩)
    · cases List.mem_singleton.mp hmem
      rfl
    · cases List.mem_singleton.mp hmem
  · rintro rfl
    exact Or.inl ⟨offset, nbytes, List.mem_singleton_self _⟩

/-- and so does a write. -/
theorem made_write {offset : Int} {data : List UInt8} : Made [.write offset data (.ok q)] p ↔ p = q := by
  constructor
  · rintro (⟨offset', nbytes, hmem⟩ | ⟨offset', data', hmem⟩)
    · cases List.mem_singleton.mp hmem
    · cases List.mem_singleton.mp hmem
      rfl
  · rintro rfl
    exact Or.inr ⟨offset, data, List.mem_singleton_self _⟩

/-- **Every call keeps track.** -/
theorem Tracked.step (h : Tracked calls s) (hstep : Step garbage s call t) : Tracked (calls ++ [call]) t := by
  cases call with
  | read offset nbytes res =>
      rcases hstep with ⟨q, hrun, rfl⟩ | ⟨e, -, rfl, rfl⟩
      · unfold laioRead at hrun
        split at hrun
        · cases hrun
        · exact h.request hrun (fun p => made_read) (fun p => by rintro ⟨⟩)
      · exact h.other (not_made (by rintro _ _ _ ⟨⟩) (by rintro _ _ _ ⟨⟩)) (fun p => by rintro ⟨⟩)
  | write offset data res =>
      rcases hstep with ⟨q, hrun, rfl⟩ | ⟨e, -, rfl, rfl⟩
      · unfold laioWrite at hrun
        split at hrun
        · cases hrun
        · exact h.request hrun (fun p => made_write) (fun p => by rintro ⟨⟩)
      · exact h.other (not_made (by rintro _ _ _ ⟨⟩) (by rintro _ _ _ ⟨⟩)) (fun p => by rintro ⟨⟩)
  | complete q error ret =>
      obtain rfl : t = aioCompletionHandler s q error ret := hstep
      exact (h.complete q error ret).other (not_made (by rintro _ _ _ ⟨⟩) (by rintro _ _ _ ⟨⟩)) (fun p => by rintro ⟨⟩)
  | destroy q => exact h.destroy hstep

/-- **The limit works in a state that a run reaches** exactly when the run has destroyed every info that it made. -/
theorem limited_iff (hrun : Run (Step garbage) (newHandle fd mode) calls s) :
    Limited garbage s ↔ ∀ p, Made calls p → Call.destroy p ∈ calls := by
  have h : Tracked calls s :=
    Run.invariantTrace (I := Tracked) (fun _ _ _ _ h hst => h.step hst) hrun (tracked_new fd mode)
  constructor
  · intro hlimited p hp
    have hlt := (h.made p).mpr hp
    have hget : s.infos[p]? = some s.infos[p] := List.getElem?_eq_getElem hlt
    apply (h.destroyed p _ hget).mp
    by_contra hgc
    -- an info that is outstanding is not collected with the handle
    obtain ⟨t, ht, hinfos⟩ := h.table.cleanupHandle
    obtain ⟨t', ht', hall⟩ := hlimited.collected
    rw [ht] at ht'
    cases ht'
    obtain ⟨info', hinfo', hgc'⟩ := hall p _ ⟨hget, Bool.eq_false_iff.mpr hgc⟩
    rw [hinfos, hget] at hinfo'
    cases hinfo'
    exact hgc hgc'
  · intro hdestroyed
    have hgc : ∀ (p : InfoPtr) (info : Info), s.infos[p]? = some info → info.gc = true := by
      intro p info hp
      have hlt := (List.getElem?_eq_some_iff.mp hp).1
      exact (h.destroyed p info hp).mpr (hdestroyed p ((h.made p).mp hlt))
    have hnone : ∀ p info, ¬ Outstanding s p info := by
      rintro p info ⟨hp, hfalse⟩
      rw [hgc p info hp] at hfalse
      cases hfalse
    have hcount : outstandingCount s = 0 := by
      unfold outstandingCount
      rw [List.countP_eq_zero]
      intro info hmem
      obtain ⟨p, hp⟩ := List.mem_iff_getElem?.mp hmem
      rw [hgc p info hp]
      decide
    obtain ⟨t, ht, -⟩ := h.table.cleanupHandle
    refine ⟨fun p info hp => absurd hp (hnone p info), fun p q info info' hp => absurd hp (hnone p info), ?_,
      t, ht, fun p info hp => absurd hp (hnone p info)⟩
    intro run hreq
    rw [hcount]
    exact iff_of_false (h.table.not_refused hreq) (by decide)

/-- A handle with one request. -/
def oneRead : State := { newHandle 3 .read with infos := [{ aiocb := ⟨3, 1, 0⟩, buf := some [0], bufLen := 1, idx := 0 }] }

/-- One read. -/
theorem step_oneRead : Step (fun _ => 0) (newHandle 3 .read) (.read 0 1 (.ok 0)) oneRead := Or.inl ⟨0, rfl, rfl⟩

/-- One request, which is destroyed. -/
theorem limited_oneRead : ∃ s, Run (Step fun _ => 0) (newHandle 3 .read) ([.read 0 1 (.ok 0)] ++ [.destroy 0]) s ∧
    Limited (fun _ => 0) s := by
  obtain ⟨t, ht⟩ : ∃ t, cleanupInfo oneRead 0 = some t := ⟨_, rfl⟩
  have hdestroy : Step (fun _ => 0) oneRead (.destroy 0) t := ht
  have hrun := (Run.single step_oneRead).tail hdestroy
  refine ⟨t, hrun, (limited_iff hrun).mpr ?_⟩
  rintro p (⟨offset, nbytes, hmem⟩ | ⟨offset, data, hmem⟩)
  · simp only [List.mem_append, List.mem_singleton, Call.read.injEq, Except.ok.injEq, reduceCtorEq, or_false] at hmem
    rw [hmem.2.2]
    exact List.mem_append_right _ (List.mem_singleton_self _)
  · simp only [List.mem_append, List.mem_singleton, reduceCtorEq, or_false] at hmem

/-- **Two requests** get the same slot. -/
theorem not_limited_twoReads : ∃ s, Run (Step fun _ => 0) (newHandle 3 .read) ([.read 0 1 (.ok 0)] ++ [.read 0 1 (.ok 1)]) s ∧
    ¬ Limited (fun _ => 0) s := by
  refine ⟨_, (Run.single step_oneRead).tail (Or.inl ⟨1, rfl, rfl⟩), ?_⟩
  intro h
  exact h.distinct 0 1 _ _ ⟨rfl, rfl⟩ ⟨rfl, rfl⟩ Nat.zero_ne_one rfl

end Aio
end Snippets
