import Snippets.ExchangeGifts.Filing

/-!
# `ExchangeGifts.Slots` — the notifications of a type, and their limit

`NewNotification` looks for a slot: it appends one, takes one that was deleted lazily, or clears the oldest of the type. Only
the third way sets the type. A slot that is appended has the first type there is, and one that is taken again stays `NIL`;
the callers do not set the type either. `usedRight_iff` says in which runs the types and the limits are right in spite of that.
-/

namespace Snippets

open Lib

namespace ExchangeGifts

variable {type other : NotificationType} {limitNum idx : Nat} {id : UInt32} {n m : Notification}
  {ns ns' : List Notification} {s : Scan} {limits : NotificationType → Nat}

/-! ## The property -/

/-- How many notifications of a type there are. -/
def typeCount (type : NotificationType) (ns : List Notification) : Nat := ns.countP fun n => n.type = type

/-- What a call of `NewNotification` with the result `(ns', idx)` should have done. -/
structure SlotFor (ns : List Notification) (type : NotificationType) (limitNum : Nat) (ns' : List Notification) (idx : Nat) :
    Prop where
  typed : ∃ n, ns'[idx]? = some n ∧ n.type = type
  others : ∀ (i : Nat) (n : Notification), ns[i]? = some n → n.type ≠ .nil → n.type ≠ type → ns'[i]? = some n
  oldest : ∀ (i : Nat) (n : Notification), ns[i]? = some n → n.type = type → ns'[i]? ≠ some n →
    limitNum ≤ typeCount type ns ∧ i = idx ∧ ∀ m ∈ ns, m.type = type → n.createTime ≤ m.createTime
  count : typeCount type ns' ≤ max limitNum (typeCount type ns)

/-- The call returns a slot, and has done what it should. -/
def SlotSpec (ns : List Notification) (type : NotificationType) (limitNum : Nat) : Prop :=
  ∃ ns' idx, newNotification ns type limitNum = some (ns', idx) ∧ SlotFor ns type limitNum ns' idx

/-- The oldest notification of the type is cleared, or one of the first type is appended. -/
def Slotted (ns : List Notification) (type : NotificationType) (limitNum : Nat) : Prop :=
  limitNum ≤ typeCount type ns ∨ (type = .requestGift ∧ ∀ n ∈ ns, n.type ≠ .nil)

/-! ## The scan

One pass over the notifications finds their number, the oldest of the type, and the last `NIL` slot. The facts
are those of the part that was passed. -/

/-- What the loop has found in the notifications it has passed. -/
structure Scanned (type : NotificationType) (ns : List Notification) (s : Scan) : Prop where
  num : s.num = typeCount type ns
  earliest : (s.time = 2 ^ 63 - 1 ∧ typeCount type ns = 0) ∨ ∃ i n, s.earliest = some i ∧ ns[i]? = some n ∧ n.type = type ∧
    s.time = n.createTime.toNat ∧ ∀ m ∈ ns, m.type = type → n.createTime ≤ m.createTime
  empty : (s.empty = none ∧ ∀ n ∈ ns, n.type ≠ .nil) ∨ ∃ i n, s.empty = some i ∧ ns[i]? = some n ∧ n.type = .nil

/-- One more notification counts for its own type. -/
theorem typeCount_concat (type : NotificationType) (ns : List Notification) (n : Notification) :
    typeCount type (ns ++ [n]) = typeCount type ns + if n.type = type then 1 else 0 := by
  unfold typeCount
  rw [List.countP_append, List.countP_singleton]
  congr 1
  by_cases h : n.type = type
  · rw [if_pos h, if_pos (decide_eq_true h)]
  · rw [if_neg h, if_neg (by rw [decide_eq_true_eq]; exact h)]

/-- A slot keeps its place when one is appended. -/
theorem getElem?_concat_of_some (h : ns[idx]? = some m) : (ns ++ [n])[idx]? = some m := by
  rw [List.getElem?_append_left (List.getElem?_eq_some_iff.mp h).1]
  exact h

/-- Nothing is of a type that is not counted. -/
theorem ne_of_typeCount_zero (h : typeCount type ns = 0) (hm : m ∈ ns) : m.type ≠ type := by
  intro hty
  have hpos : 0 < typeCount type ns := List.countP_pos_iff.mpr ⟨m, hm, decide_eq_true hty⟩
  omega

/-- The `NIL` slot that was found stays, unless the next notification is one. -/
theorem Scanned.empty_concat (h : Scanned type ns s) (hn : n.type ≠ .nil) :
    (s.empty = none ∧ ∀ m ∈ ns ++ [n], m.type ≠ .nil) ∨
      ∃ i m, s.empty = some i ∧ (ns ++ [n])[i]? = some m ∧ m.type = .nil := by
  rcases h.empty with ⟨hnone, hall⟩ | ⟨i, m, hi, hm, hty⟩
  · left
    refine ⟨hnone, ?_⟩
    intro m hm
    rcases List.mem_append.mp hm with hm | hm
    · exact hall m hm
    · rw [List.mem_singleton.mp hm]
      exact hn
  · exact Or.inr ⟨i, m, hi, getElem?_concat_of_some hm, hty⟩

/-- A notification of another type does not matter for the oldest one. -/
theorem Scanned.earliest_concat (h : Scanned type ns s) (hn : n.type ≠ type) :
    (s.time = 2 ^ 63 - 1 ∧ typeCount type (ns ++ [n]) = 0) ∨ ∃ i m, s.earliest = some i ∧ (ns ++ [n])[i]? = some m ∧
      m.type = type ∧ s.time = m.createTime.toNat ∧ ∀ k ∈ ns ++ [n], k.type = type → m.createTime ≤ k.createTime := by
  rcases h.earliest with ⟨htime, hzero⟩ | ⟨i, m, hi, hm, hty, htime, hmin⟩
  · left
    refine ⟨htime, ?_⟩
    rw [typeCount_concat, hzero, if_neg hn]
  · refine Or.inr ⟨i, m, hi, getElem?_concat_of_some hm, hty, htime, ?_⟩
    intro k hk hkty
    rcases List.mem_append.mp hk with hk | hk
    · exact hmin k hk hkty
    · rw [List.mem_singleton.mp hk] at hkty
      exact absurd hkty hn

/-- A notification of another type is not counted. -/
theorem Scanned.count_other (h : Scanned type ns s) (hn : n.type ≠ type) : s.num = typeCount type (ns ++ [n]) := by
  rw [typeCount_concat, if_neg hn]
  exact h.num

/-- One more notification of the type. -/
theorem Scanned.counted (h : Scanned type ns s) (hn : n.type = type) (hty : type ≠ .nil) :
    Scanned type (ns ++ [n]) (if n.createTime.toNat < s.time then
      { s with num := s.num + 1, time := n.createTime.toNat, earliest := some ns.length } else { s with num := s.num + 1 }) := by
  have hcount : s.num + 1 = typeCount type (ns ++ [n]) := by
    rw [typeCount_concat, if_pos hn, h.num]
  have hempty := h.empty_concat (n := n) (by rw [hn]; exact hty)
  by_cases hlt : n.createTime.toNat < s.time
  · rw [if_pos hlt]
    refine ⟨hcount, Or.inr ⟨ns.length, n, rfl, List.getElem?_concat_length, hn, rfl, ?_⟩, hempty⟩
    intro m hm hmty
    rw [UInt32.le_iff_toNat_le]
    rcases List.mem_append.mp hm with hm | hm
    · rcases h.earliest with ⟨-, hzero⟩ | ⟨i, k, -, -, -, htime, hmin⟩
      · exact absurd hmty (ne_of_typeCount_zero hzero hm)
      · have hle := UInt32.le_iff_toNat_le.mp (hmin m hm hmty)
        omega
    · rw [List.mem_singleton.mp hm]
  · rw [if_neg hlt]
    rcases h.earliest with ⟨htime, -⟩ | ⟨i, k, hi, hk, hkty, htime, hmin⟩
    · -- no time is as late as the one the scan starts with
      have hbound := n.createTime.toNat_lt
      omega
    · refine ⟨hcount, Or.inr ⟨i, k, hi, getElem?_concat_of_some hk, hkty, htime, ?_⟩, hempty⟩
      intro m hm hmty
      rcases List.mem_append.mp hm with hm | hm
      · exact hmin m hm hmty
      · rw [List.mem_singleton.mp hm, UInt32.le_iff_toNat_le]
        omega

/-- **The loop** finds the number, the oldest one and an empty slot of the whole list. -/
theorem Scanned.loop (hty : type ≠ .nil) (rest : List Notification) (h : Scanned type ns s) :
    Scanned type (ns ++ rest) (scanNotifications type ns.length rest s) := by
  induction rest generalizing ns s with
  | nil =>
      rw [List.append_nil]
      exact h
  | cons n rest ih =>
      have hsplit : ns ++ n :: rest = (ns ++ [n]) ++ rest := by rw [List.append_assoc, List.singleton_append]
      have hlen : ns.length + 1 = (ns ++ [n]).length := by rw [List.length_append, List.length_singleton]
      unfold scanNotifications
      rw [hsplit, hlen]
      apply ih
      by_cases hn : n.type = type
      · rw [if_pos hn]
        exact h.counted hn hty
      · rw [if_neg hn]
        by_cases hnil : n.type = .nil
        · rw [if_pos hnil]
          exact ⟨h.count_other hn, h.earliest_concat hn, Or.inr ⟨ns.length, n, rfl, List.getElem?_concat_length, hnil⟩⟩
        · rw [if_neg hnil]
          exact ⟨h.count_other hn, h.earliest_concat hn, h.empty_concat hnil⟩

/-- Nothing has been scanned. -/
theorem scanned_nil (type : NotificationType) : Scanned type [] ⟨2 ^ 63 - 1, 0, none, none⟩ :=
  ⟨rfl, Or.inl ⟨rfl, rfl⟩, Or.inl ⟨rfl, fun _ hn => absurd hn List.not_mem_nil⟩⟩

/-- **The three ways of `NewNotification`.** -/
theorem newNotification_cases (hty : type ≠ .nil) (hlimit : 0 < limitNum) (ns : List Notification) :
    (typeCount type ns < limitNum ∧ (∀ n ∈ ns, n.type ≠ .nil) ∧
        newNotification ns type limitNum = some (ns ++ [({} : Notification)], ns.length)) ∨
      (typeCount type ns < limitNum ∧ ∃ i n, ns[i]? = some n ∧ n.type = .nil ∧
        newNotification ns type limitNum = some (ns, i)) ∨
      (limitNum ≤ typeCount type ns ∧ ∃ i n, ns[i]? = some n ∧ n.type = type ∧
        (∀ m ∈ ns, m.type = type → n.createTime ≤ m.createTime) ∧
        newNotification ns type limitNum = some (ns.set i { type := type }, i)) := by
  have h : Scanned type ns _ := (scanned_nil type).loop hty ns
  unfold newNotification
  rw [if_pos ⟨hlimit, hty⟩]
  dsimp only
  rw [List.length_nil] at h
  generalize scanNotifications type 0 ns ⟨2 ^ 63 - 1, 0, none, none⟩ = s at h ⊢
  by_cases hlt : s.num < limitNum
  · rw [if_pos hlt]
    rw [h.num] at hlt
    rcases h.empty with ⟨hnone, hall⟩ | ⟨i, n, hi, hn, hnil⟩
    · rw [hnone]
      exact Or.inl ⟨hlt, hall, rfl⟩
    · rw [hi]
      exact Or.inr (Or.inl ⟨hlt, i, n, hn, hnil, rfl⟩)
  · rw [if_neg hlt]
    rw [h.num] at hlt
    rcases h.earliest with ⟨-, hzero⟩ | ⟨i, n, hi, hn, hnty, -, hmin⟩
    · omega
    · rw [hi]
      exact Or.inr (Or.inr ⟨Nat.le_of_not_lt hlt, i, n, hn, hnty, hmin, rfl⟩)

/-! ## One call -/

/-- Replacing a notification changes the counts of the two types only. -/
theorem typeCount_set_add (h : ns[idx]? = some n) (m : Notification) (type : NotificationType) :
    typeCount type (ns.set idx m) + (if n.type = type then 1 else 0) = typeCount type ns + if m.type = type then 1 else 0 := by
  obtain ⟨hidx, hget⟩ := List.getElem?_eq_some_iff.mp h
  have hsplit : ns = ns.take idx ++ n :: ns.drop (idx + 1) := by
    rw [← hget, List.getElem_cons_drop, List.take_append_drop]
  unfold typeCount
  rw [List.set_eq_take_append_cons_drop, if_pos hidx]
  nth_rewrite 3 [hsplit]
  simp only [List.countP_append, List.countP_cons, decide_eq_true_eq]
  omega

/-- A notification that is replaced by one of its type. -/
theorem typeCount_set (h : ns[idx]? = some n) (hty : m.type = n.type) (type : NotificationType) :
    typeCount type (ns.set idx m) = typeCount type ns := by
  have hadd := typeCount_set_add h m type
  rw [hty] at hadd
  omega

/-- **A call does what it should** exactly when it clears the oldest one, or appends one of the first type. -/
theorem slotSpec_iff (hty : type ≠ .nil) (hlimit : 0 < limitNum) (ns : List Notification) :
    SlotSpec ns type limitNum ↔ Slotted ns type limitNum := by
  rcases newNotification_cases hty hlimit ns with ⟨hlt, hall, hrun⟩ | ⟨hlt, i, n, hn, hnil, hrun⟩ |
    ⟨hle, i, n, hn, hnty, hmin, hrun⟩
  · constructor
    · rintro ⟨ns', idx, hrun', hslot⟩
      rw [hrun] at hrun'
      cases hrun'
      obtain ⟨n, hn, hnty⟩ := hslot.typed
      rw [List.getElem?_concat_length] at hn
      cases hn
      exact Or.inr ⟨hnty.symm, hall⟩
    · rintro (hle | ⟨rfl, -⟩)
      · omega
      · refine ⟨_, _, hrun, ⟨{}, List.getElem?_concat_length, rfl⟩, ?_, ?_, ?_⟩
        · intro i n hn _ _
          exact getElem?_concat_of_some hn
        · intro i n hn _ hchanged
          exact absurd (getElem?_concat_of_some hn) hchanged
        · rw [typeCount_concat, if_pos rfl]
          omega
  · constructor
    · rintro ⟨ns', idx, hrun', hslot⟩
      rw [hrun] at hrun'
      cases hrun'
      obtain ⟨m, hm, hmty⟩ := hslot.typed
      rw [hn] at hm
      cases hm
      exact absurd (hmty.symm.trans hnil) hty
    · rintro (hle | ⟨-, hall⟩)
      · omega
      · exact absurd hnil (hall n (List.mem_of_getElem? hn))
  · refine iff_of_true ⟨_, _, hrun, ⟨_, List.getElem?_set_self (List.getElem?_eq_some_iff.mp hn).1, rfl⟩, ?_, ?_, ?_⟩ (Or.inl hle)
    · intro j m hm _ hmty
      have hne : i ≠ j := by
        rintro rfl
        rw [hn] at hm
        cases hm
        exact hmty hnty
      rw [List.getElem?_set_ne hne]
      exact hm
    · intro j m hm _ hchanged
      have heq : j = i := by
        by_contra hne
        rw [List.getElem?_set_ne (Ne.symm hne)] at hchanged
        exact hchanged hm
      subst heq
      rw [hn] at hm
      cases hm
      exact ⟨hle, rfl, hmin⟩
    · rw [typeCount_set hn hnty.symm]
      exact Nat.le_max_right _ _

/-! ## Runs -/

/-- What a caller does with the list: it asks for a slot and writes into it, or removes a notification. -/
inductive Use
  | add (type : NotificationType) (uin id createTime : UInt32) (goodsList : List GoodsInfo)
  | remove (id : UInt32)

/-- The list after a use; the callers write every member of the slot but the type. -/
def Use.exec (limits : NotificationType → Nat) (ns : List Notification) : Use → Option (List Notification)
  | .add type uin id createTime goodsList => do
      let (ns, idx) ← newNotification ns type (limits type)
      let n ← ns[idx]?
      return ns.set idx { n with uin := uin, id := id, createTime := createTime, goodsList := goodsList }
  | .remove id => some (((findNotificationAndRemove ns id).map Prod.snd).getD ns)

/-- A use that has a result. -/
def UseStep (limits : NotificationType → Nat) (ns : List Notification) (use : Use) (ns' : List Notification) : Prop :=
  use.exec limits ns = some ns'

/-- No slot of type `NIL` is asked for. -/
def Use.Proper : Use → Prop
  | .add type _ _ _ _ => type ≠ .nil
  | .remove _ => True

/-- What a use should do. -/
def Use.Right (limits : NotificationType → Nat) (ns : List Notification) : Use → Prop
  | .add type _ _ _ _ => SlotSpec ns type (limits type)
  | .remove _ => True

/-- The condition for it. -/
def Use.Slotted (limits : NotificationType → Nat) (ns : List Notification) : Use → Prop
  | .add type _ _ _ _ => ExchangeGifts.Slotted ns type (limits type)
  | .remove _ => True

/-- Every type is at or below its limit. -/
def Kept (limits : NotificationType → Nat) (ns : List Notification) : Prop := ∀ type ≠ .nil, typeCount type ns ≤ limits type

/-- Every call of a run does what it should, and every state of the run keeps the limits if the first one does. -/
structure UsedRight (limits : NotificationType → Nat) (ns : List Notification) (uses : List Use) : Prop where
  slots : ∀ bs use ns', bs ++ [use] <+: uses → Run (UseStep limits) ns bs ns' → use.Right limits ns'
  kept : Kept limits ns → ∀ bs ns', bs <+: uses → Run (UseStep limits) ns bs ns' → Kept limits ns'

instance (limits : NotificationType → Nat) (ns : List Notification) (use : Use) : Decidable (use.Slotted limits ns) :=
  match use with
  | .add type _ _ _ _ => inferInstanceAs (Decidable (limits type ≤ typeCount type ns ∨ (type = .requestGift ∧
      ∀ n ∈ ns, n.type ≠ .nil)))
  | .remove _ => inferInstanceAs (Decidable True)

instance (use : Use) : Decidable use.Proper :=
  match use with
  | .add type _ _ _ _ => inferInstanceAs (Decidable (type ≠ .nil))
  | .remove _ => inferInstanceAs (Decidable True)

variable {use : Use} {uses : List Use}

/-- The condition is exact, by `slotSpec_iff`. -/
theorem Use.right_iff (hlimits : ∀ type ≠ .nil, 0 < limits type) (hproper : use.Proper) (ns : List Notification) :
    use.Right limits ns ↔ use.Slotted limits ns := by
  cases use with
  | add type uin id createTime goodsList => exact slotSpec_iff hproper (hlimits type hproper) ns
  | remove id => exact Iff.rfl

/-- A removal makes a slot `NIL`, and no other type gets more of them. -/
theorem Kept.remove (h : Kept limits ns) (id : UInt32) :
    Kept limits (((findNotificationAndRemove ns id).map Prod.snd).getD ns) := by
  cases hfind : findNotificationAndRemove ns id with
  | none => exact h
  | some r =>
      obtain ⟨n, ns'⟩ := r
      obtain ⟨idx, hidx, -, -, -, rfl⟩ := find_spec hfind
      intro type hty
      have hadd := typeCount_set_add (List.getElem?_eq_getElem hidx) { type := .nil } type
      rw [if_neg (Ne.symm hty)] at hadd
      have hle := h type hty
      show typeCount type (ns.set idx { type := .nil }) ≤ limits type
      omega

/-- **A use that meets the condition keeps the limits.** -/
theorem Kept.step (hlimits : ∀ type ≠ .nil, 0 < limits type) (h : Kept limits ns) (hproper : use.Proper)
    (hslot : use.Slotted limits ns) (hstep : UseStep limits ns use ns') : Kept limits ns' := by
  cases use with
  | remove id =>
      cases hstep
      exact h.remove id
  | add type uin id createTime goodsList =>
      obtain ⟨⟨ns₁, idx⟩, hnew, hstep⟩ := Option.bind_eq_some_iff.mp hstep
      obtain ⟨n, hn, hstep⟩ := Option.bind_eq_some_iff.mp hstep
      cases hstep
      intro other hother
      have hwrite := typeCount_set (m := { n with uin := uin, id := id, createTime := createTime, goodsList := goodsList }) hn
        rfl other
      rw [hwrite]
      rcases newNotification_cases hproper (hlimits type hproper) ns with ⟨hlt, -, hrun⟩ | ⟨hlt, i, m, hm, -, hrun⟩ |
        ⟨-, i, m, hm, hmty, -, hrun⟩
      · rw [hrun] at hnew
        cases hnew
        -- only a slot of the first type is appended, and there is room for it
        rcases hslot with hle | ⟨rfl, -⟩
        · omega
        · rw [typeCount_concat]
          by_cases heq : NotificationType.requestGift = other
          · subst heq
            rw [if_pos rfl]
            exact hlt
          · rw [if_neg heq]
            exact h other hother
      · rw [hrun] at hnew
        cases hnew
        exact h other hother
      · rw [hrun] at hnew
        cases hnew
        rw [typeCount_set hm hmty.symm]
        exact h other hother

/-- **The slots are typed and the limits are kept along a run** exactly when each call finds the type at its limit, or asks for
    the first type with no `NIL` slot in the list. -/
theorem usedRight_iff (hlimits : ∀ type ≠ .nil, 0 < limits type) (huses : ∀ use ∈ uses, use.Proper) (ns : List Notification) :
    UsedRight limits ns uses ↔
      ∀ bs use ns', bs ++ [use] <+: uses → Run (UseStep limits) ns bs ns' → use.Slotted limits ns' := by
  have hproper : ∀ bs use, bs ++ [use] <+: uses → use.Proper := by
    intro bs use hbs
    exact huses use (hbs.subset (List.mem_append_right _ (List.mem_singleton_self use)))
  constructor
  · intro h bs use ns' hbs hrun
    exact (Use.right_iff hlimits (hproper bs use hbs) ns').mp (h.slots bs use ns' hbs hrun)
  · intro h
    refine ⟨?_, ?_⟩
    · intro bs use ns' hbs hrun
      exact (Use.right_iff hlimits (hproper bs use hbs) ns').mpr (h bs use ns' hbs hrun)
    · intro hkept bs ns' hbs hrun
      induction hrun with
      | refl => exact hkept
      | @tail ns₁ ns₂ bs use hrun hstep ih =>
          have hbefore := ih ((List.prefix_append bs [use]).trans hbs)
          exact hbefore.step hlimits (hproper bs use hbs) (h bs use ns₁ hbs hrun) hstep

/-- Two requests, a third one at the limit, which clears the first, and the second is answered. -/
def requests : List Use := [.add .requestGift 1 0 7 [], .add .requestGift 2 1 8 [], .add .requestGift 3 2 9 [], .remove 1]

/-- The types and the limit hold in this run. -/
theorem usedRight_requests : UsedRight (fun _ => 2) [] requests := by
  refine (usedRight_iff (fun _ _ => by decide) (by decide) []).mpr ?_
  intro bs use ns' hbs hrun
  exact of_decide_eq_true (Run.of_meets (fun ns use => use.exec (fun _ => 2) ns)
    (fun ns use => decide (use.Slotted (fun _ => 2) ns)) (fun _ _ _ hstep => hstep) (by decide) hbs hrun)

/-- **A first gift** is announced by a notification of the wrong type. -/
theorem not_usedRight_gift : newNotification [] .receiveGift 15 = some ([{ type := .requestGift }], 0) ∧
    ¬ UsedRight (fun _ => 15) [] [.add .receiveGift 1 0 7 []] := by
  refine ⟨rfl, ?_⟩
  intro h
  obtain ⟨ns', idx, hrun, hslot⟩ := h.slots [] _ _ List.prefix_rfl Run.refl
  cases hrun
  obtain ⟨n, hn, hty⟩ := hslot.typed
  cases hn
  cases hty

end ExchangeGifts
end Snippets
