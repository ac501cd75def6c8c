import Mathlib.Data.List.Basic
import Mathlib.Data.List.Nodup

/-!
# `Lib.Links` — intrusive doubly linked lists

A table of cells indexed by `ι`, each with a `next` and a `prev` id, some of which form lists that start at a
head id kept elsewhere; `nil` is the id that ends a list. `Chain l nil nil h is` says that following `next`
from `h` visits exactly `is` and that `prev` undoes it: the head's `prev` and the last cell's `next` are `nil`.

The three edits every such structure is made of are functions on tables — `popFront`, `pushFront`, `unlink` —
with one rule each. Two lists in the same table do not disturb each other: every edit changes only cells of
the list it works on (`Chain.congr`).
-/

namespace Snippets
namespace Lib

/-- The link table: each cell's successor and predecessor. -/
structure Links (ι : Type*) where
  next : ι → ι
  prev : ι → ι

namespace Links

variable {ι : Type*} [DecidableEq ι] {nil : ι}

def setNext (l : Links ι) (i v : ι) : Links ι := { l with next := fun j => if j = i then v else l.next j }

def setPrev (l : Links ι) (i v : ι) : Links ι := { l with prev := fun j => if j = i then v else l.prev j }

/-- `p->next = v` guarded by a null test. -/
def setNext? (nil : ι) (l : Links ι) (i v : ι) : Links ι := if i = nil then l else l.setNext i v

/-- `p->prev = v` guarded by a null test. -/
def setPrev? (nil : ι) (l : Links ι) (i v : ι) : Links ι := if i = nil then l else l.setPrev i v

/-- Make `i` the new head before `h`. -/
def pushFront (nil : ι) (l : Links ι) (h i : ι) : Links ι :=
  setPrev? nil ((l.setPrev i nil).setNext i h) h i

/-- Detach the head `i`: its successor becomes the head. -/
def popFront (nil : ι) (l : Links ι) (i : ι) : Links ι := setPrev? nil l (l.next i) nil

/-- Close the gap around `i`. -/
def unlink (nil : ι) (l : Links ι) (i : ι) : Links ι :=
  setPrev? nil (setNext? nil l (l.prev i) (l.next i)) (l.next i) (l.prev i)

/-- Following `next` from `h` visits `is` and ends in `nil`; `prev` leads back, to `p` from the first. -/
def Chain (l : Links ι) (nil : ι) : ι → ι → List ι → Prop
  | _, h, [] => h = nil
  | p, h, i :: is => h = i ∧ i ≠ nil ∧ l.prev i = p ∧ Chain l nil i (l.next i) is

variable {l l' : Links ι} {p h i : ι} {is : List ι}

omit [DecidableEq ι] in
/-- A chain depends only on the links of its own cells. -/
theorem Chain.congr (hc : Chain l nil p h is)
    (hl : ∀ i ∈ is, l'.next i = l.next i ∧ l'.prev i = l.prev i) : Chain l' nil p h is := by
  induction is generalizing p h with
  | nil => exact hc
  | cons i is ih =>
      obtain ⟨hh, hn, hp, hr⟩ := hc
      obtain ⟨h₁, h₂⟩ := hl i List.mem_cons_self
      refine ⟨hh, hn, h₂.trans hp, ?_⟩
      rw [h₁]
      exact ih hr fun j hj => hl j (List.mem_cons_of_mem _ hj)

omit [DecidableEq ι] in
theorem Chain.ne_nil (hc : Chain l nil p h is) : ∀ i ∈ is, i ≠ nil := by
  induction is generalizing p h with
  | nil => simp
  | cons j is ih =>
      intro i hi
      rcases List.mem_cons.mp hi with rfl | hi
      · exact hc.2.1
      · exact ih hc.2.2.2 i hi

omit [DecidableEq ι] in
/-- The head is `nil` exactly on the empty chain. -/
theorem Chain.head_eq_nil_iff (hc : Chain l nil p h is) : h = nil ↔ is = [] := by
  cases is with
  | nil => exact ⟨fun _ => rfl, fun _ => hc⟩
  | cons i is =>
      obtain ⟨rfl, hn, -⟩ := hc
      simp [hn]

omit [DecidableEq ι] in
/-- `next` stays inside the chain until it ends. -/
theorem Chain.next_mem (hc : Chain l nil p h is) (hi : i ∈ is) : l.next i = nil ∨ l.next i ∈ is := by
  induction is generalizing p h with
  | nil => simp at hi
  | cons j is ih =>
      obtain ⟨rfl, -, -, hr⟩ := hc
      rcases List.mem_cons.mp hi with rfl | hi
      · cases is with
        | nil => exact Or.inl hr
        | cons k is => right; rw [hr.1]; simp
      · exact (ih hr hi).imp_right (List.mem_cons_of_mem _)

omit [DecidableEq ι] in
/-- `prev` stays inside the chain except at the head. -/
theorem Chain.prev_mem (hc : Chain l nil p h is) (hi : i ∈ is) : (i = h ∧ l.prev i = p) ∨ l.prev i ∈ is := by
  induction is generalizing p h with
  | nil => simp at hi
  | cons j is ih =>
      obtain ⟨rfl, -, hp, hr⟩ := hc
      rcases List.mem_cons.mp hi with rfl | hi
      · exact Or.inl ⟨rfl, hp⟩
      · right
        rcases ih hr hi with ⟨-, hpi⟩ | hm
        · rw [hpi]; exact List.mem_cons_self
        · exact List.mem_cons_of_mem _ hm

omit [DecidableEq ι] in
/-- No cell is its own predecessor. -/
theorem Chain.prev_ne_self (hc : Chain l nil p h is) (hnd : is.Nodup) (hp : p ∉ is) (hi : i ∈ is) :
    l.prev i ≠ i := by
  induction is generalizing p h with
  | nil => simp at hi
  | cons j is ih =>
      obtain ⟨rfl, -, hpj, hr⟩ := hc
      obtain ⟨hjm, hnd'⟩ := List.nodup_cons.mp hnd
      rcases List.mem_cons.mp hi with rfl | hi
      · rw [hpj]
        exact fun e => hp (e ▸ List.mem_cons_self)
      · exact ih hr hnd' hjm hi

omit [DecidableEq ι] in
/-- The head's predecessor is the one given. -/
theorem Chain.prev_head (hc : Chain l nil p h is) (e : h = i) (hi : i ∈ is) : l.prev i = p := by
  cases is with
  | nil => simp at hi
  | cons j is =>
      obtain ⟨rfl, -, hpj, -⟩ := hc
      rw [← e]
      exact hpj

/-! ## `pushFront` -/

theorem pushFront_prev_self (hh : i ≠ h) : (pushFront nil l h i).prev i = nil := by
  unfold pushFront setPrev?
  split <;> simp [setPrev, setNext, hh]

theorem pushFront_next_self : (pushFront nil l h i).next i = h := by
  unfold pushFront setPrev?
  split <;> simp [setPrev, setNext]

theorem pushFront_next_ne {j : ι} (hj : j ≠ i) : (pushFront nil l h i).next j = l.next j := by
  unfold pushFront setPrev?
  split <;> simp [setPrev, setNext, hj]

theorem pushFront_prev_ne {j : ι} (hj : j ≠ i) (hh : j ≠ h) : (pushFront nil l h i).prev j = l.prev j := by
  unfold pushFront setPrev?
  split <;> simp [setPrev, setNext, hj, hh]

theorem pushFront_prev_head (hh : h ≠ nil) : (pushFront nil l h i).prev h = i := by
  unfold pushFront setPrev?
  rw [if_neg hh]
  simp [setPrev]

/-- Pushing before a head whose `prev` is set first, and reset in between. -/
theorem pushFront_of_stores {v : ι} (hh : h ≠ nil) (hne : h ≠ i) :
    (((l.setPrev h v).setPrev h i).setPrev i nil).setNext i h = pushFront nil l h i := by
  unfold pushFront setPrev? setPrev setNext
  rw [if_neg hh]
  congr 1
  funext j
  show (if j = i then nil else if j = h then i else if j = h then v else l.prev j) =
    if j = h then i else if j = i then nil else l.prev j
  by_cases hj : j = i
  · rw [hj, if_pos rfl, if_neg (Ne.symm hne), if_pos rfl]
  · rw [if_neg hj, if_neg hj]
    by_cases hjh : j = h
    · rw [if_pos hjh, if_pos hjh]
    · rw [if_neg hjh, if_neg hjh, if_neg hjh]

/-- Pushing a cell outside the chain makes it the first. -/
theorem Chain.pushFront (hc : Chain l nil nil h is) (hnd : is.Nodup) (hi : i ≠ nil) (hmem : i ∉ is) :
    Chain (pushFront nil l h i) nil nil i (i :: is) := by
  cases is with
  | nil =>
      obtain rfl : h = nil := hc
      exact ⟨rfl, hi, pushFront_prev_self hi, pushFront_next_self⟩
  | cons j is =>
      obtain ⟨rfl, hj, hp, hr⟩ := hc
      have hij : i ≠ h := fun e => hmem (e ▸ List.mem_cons_self)
      obtain ⟨hjn, -⟩ := List.nodup_cons.mp hnd
      refine ⟨rfl, hi, pushFront_prev_self hij, pushFront_next_self, hj, pushFront_prev_head hj, ?_⟩
      rw [pushFront_next_ne (Ne.symm hij)]
      refine hr.congr fun k hk => ?_
      have hki : k ≠ i := fun e => hmem (e ▸ List.mem_cons_of_mem _ hk)
      have hkh : k ≠ h := fun e => hjn (e ▸ hk)
      exact ⟨pushFront_next_ne hki, pushFront_prev_ne hki hkh⟩

/-! ## `popFront` -/

theorem popFront_next (j : ι) : (popFront nil l i).next j = l.next j := by
  unfold popFront setPrev?
  split <;> rfl

theorem popFront_prev_ne {j : ι} (hj : j ≠ l.next i) : (popFront nil l i).prev j = l.prev j := by
  unfold popFront setPrev?
  split <;> simp [setPrev, hj]

/-- Popping leaves the rest of the chain, headed by the old head's successor. -/
theorem Chain.popFront (hc : Chain l nil nil h (i :: is)) (hnd : is.Nodup) :
    Chain (popFront nil l i) nil nil (l.next i) is := by
  obtain ⟨-, -, -, hr⟩ := hc
  cases is with
  | nil => exact hr
  | cons j is =>
      obtain ⟨hj, hjn, hp, hr⟩ := hr
      obtain ⟨hjm, -⟩ := List.nodup_cons.mp hnd
      refine ⟨hj, hjn, ?_, ?_⟩
      · unfold Links.popFront setPrev?
        rw [hj, if_neg hjn]
        simp [setPrev]
      · rw [popFront_next]
        refine hr.congr fun k hk => ⟨popFront_next k, popFront_prev_ne ?_⟩
        rw [hj]
        exact fun e => hjm (e ▸ hk)

/-! ## `unlink` -/

theorem unlink_next_ne {j : ι} (hj : j ≠ l.prev i) : (unlink nil l i).next j = l.next j := by
  unfold unlink setPrev? setNext?
  split <;> split <;> simp [setPrev, setNext, hj]

theorem unlink_prev_ne {j : ι} (hj : j ≠ l.next i) : (unlink nil l i).prev j = l.prev j := by
  unfold unlink setPrev? setNext?
  split <;> split <;> simp [setPrev, setNext, hj]

theorem unlink_next_prev (hp : l.prev i ≠ nil) : (unlink nil l i).next (l.prev i) = l.next i := by
  unfold unlink setPrev? setNext?
  rw [if_neg hp]
  split <;> simp [setPrev, setNext]

theorem unlink_prev_next (hn : l.next i ≠ nil) : (unlink nil l i).prev (l.next i) = l.prev i := by
  unfold unlink setPrev? setNext?
  rw [if_neg hn]
  simp [setPrev]

/-- **Unlinking any cell of a chain leaves the others in order.** The head moves only when the head itself
    is unlinked; the predecessor `p` of the chain must not be one of its cells. -/
theorem Chain.unlink (hc : Chain l nil p h is) (hnd : is.Nodup) (hp : p ∉ is) (hi : i ∈ is) :
    Chain (unlink nil l i) nil p (if h = i then l.next i else h) (is.erase i) := by
  induction is generalizing p h with
  | nil => simp at hi
  | cons j is ih =>
      obtain ⟨rfl, hjn, hpj, hr⟩ := hc
      obtain ⟨hjm, hnd'⟩ := List.nodup_cons.mp hnd
      by_cases hij : h = i
      · -- the first cell goes: its successor takes over `p`
        subst hij
        rw [if_pos rfl, List.erase_cons_head]
        cases is with
        | nil => exact hr
        | cons k is =>
            obtain ⟨hk, hkn, hpk, hrk⟩ := hr
            obtain ⟨hkm, -⟩ := List.nodup_cons.mp hnd'
            have hcell : ∀ c ∈ k :: is, c ≠ l.prev h := by
              intro c hc e
              rw [hpj] at e
              exact hp (e ▸ List.mem_cons_of_mem _ hc)
            refine ⟨hk, hkn, ?_, ?_⟩
            · rw [← hk, unlink_prev_next (by rw [hk]; exact hkn), hpj]
            · rw [unlink_next_ne (hcell k List.mem_cons_self)]
              refine hrk.congr fun c hc => ⟨unlink_next_ne (hcell c (List.mem_cons_of_mem _ hc)), ?_⟩
              refine unlink_prev_ne ?_
              rw [hk]
              exact fun e => hkm (e ▸ hc)
      · -- a later cell goes: only the tail of the chain changes
        have hi' : i ∈ is := by
          rcases List.mem_cons.mp hi with e | hi'
          · exact absurd e.symm hij
          · exact hi'
        have htail := ih hr hnd' hjm hi'
        rw [if_neg hij, List.erase_cons_tail (by simpa using hij)]
        have hnext_ne : h ≠ l.next i := by
          rcases hr.next_mem hi' with e | hm
          · rw [e]; exact hjn
          · exact fun e => hjm (e ▸ hm)
        have hnext : (Links.unlink nil l i).next h = if l.next h = i then l.next i else l.next h := by
          by_cases hfirst : l.next h = i
          · have hpi : l.prev i = h := by
              cases is with
              | nil => simp at hi'
              | cons k is => rw [← hfirst, hr.1]; exact hr.2.2.1
            rw [if_pos hfirst, ← hpi, unlink_next_prev (by rw [hpi]; exact hjn)]
          · rw [if_neg hfirst, unlink_next_ne]
            rcases hr.prev_mem hi' with ⟨e, -⟩ | hm
            · exact absurd e.symm hfirst
            · exact fun e => hjm (e ▸ hm)
        refine ⟨rfl, hjn, ?_, ?_⟩
        · rw [unlink_prev_ne hnext_ne, hpj]
        · rw [hnext]
          exact htail

/-! ## Both directions -/

/-- The same table read from the other end. -/
def flip (l : Links ι) : Links ι := ⟨l.prev, l.next⟩

omit [DecidableEq ι] in
/-- A chain behind a chain that is already read backwards from `p`. -/
theorem Chain.flip_append {js : List ι} (hc : Chain l nil p h is) (hb : Chain l.flip nil h p js) :
    Chain l.flip nil nil (is.getLastD p) (is.reverse ++ js) := by
  induction is generalizing p h js with
  | nil =>
      obtain rfl : h = nil := hc
      exact hb
  | cons i is ih =>
      obtain ⟨rfl, hi, hp, hr⟩ := hc
      have hb' : Chain l.flip nil (l.next h) h (h :: js) := by
        refine ⟨rfl, hi, rfl, ?_⟩
        rw [← hp] at hb
        exact hb
      have hrest := ih hr hb'
      rw [List.getLastD_cons, List.reverse_cons, List.append_assoc]
      exact hrest

omit [DecidableEq ι] in
/-- **A chain is also a chain from its last cell back.** -/
theorem Chain.flip (hc : Chain l nil nil h is) : Chain l.flip nil nil (is.getLastD nil) is.reverse := by
  have hb : Chain l.flip nil h nil [] := rfl
  have happ := hc.flip_append hb
  rw [List.append_nil] at happ
  exact happ

omit [DecidableEq ι] in
/-- The chain of a head is the one `next` leads along. -/
theorem Chain.head_eq (hc : Chain l nil p h is) : h = is.headD nil := by
  cases is with
  | nil => exact hc
  | cons i is => exact hc.1

/-- Closing a gap looks the same from both ends. -/
theorem flip_unlink : (unlink nil l i).flip = unlink nil l.flip i := by
  unfold unlink setPrev? setNext? Links.flip
  by_cases hn : l.next i = nil <;> by_cases hp : l.prev i = nil <;> simp [hn, hp, setNext, setPrev]

omit [DecidableEq ι] in
/-- Only the head has no predecessor. -/
theorem Chain.prev_eq_nil_iff (hc : Chain l nil nil h is) (hi : i ∈ is) : l.prev i = nil ↔ h = i := by
  constructor
  · intro hnil
    rcases hc.prev_mem hi with ⟨e, -⟩ | hm
    · exact e.symm
    · exact absurd hnil (hc.ne_nil _ hm)
  · intro e
    exact hc.prev_head e hi

/-! ## Tables that look alike -/

/-- On the cells `V` two tables have the same links, which stay among the cells. -/
structure Alike (nil : ι) (V : ι → Prop) (l l' : Links ι) : Prop where
  next : ∀ i, V i → l'.next i = l.next i
  prev : ∀ i, V i → l'.prev i = l.prev i
  next_mem : ∀ i, V i → l.next i = nil ∨ V (l.next i)
  prev_mem : ∀ i, V i → l.prev i = nil ∨ V (l.prev i)

omit [DecidableEq ι] in
/-- A chain determines the links of its cells. -/
theorem Chain.links_eq (hc : Chain l nil p h is) (hc' : Chain l' nil p h is) :
    ∀ i ∈ is, l'.next i = l.next i ∧ l'.prev i = l.prev i := by
  induction is generalizing p h with
  | nil => simp
  | cons j is ih =>
      obtain ⟨rfl, -, hp, hr⟩ := hc
      obtain ⟨-, -, hp', hr'⟩ := hc'
      have hnext : l'.next h = l.next h := hr'.head_eq.trans hr.head_eq.symm
      intro i hi
      rcases List.mem_cons.mp hi with rfl | hi
      · exact ⟨hnext, hp'.trans hp.symm⟩
      · rw [hnext] at hr'
        exact ih hr hr' i hi

namespace Alike

variable {V : ι → Prop} {v : ι}

theorem setNext (ha : Alike nil V l l') (hv : v = nil ∨ V v) : Alike nil V (l.setNext i v) (l'.setNext i v) := by
  refine ⟨fun j hj => ?_, ha.prev, fun j hj => ?_, ha.prev_mem⟩
  · show (if j = i then v else l'.next j) = if j = i then v else l.next j
    rw [ha.next j hj]
  · show (if j = i then v else l.next j) = nil ∨ V (if j = i then v else l.next j)
    split
    · exact hv
    · exact ha.next_mem j hj

theorem setPrev (ha : Alike nil V l l') (hv : v = nil ∨ V v) : Alike nil V (l.setPrev i v) (l'.setPrev i v) := by
  refine ⟨ha.next, fun j hj => ?_, ha.next_mem, fun j hj => ?_⟩
  · show (if j = i then v else l'.prev j) = if j = i then v else l.prev j
    rw [ha.prev j hj]
  · show (if j = i then v else l.prev j) = nil ∨ V (if j = i then v else l.prev j)
    split
    · exact hv
    · exact ha.prev_mem j hj

theorem setNext? (ha : Alike nil V l l') (hv : v = nil ∨ V v) :
    Alike nil V (Links.setNext? nil l i v) (Links.setNext? nil l' i v) := by
  unfold Links.setNext?
  split
  · exact ha
  · exact ha.setNext hv

theorem setPrev? (ha : Alike nil V l l') (hv : v = nil ∨ V v) :
    Alike nil V (Links.setPrev? nil l i v) (Links.setPrev? nil l' i v) := by
  unfold Links.setPrev?
  split
  · exact ha
  · exact ha.setPrev hv

theorem pushFront (ha : Alike nil V l l') (hi : V i) (hh : h = nil ∨ V h) :
    Alike nil V (Links.pushFront nil l h i) (Links.pushFront nil l' h i) :=
  ((ha.setPrev (Or.inl rfl)).setNext hh).setPrev? (Or.inr hi)

theorem popFront (ha : Alike nil V l l') (hi : V i) : Alike nil V (Links.popFront nil l i) (Links.popFront nil l' i) := by
  unfold Links.popFront
  rw [ha.next i hi]
  exact ha.setPrev? (Or.inl rfl)

theorem unlink (ha : Alike nil V l l') (hi : V i) : Alike nil V (Links.unlink nil l i) (Links.unlink nil l' i) := by
  unfold Links.unlink
  rw [ha.next i hi, ha.prev i hi]
  exact (ha.setNext? (ha.next_mem i hi)).setPrev? (ha.prev_mem i hi)

end Alike

end Links

end Lib
end Snippets
