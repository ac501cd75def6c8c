import Snippets.SizeClass.Filling

/-!
# `SizeClass.Soundness` — `Deallocate`, and runs of the allocator

A block is given back to its page (`Serving.keep`), and the page with the last of its blocks (`Serving.drop`). So every call
that is `Spared` keeps the invariant, and the promises hold in every run of such calls (`sound_of_spared`). The fourth block of
4096 bytes is the first one of the next page (`last_block_outside`).
-/

namespace Snippets

open Lib

namespace SizeClass

variable {s t : Client} {call : Call} {pairs : List (Nat × Nat)} {spare : List Nat} {m m' : Mem} {p : Int}
  {live : List Block} {c P Q k sz : Nat} {a : PageAllocator} {b : Block}

/-! ## Blocks that are given back

`Page::Deallocate` writes the link of the block and the page's own record. The link belongs in the block, but the
source writes it at another address (see `Spared`); as long as that address is in the heap, no record of a page
or sentinel is hurt. -/

/-- `Page::Deallocate`, when no assert fails. -/
theorem pageDeallocate_run {ref : Nat} (pageStart offset : Int) (hstatus : (page m p).status = inUse)
    (href : (page m p).ref = ref + 1) (hlt : ref < 2 ^ 31) :
    pageDeallocate m p pageStart offset =
      some (setFreeList ((setRef m p ref).writeInt32 (pageStart + offset) (page m p).freeList) p offset) := by
  have hpos : 0 < (page m p).ref := by omega
  have hpred : (page m p).ref - 1 = ref := by omega
  have hpage : (page (setRef m p ref) p).freeList = (page m p).freeList := by
    rw [page_setRef (by omega)]
  unfold pageDeallocate
  simp only [guard, hstatus, hpos, hpred, hpage, if_true, Option.bind_eq_bind, Option.bind_some, Option.pure_def]

/-- The page of a block loses a reference. -/
theorem Serving.pageDeallocate_eq (h : Serving s pairs spare) (hb : b ∈ s.live) (hP : b.offset / kPageSize = P)
    (hk : Home s.mem (s.alloc.pages.address P) s.live c P k) (hrange : P < 33) :
    ∃ ref m', (page s.mem (s.alloc.pages.address P)).ref = ref + 1 ∧
      pageDeallocate s.mem (s.alloc.pages.address P) (s.alloc.heap.start + (P * kPageSize : Nat)) b.offset = some m' ∧
      page m' (s.alloc.pages.address P) = { page s.mem (s.alloc.pages.address P) with ref := ref, freeList := b.offset } ∧
      ∀ x < s.alloc.pages.start + 924, (x < s.alloc.pages.address P ∨ s.alloc.pages.address P + 28 ≤ x) → m' x = s.mem x := by
  have hin : inPage P b = true := decide_eq_true hP
  have hpos : 0 < s.live.countP (inPage P) := List.countP_pos_iff.mpr ⟨b, hb, hin⟩
  have href := hk.ref
  have href_le := hk.ref_le
  have hcount := hk.count_lt
  have hheap := h.region.heap
  have haP : s.alloc.pages.address P = s.alloc.pages.start + 28 * P := rfl
  -- the page counts this block at least, so the assert `ref > 0` holds
  obtain ⟨ref, hsucc⟩ : ∃ ref, (page s.mem (s.alloc.pages.address P)).ref = ref + 1 := ⟨_, (Nat.succ_pred_eq_of_pos (by omega)).symm⟩
  have hlt : ref < 2 ^ 31 := by omega
  have hoffset : InRange b.offset := by
    unfold kPageSize at hP
    constructor <;> omega
  have hrun := pageDeallocate_run (s.alloc.heap.start + (P * kPageSize : Nat)) b.offset hk.status hsucc hlt
  refine ⟨ref, _, hsucc, hrun, ?_, ?_⟩
  · -- the link of the block is in the heap
    have hout : Outside (setRef s.mem (s.alloc.pages.address P) ref) ((setRef s.mem (s.alloc.pages.address P) ref).writeInt32
        (s.alloc.heap.start + (P * kPageSize : Nat) + b.offset) (page s.mem (s.alloc.pages.address P)).freeList) _ _ :=
      outside_writeInt32
    have hap : s.alloc.pages.address P + 28 ≤ s.alloc.heap.start + (P * kPageSize : Nat) + b.offset := by
      unfold kPageSize at hP ⊢
      omega
    rw [page_setFreeList hoffset, hout.page (Or.inl hap), page_setRef (by omega)]
  -- everything in front of the heap but the page's record is as before
  · intro x hx hxP
    have hfar : x < s.alloc.heap.start + (P * kPageSize : Nat) + b.offset := by
      unfold kPageSize at hP ⊢
      omega
    rw [outside_setFreeList x hxP, Mem.writeInt32_outside (Or.inl hfar), outside_setRef x hxP]

/-- A page that one of its blocks is given back to counts one less, and its other blocks are where they were. -/
theorem Home.erase {ref : Nat} (hk : Home m p live c P k) (hb : b ∈ live) (hin : inPage P b = true)
    (href : (page m p).ref = ref + 1) (hpage : page m' p = { page m p with ref := ref, freeList := b.offset }) :
    Home m' p (live.erase b) c P k := by
  have hcount : live.countP (inPage P) = (live.erase b).countP (inPage P) + 1 := by
    rw [(List.perm_cons_erase hb).countP_eq, List.countP_cons_of_pos hin]
  have hle := hk.ref_le
  have heq := hk.ref
  refine ⟨?_, ?_, ?_, ?_, ?_, ?_, ?_, ?_, hk.room, ?_⟩
  · rw [hpage]
    exact hk.status
  · rw [hpage]
    exact hk.powOfTwoSize
  · rw [hpage]
    exact hk.id
  · rw [hpage]
    exact hk.next
  · rw [hpage]
    exact hk.prev
  · rw [hpage]
    exact hk.free
  · rw [hpage]
    show ref = (live.erase b).countP (inPage P)
    omega
  · rw [hpage]
    show ref ≤ k
    omega
  · intro d hd
    exact hk.offsets d (List.mem_of_mem_erase hd)

/-- A page that the block is not in. -/
theorem Home.erase_other (hk : Home m p live c Q k) (hnot : ¬ inPage Q b = true) : Home m p (live.erase b) c Q k := by
  have hcount : (live.erase b).countP (inPage Q) = live.countP (inPage Q) := by
    by_cases hb : b ∈ live
    · rw [(List.perm_cons_erase hb).countP_eq, List.countP_cons_of_neg hnot]
    · rw [List.erase_of_not_mem hb]
  refine ⟨hk.status, hk.powOfTwoSize, hk.id, hk.next, hk.prev, hk.free, ?_, hk.ref_le, hk.room, ?_⟩
  · rw [hcount]
    exact hk.ref
  · intro d hd
    exact hk.offsets d (List.mem_of_mem_erase hd)

/-- **A block is given back** to a page with other live blocks. -/
theorem Serving.keep {ref : Nat} (h : Serving s pairs spare) (hb : b ∈ s.live) (hP : (c, P) ∈ pairs) (hpage : b.offset / kPageSize = P)
    (href : (page s.mem (s.alloc.pages.address P)).ref = ref + 1)
    (hnew : page m' (s.alloc.pages.address P) = { page s.mem (s.alloc.pages.address P) with ref := ref, freeList := b.offset })
    (hframe : ∀ x < s.alloc.pages.start + 924, (x < s.alloc.pages.address P ∨ s.alloc.pages.address P + 28 ≤ x) →
      m' x = s.mem x) :
    Serving { s with mem := m', live := s.live.erase b } pairs spare := by
  have hrange := h.page_range hP
  have haP : s.alloc.pages.address P = s.alloc.pages.start + 28 * P := rfl
  have htouched : ∀ d, Touched s.alloc.pages s.mem m' d P := fun _ x _ hx hxP _ => hframe x hx hxP
  have hsentinel : ∀ d < 11, ∀ target, Sentinel s.alloc.pages s.mem d target → Sentinel s.alloc.pages m' d target := by
    intro d hd target hs
    exact (htouched (d + 1)).sentinel hrange.1 hd (by omega) hs
  refine ⟨h.region, h.next, h.pool, ?_, h.spread, h.keys, h.class_lt, ?_, ?_, ?_, ?_, ?_⟩
  -- the links of the pages given back
  · refine pageLinks_congr h.thread rfl ?_
    intro i hi x hlo hhi
    have hi' := h.pool.mem_free hi
    exact hframe x (by omega) (by omega)
  · intro d hd hnot
    exact hsentinel d hd _ (h.idle d hd hnot)
  · intro d Q hQ
    exact hsentinel d (h.class_range hQ) _ (h.linked d Q hQ)
  · intro d Q hQ
    obtain ⟨k, hk⟩ := h.home d Q hQ
    -- the page of the block, and a page that knows nothing of it
    by_cases hPQ : Q = P
    · subst hPQ
      exact ⟨k, hk.erase hb (decide_eq_true hpage) href hnew⟩
    · have hother := (htouched c).page (h.class_range hP) (h.page_range hQ) hPQ
      have hnot : ¬ inPage Q b = true := by
        intro hin
        have heq : b.offset / kPageSize = Q := of_decide_eq_true hin
        omega
      exact ⟨k, (hk.congr hother).erase_other hnot⟩
  · intro d hd
    exact h.blocks d (List.mem_of_mem_erase hd)
  · exact h.distinct.sublist (List.erase_sublist.map _)

/-- The last block of a page is given back, and the page. -/
theorem Serving.drop (h : Serving s pairs spare) (hb : b ∈ s.live) (hP : (c, P) ∈ pairs) (hpage : b.offset / kPageSize = P)
    (href : (page s.mem (s.alloc.pages.address P)).ref = 1) (hfar : ∀ i ∈ spare, i + 4 ≤ P ∨ P + 4 ≤ i)
    (hlink : m'.readInt32 (s.alloc.pages.start + P) = s.alloc.pages.freeList)
    (hsentinel : Sentinel s.alloc.pages m' c (2 * c + 1 : Nat))
    (hframe : ∀ x < s.alloc.pages.start + 924, (x < s.alloc.pages.start + P ∨ s.alloc.pages.start + P + 4 ≤ x) →
      (x < s.alloc.pages.address P ∨ s.alloc.pages.address P + 28 ≤ x) →
      (x < s.alloc.pages.address (2 * c + 1 : Nat) + 12 ∨ s.alloc.pages.address (2 * c + 1 : Nat) + 20 ≤ x) → m' x = s.mem x) :
    Serving ⟨{ s.alloc with pages := { s.alloc.pages with freeList := P } }, m', s.live.erase b⟩ (pairs.erase (c, P))
      (P :: spare) := by
  have hrange := h.page_range hP
  have hc := h.class_range hP
  have hperm : pairs.Perm ((c, P) :: pairs.erase (c, P)) := List.perm_cons_erase hP
  have hkeys : (c :: (pairs.erase (c, P)).map Prod.fst).Nodup := (hperm.map Prod.fst).nodup_iff.mp h.keys
  have hpages : (P :: (pairs.erase (c, P)).map Prod.snd).Nodup := (hperm.map Prod.snd).nodup_iff.mp h.pool.nodup_live
  have haP : s.alloc.pages.address P = s.alloc.pages.start + 28 * P := rfl
  have hac : s.alloc.pages.address (2 * c + 1 : Nat) = s.alloc.pages.start + 28 * (2 * c + 1 : Nat) := rfl
  have htouched : Touched s.alloc.pages s.mem m' c P := fun x hlo hhi hxP hxc => hframe x hhi (by omega) hxP hxc
  have hne : ∀ d, d ∈ (pairs.erase (c, P)).map Prod.fst → d ≠ c := by
    rintro d hd rfl
    exact (List.nodup_cons.mp hkeys).1 hd
  -- no block of the page is live any more
  obtain ⟨k, hk⟩ := h.home c P hP
  have hin : inPage P b = true := decide_eq_true hpage
  have hnone : (s.live.erase b).countP (inPage P) = 0 := by
    have hcount := hk.ref
    rw [href, (List.perm_cons_erase hb).countP_eq, List.countP_cons_of_pos hin] at hcount
    omega
  refine ⟨⟨h.region.lists, h.region.size, h.region.heap, h.region.max, h.region.range, h.region.pages⟩, h.next,
    h.pool.give_of_perm (hperm.map Prod.snd), ?_, ?_, (List.nodup_cons.mp hkeys).2, ?_, ?_, ?_, ?_, ?_, ?_⟩
  -- the page is the new head, and its link is the old head
  · refine ⟨rfl, natCast_ne_invalid P, ?_⟩
    show Thread _ _ (m'.readInt32 (s.alloc.pages.start + P)) _
    rw [hlink]
    refine pageLinks_congr h.thread rfl ?_
    intro i hi x hlo hhi
    have hi' := h.pool.mem_free hi
    have hap := hfar i hi
    exact hframe x (by omega) (by omega) (by omega) (by omega)
  -- its link does not overlap the links of the other pages given back
  · refine List.pairwise_cons.mpr ⟨?_, h.spread⟩
    intro i hi
    have hap := hfar i hi
    omega
  · intro d hd
    exact h.class_lt d (List.map_subset _ List.erase_subset hd)
  · intro d hd hnot
    -- the class has no page now, and its sentinel points to itself again
    by_cases hdc : d = c
    · subst hdc
      exact hsentinel.congr rfl
    · refine (htouched.sentinel hrange.1 hd hdc (h.idle d hd ?_)).congr rfl
      intro hmem
      rcases List.mem_cons.mp ((hperm.map Prod.fst).mem_iff.mp hmem) with heq | hmem
      · exact hdc heq
      · exact hnot hmem
  · intro d Q hQ
    have hQ' := List.mem_of_mem_erase hQ
    exact (htouched.sentinel hrange.1 (h.class_range hQ') (hne d (List.mem_map_of_mem hQ)) (h.linked d Q hQ')).congr rfl
  · intro d Q hQ
    have hQ' := List.mem_of_mem_erase hQ
    have hPQ : Q ≠ P := by
      rintro rfl
      exact (List.nodup_cons.mp hpages).1 (List.mem_map_of_mem (f := Prod.snd) hQ)
    obtain ⟨l, hl⟩ := h.home d Q hQ'
    have hother := htouched.page hc (h.page_range hQ') hPQ
    have hnot : ¬ inPage Q b = true := by
      intro hin
      have heq : b.offset / kPageSize = Q := of_decide_eq_true hin
      omega
    exact ⟨l, (hl.congr hother).erase_other hnot⟩
  · intro d hd
    -- a block of another page has its page still, and there is no other block of this one
    obtain ⟨hle, Q, hQ, hQpage⟩ := h.blocks d (List.mem_of_mem_erase hd)
    refine ⟨hle, Q, ?_, hQpage⟩
    rcases List.mem_cons.mp (hperm.mem_iff.mp hQ) with heq | hQ
    · obtain ⟨-, rfl⟩ := Prod.mk.inj heq
      exact absurd (decide_eq_true hQpage) (List.countP_eq_zero.mp hnone d hd)
    · exact hQ
  · exact h.distinct.sublist (List.erase_sublist.map _)

/-! ## `Deallocate`

The page is found from the offset and the class from the page. Its last block sends the page back to
`PageAllocator`, any other leaves it in the list of its class. -/

/-- `FreeList::Deallocate`, when the page has other blocks. -/
theorem freeListDeallocate_keep {heap : PageHeap} {offset pageStart : Int} (hfind : a.findPage (offset / kPageSize) = some p)
    (hid : (page m p).id = offset / kPageSize) (hget : heap.get (page m p).id = some pageStart)
    (hrun : pageDeallocate m p pageStart offset = some m') (href : (page m' p).ref ≠ 0) :
    FreeList.deallocate a heap m offset = some (a, m') := by
  rw [hid] at hget
  unfold FreeList.deallocate
  simp only [guard, hfind, hid, hget, hrun, href, if_true, if_false, Option.bind_eq_bind, Option.bind_some, Option.pure_def]

/-- `FreeList::Deallocate`, when the block is the last one. -/
theorem freeListDeallocate_drop {heap : PageHeap} {offset pageStart : Int} {a' : PageAllocator} {m₂ m₃ : Mem}
    (hfind : a.findPage (offset / kPageSize) = some p) (hid : (page m p).id = offset / kPageSize)
    (hget : heap.get (page m p).id = some pageStart) (hrun : pageDeallocate m p pageStart offset = some m')
    (href : (page m' p).ref = 0) (hdealloc : a.deallocate m' p = some (a', m₂)) (hremove : dllRemove a' m₂ p = some m₃) :
    FreeList.deallocate a heap m offset = some (a', m₃) := by
  rw [hid] at hget
  unfold FreeList.deallocate
  simp only [guard, hfind, hid, hget, hrun, href, hdealloc, hremove, if_true, Option.bind_eq_bind, Option.bind_some,
    Option.pure_def]

/-- `Allocator::Deallocate` when its asserts hold: it runs the list of the class that the page names. -/
theorem deallocate_run {alloc : Allocator} {offset : Int} {pages : PageAllocator} (hmax : offset / kPageSize < alloc.heap.max)
    (hfind : alloc.pages.findPage (offset / kPageSize) = some p) (hid : (page m p).id = offset / kPageSize)
    (hpow : (page m p).powOfTwoSize = c + 2) (hc : c < 11)
    (hrun : FreeList.deallocate alloc.pages alloc.heap m offset = some (pages, m')) :
    alloc.deallocate m offset = some ({ alloc with pages := pages }, m') := by
  have hge : 2 ≤ c + 2 := Nat.le_add_left 2 c
  have hlt : c + 2 - 2 < kSizeClassNum := by
    unfold kSizeClassNum
    omega
  unfold Allocator.deallocate PageHeap.getPageIDByOffset
  simp only [guard, hmax, hfind, hid, hpow, hge, hlt, hrun, if_true, Option.bind_eq_bind, Option.bind_some, Option.pure_def]

/-- A page without blocks goes back to `PageAllocator`, and out of its list. -/
theorem Serving.giveBack (h : Serving s pairs spare) (hP : (c, P) ∈ pairs)
    (hk : Home s.mem (s.alloc.pages.address P) s.live c P k) {offset : Int}
    (hnew : page m (s.alloc.pages.address P) = { page s.mem (s.alloc.pages.address P) with ref := 0, freeList := offset })
    (hframe : ∀ x < s.alloc.pages.start + 924, (x < s.alloc.pages.address P ∨ s.alloc.pages.address P + 28 ≤ x) →
      m x = s.mem x) :
    ∃ m₂ m₃, s.alloc.pages.deallocate m (s.alloc.pages.address P) = some ({ s.alloc.pages with freeList := P }, m₂) ∧
      dllRemove { s.alloc.pages with freeList := P } m₂ (s.alloc.pages.address P) = some m₃ ∧
      m₃.readInt32 (s.alloc.pages.start + P) = s.alloc.pages.freeList ∧
      Sentinel s.alloc.pages m₃ c (2 * c + 1 : Nat) ∧
      ∀ x < s.alloc.pages.start + 924, (x < s.alloc.pages.start + P ∨ s.alloc.pages.start + P + 4 ≤ x) →
        (x < s.alloc.pages.address P ∨ s.alloc.pages.address P + 28 ≤ x) →
        (x < s.alloc.pages.address (2 * c + 1 : Nat) + 12 ∨ s.alloc.pages.address (2 * c + 1 : Nat) + 20 ≤ x) →
        m₃ x = s.mem x := by
  have hrange := h.page_range hP
  have hc := h.class_range hP
  have hlt := h.page_lt_next hP
  have hroom := h.region.size
  have haP : s.alloc.pages.address P = s.alloc.pages.start + 28 * P := rfl
  have hac : s.alloc.pages.address (2 * c + 1 : Nat) = s.alloc.pages.start + 28 * (2 * c + 1 : Nat) := rfl
  have hhead : InRange s.alloc.pages.freeList := by
    cases spare with
    | nil =>
        have hnil : s.alloc.pages.freeList = kInvalidOffset := h.thread
        rw [hnil]
        exact inRange_invalidOffset
    | cons i rest =>
        have hi : s.alloc.pages.freeList = (i : Int) := h.thread.1
        have hi' := h.pool.mem_free (i := i) List.mem_cons_self
        rw [hi]
        exact inRange_natCast (by omega)
  have hdealloc := deallocate_eq (a := s.alloc.pages) (m := m) (i := P) hlt (by unfold sizeofPage; omega)
    (by rw [hnew]; exact hk.id) (by rw [hnew]) (by rw [hnew]; exact hk.status)
  -- the descriptor is free, and the link is stored at the byte with the number of the page
  have hpage₁ : page (setStatus m (s.alloc.pages.address P) free) (s.alloc.pages.address P) =
      { page m (s.alloc.pages.address P) with status := free } := page_setStatus (by decide)
  have hout₁ : Outside m (setStatus m (s.alloc.pages.address P) free) (s.alloc.pages.address P) (s.alloc.pages.address P + 28) :=
    outside_setStatus
  generalize setStatus m (s.alloc.pages.address P) free = m₁ at hdealloc hpage₁ hout₁
  have hlink : (m₁.writeInt32 (s.alloc.pages.start + P) s.alloc.pages.freeList).readInt32 (s.alloc.pages.start + P) =
      s.alloc.pages.freeList := Mem.readInt32_writeInt32_self hhead.1 hhead.2
  have hout₂ : Outside m₁ (m₁.writeInt32 (s.alloc.pages.start + P) s.alloc.pages.freeList) (s.alloc.pages.start + P)
      (s.alloc.pages.start + P + 4) := outside_writeInt32
  generalize m₁.writeInt32 (s.alloc.pages.start + P) s.alloc.pages.freeList = m₂ at hdealloc hlink hout₂
  have hpage₂ : page m₂ (s.alloc.pages.address P) = { page m (s.alloc.pages.address P) with status := free } := by
    rw [hout₂.page (by omega), hpage₁]
  have hout : ∀ x < s.alloc.pages.start + 924, (x < s.alloc.pages.start + P ∨ s.alloc.pages.start + P + 4 ≤ x) →
      (x < s.alloc.pages.address P ∨ s.alloc.pages.address P + 28 ≤ x) → m₂ x = s.mem x := by
    intro x hx hxl hxP
    rw [hout₂ x hxl, hout₁ x hxP, hframe x hx hxP]
  have hs : Sentinel s.alloc.pages m₂ c P := by
    obtain ⟨hsid, hsnext, hsprev⟩ := h.linked c P hP
    have hread : ∀ q, s.alloc.pages.address (2 * c + 1 : Nat) + 8 ≤ q → q + 4 ≤ s.alloc.pages.address (2 * c + 1 : Nat) + 20 →
        m₂.readInt32 q = s.mem.readInt32 q := by
      intro q hlo hhi
      refine congrArg int32OfBytes (Mem.read_congr ?_)
      intro n hn
      exact hout _ (by omega) (by omega) (by omega)
    refine ⟨Eq.trans ?_ hsid, Eq.trans ?_ hsnext, Eq.trans ?_ hsprev⟩
    · exact hread _ (by omega) (by omega)
    · exact hread _ (by omega) (by omega)
    · exact hread _ (by omega) (by omega)
  -- the sentinel is linked to itself
  have hs' : Sentinel { s.alloc.pages with freeList := P } m₂ c P := hs.congr rfl
  have hnext : (page m₂ (s.alloc.pages.address P)).next = (2 * c + 1 : Nat) := by
    rw [hpage₂, hnew]
    exact hk.next
  have hprev : (page m₂ (s.alloc.pages.address P)).prev = (2 * c + 1 : Nat) := by
    rw [hpage₂, hnew]
    exact hk.prev
  obtain ⟨m₃, hremove, hs₃, hout₃⟩ := dllRemove_eq (i := P) hs' (by omega) hnext hprev
    (show ((2 * c + 1 : Nat) : Int) < s.alloc.pages.next by omega) (by omega)
  have hout₃' : Outside m₂ m₃ (s.alloc.pages.address (2 * c + 1 : Nat) + 12) (s.alloc.pages.address (2 * c + 1 : Nat) + 20) := hout₃
  refine ⟨m₂, m₃, hdealloc, hremove, ?_, hs₃.congr rfl, ?_⟩
  · rw [hout₃'.readInt32 (by omega)]
    exact hlink
  · intro x hx hxl hxP hxc
    rw [hout₃' x hxc, hout x hx hxl hxP]

/-- **`Deallocate`** takes every live block back, unless it overwrites a link. -/
theorem Serving.deallocate (h : Serving s pairs spare) (hb : b ∈ s.live) (hspared : Spared s (.deallocate b)) :
    ∃ (a : Allocator) (m : Mem) (pairs' : List (Nat × Nat)) (spare' : List Nat),
      s.alloc.deallocate s.mem b.offset = some (a, m) ∧ Serving ⟨a, m, s.live.erase b⟩ pairs' spare' := by
  obtain ⟨P, k, i, hP, hpage, hk, -⟩ := h.block_eq hb
  have hrange := h.page_range hP
  have hmax := h.region.pages
  obtain ⟨ref, m₁, href, hdealloc, hnew, hframe⟩ := h.pageDeallocate_eq hb hpage hk hrange.2
  have hfind : s.alloc.pages.findPage (b.offset / kPageSize) = some (s.alloc.pages.address P) := by
    rw [hpage]
    exact findPage_eq (h.page_lt_next hP)
  have hid : (page s.mem (s.alloc.pages.address P)).id = b.offset / kPageSize := by
    rw [hk.id, hpage]
  have hget : s.alloc.heap.get (page s.mem (s.alloc.pages.address P)).id = some (s.alloc.heap.start + (P * kPageSize : Nat)) := by
    rw [hk.id]
    exact heap_get_eq (by omega) (by omega)
  by_cases hzero : ref = 0
  · subst hzero
    obtain ⟨m₂, m₃, hpages, hremove, hlink, hsentinel, hout⟩ := h.giveBack hP hk hnew hframe
    have hrun := freeListDeallocate_drop hfind hid hget hdealloc (by rw [hnew]) hpages hremove
    have hfar : ∀ i ∈ spare, i + 4 ≤ P ∨ P + 4 ≤ i := by
      intro i hi
      have hap := hspared.2 (by rw [hpage]; exact href) _ h.thread i (List.mem_map_of_mem hi)
      omega
    exact ⟨_, m₃, _, _, deallocate_run (by omega) hfind hid hk.powOfTwoSize (h.class_range hP) hrun,
      h.drop hb hP hpage href hfar hlink hsentinel hout⟩
  · have hrun := freeListDeallocate_keep hfind hid hget hdealloc (by rw [hnew]; exact hzero)
    exact ⟨_, m₁, pairs, spare, deallocate_run (by omega) hfind hid hk.powOfTwoSize (h.class_range hP) hrun,
      h.keep hb hP hpage href hnew hframe⟩

/-! ## Runs

The invariant at the beginning, kept by every call, and what it says about the live blocks. -/

/-- What a successful `Allocate` adds to the live blocks. -/
theorem grown_natCast (offset : Nat) : grown live sz (some (offset : Int)) = ⟨offset, sz, classOf sz⟩ :: live := by
  have hne : (offset : Int) ≠ kInvalidOffset := natCast_ne_invalid offset
  dsimp only [grown]
  rw [if_neg hne]

/-- A call that is `Spared` keeps the invariant. -/
theorem Serving.step (h : Serving s pairs spare) (hst : Step s call t) (hspared : Spared s call) :
    ∃ pairs' spare', Serving t pairs' spare' := by
  cases call with
  | allocate sz res =>
      obtain ⟨-, a', m', hrun, rfl⟩ := hst
      obtain ⟨a, m, offset, pairs', spare', halloc, hserving⟩ := h.allocate hspared.1 hspared.2
      rw [halloc] at hrun
      cases hrun
      refine ⟨pairs', spare', ?_⟩
      rw [grown_natCast]
      exact hserving
  | deallocate b =>
      obtain ⟨hb, a', m', hrun, rfl⟩ := hst
      obtain ⟨a, m, pairs', spare', hdealloc, hserving⟩ := h.deallocate hb hspared
      rw [hdealloc] at hrun
      cases hrun
      exact ⟨pairs', spare', hserving⟩

/-- The invariant gives the promises: the blocks are in their pages, and those do not overlap. -/
theorem Serving.sound (h : Serving s pairs spare) : Sound s := by
  refine ⟨fun b hb => h.block_inside hb, h.pairwise_apart, fun b hb => h.block_page hb, ?_, ?_⟩
  · intro sz hspared
    obtain ⟨a, m, offset, pairs', spare', halloc, -⟩ := h.allocate hspared.1 hspared.2
    exact ⟨_, _, hspared.1.trans (by decide), a, m, halloc, rfl⟩
  · intro b hb hspared
    obtain ⟨a, m, pairs', spare', hdealloc, -⟩ := h.deallocate hb hspared
    exact ⟨_, hb, a, m, hdealloc, rfl⟩

section Created

variable {start : Int} {calls : List Call}

/-- A new allocator has neither pages in use nor free ones. -/
theorem serving_created (hlt : sz < 2 ^ 32) (hpages : descriptorSize sz + 33 * kPageSize ≤ sz - kPageSize)
    (hs : ∀ c < 11, Sentinel (created start sz).pages m c (2 * c + 1 : Nat)) : Serving ⟨created start sz, m, []⟩ [] [] := by
  obtain ⟨-, hle, hround⟩ := descriptorSize_spec sz
  have hmax : (created start sz).pages.max = (descriptorSize sz / 28 : Nat) := rfl
  have hheap : (created start sz).heap.max = (heapSize sz / 16384 : Nat) := rfl
  have hsize : 33 * 16384 ≤ heapSize sz := by
    unfold heapSize
    unfold kPageSize at hpages ⊢
    omega
  -- the pages of the descriptor and the heap fit the region
  have hregion : Region (created start sz) := by
    refine ⟨rfl, ?_, ?_, ?_, ?_, ?_⟩
    · show 924 ≤ descriptorSize sz
      omega
    · show start + kPageSize + 924 ≤ start + kPageSize + descriptorSize sz
      omega
    · rw [hmax]
      omega
    · rw [hmax]
      exact inRange_natCast (by omega)
    · rw [hheap]
      omega
  refine ⟨hregion, show (0 : Int) ≤ 22 by decide, Pool.within_new (show 22 ≤ 33 by decide), rfl, List.Pairwise.nil,
    List.nodup_nil, ?_, fun c hc _ => hs c hc, ?_, ?_, ?_, List.nodup_nil⟩
  · intro c hc
    cases hc
  · intro c P hP
    cases hP
  · intro c P hP
    cases hP
  · intro b hb
    cases hb

/-- **The allocator hands out blocks soundly** in every run whose calls are all `Spared`. -/
theorem sound_of_spared {a : Allocator} (hcreate : Allocator.create m start sz = some (some (a, m'))) (hlt : sz < 2 ^ 32)
    (hpages : descriptorSize sz + 33 * kPageSize ≤ sz - kPageSize)
    (hrun : Run (fun s call t => Step s call t ∧ Spared s call) ⟨a, m', []⟩ calls s) : Sound s := by
  obtain ⟨rfl, hs⟩ := created_of_create hcreate hlt
  obtain ⟨pairs, spare, h⟩ : ∃ pairs spare, Serving s pairs spare := by
    refine Run.invariant (I := fun s => ∃ pairs spare, Serving s pairs spare) ?_ hrun ⟨[], [], serving_created hlt hpages hs⟩
    rintro s call t ⟨pairs, spare, h⟩ ⟨hst, hspared⟩
    exact h.step hst hspared
  exact h.sound

/-- Two blocks of a region of 64 pages are got and given back, and their page with them; the next block is in that page
    again. -/
theorem sound_of_spared_again : ∃ a m s, Allocator.create (fun _ => 0) 0 (2 ^ 20) = some (some (a, m)) ∧
    Run (fun s call t => Step s call t ∧ Spared s call) ⟨a, m, []⟩ [.allocate 100 (some 360576),
      .allocate 100 (some 360704), .deallocate ⟨360704, 100, 5⟩, .deallocate ⟨360576, 100, 5⟩,
      .allocate 100 (some 360576)] s ∧ s.live = [⟨360576, 100, 5⟩] ∧ Sound s := by
  -- one evaluation for the whole run; the conditions are read off the states it passes
  have hc : ((Allocator.create (fun _ => 0) 0 (2 ^ 20)).join.bind fun x => (x.1.allocate x.2 100).bind fun y =>
      (y.1.allocate y.2.1 100).bind fun z => (z.1.deallocate z.2.1 360704).bind fun u =>
      (u.1.deallocate u.2 360576).bind fun v => (v.1.allocate v.2 100).map fun w =>
        decide ((y.2.2 = some 360576 ∧ z.2.2 = some 360704 ∧ w.2.2 = some 360576) ∧
          (Spared ⟨x.1, x.2, []⟩ (.allocate 100 none) ∧ Spared ⟨y.1, y.2.1, []⟩ (.allocate 100 none) ∧
            Spared ⟨v.1, v.2, []⟩ (.allocate 100 none)) ∧
          (z.1.heap.size = 1015808 ∧ z.1.pages.freeList = -1) ∧ u.1.heap.size = 1015808 ∧ u.1.pages.freeList = -1)) =
      some true := by
    decide +kernel
  simp only [Option.bind_eq_some_iff, Option.map_eq_some_iff, decide_eq_true_eq] at hc
  obtain ⟨⟨a, m⟩, hx, ⟨a₁, m₁, r₁⟩, hy, ⟨a₂, m₂, r₂⟩, hz, ⟨a₃, m₃⟩, hu, ⟨a₄, m₄⟩, hv, ⟨a₅, m₅, r₅⟩, hw,
    ⟨rfl, rfl, rfl⟩, ⟨hroom, hroom₁, hroom₄⟩, ⟨hsize₂, hnone₂⟩, hsize₃, hnone₃⟩ := hc
  have hcreate := Option.join_eq_some_iff.mp hx
  have h₁ : Step ⟨a, m, []⟩ (.allocate 100 (some 360576)) ⟨a₁, m₁, [⟨360576, 100, 5⟩]⟩ := ⟨by decide, _, _, hy, rfl⟩
  have h₂ : Step ⟨a₁, m₁, [⟨360576, 100, 5⟩]⟩ (.allocate 100 (some 360704))
      ⟨a₂, m₂, [⟨360704, 100, 5⟩, ⟨360576, 100, 5⟩]⟩ := ⟨by decide, _, _, hz, rfl⟩
  have h₃ : Step ⟨a₂, m₂, [⟨360704, 100, 5⟩, ⟨360576, 100, 5⟩]⟩ (.deallocate ⟨360704, 100, 5⟩)
      ⟨a₃, m₃, [⟨360576, 100, 5⟩]⟩ := ⟨List.mem_cons_self, _, _, hu, rfl⟩
  have h₄ : Step ⟨a₃, m₃, [⟨360576, 100, 5⟩]⟩ (.deallocate ⟨360576, 100, 5⟩) ⟨a₄, m₄, []⟩ :=
    ⟨List.mem_cons_self, _, _, hv, rfl⟩
  have h₅ : Step ⟨a₄, m₄, []⟩ (.allocate 100 (some 360576)) ⟨a₅, m₅, [⟨360576, 100, 5⟩]⟩ := ⟨by decide, _, _, hw, rfl⟩
  have hspared₃ : Spared ⟨a₂, m₂, [⟨360704, 100, 5⟩, ⟨360576, 100, 5⟩]⟩ (.deallocate ⟨360704, 100, 5⟩) :=
    spared_deallocate (by rw [hsize₂]; decide) hnone₂
  have hspared₄ : Spared ⟨a₃, m₃, [⟨360576, 100, 5⟩]⟩ (.deallocate ⟨360576, 100, 5⟩) :=
    spared_deallocate (by rw [hsize₃]; decide) hnone₃
  have hrun : Run (fun s call t => Step s call t ∧ Spared s call) ⟨a, m, []⟩ _ ⟨a₅, m₅, [⟨360576, 100, 5⟩]⟩ :=
    ((((Run.single ⟨h₁, hroom⟩).tail ⟨h₂, hroom₁⟩).tail ⟨h₃, hspared₃⟩).tail ⟨h₄, hspared₄⟩).tail ⟨h₅, hroom₄⟩
  exact ⟨a, m, _, hcreate, hrun, rfl, sound_of_spared hcreate (by decide) (by decide +kernel) hrun⟩

/-- Calls of one class are calls of a client that keeps all blocks. -/
theorem run_of_classRun {a : Allocator} {t : Allocator × Mem} {labels : List (Option Int)}
    (hrun : Run (ClassStep c) (a, m) labels t) : ∃ calls live, Run Step ⟨a, m, []⟩ calls ⟨t.1, t.2, live⟩ := by
  induction hrun with
  | refl => exact ⟨[], [], Run.refl⟩
  | tail _ hst ih =>
      obtain ⟨calls, live, hrun⟩ := ih
      obtain ⟨sz, hsz, -, hres⟩ := hst
      exact ⟨_, _, hrun.tail (show Step _ (.allocate sz _) _ from ⟨hsz, _, _, hres, rfl⟩)⟩

/-- **The last block of a page is behind it**, in a page that is not in use. -/
theorem last_block_outside : ∃ m', Allocator.create (fun _ => 0) 0 (2 ^ 20) = some (some (created 0 (2 ^ 20), m')) ∧
    ∃ calls s, Run Step ⟨created 0 (2 ^ 20), m', []⟩ calls s ∧
      ∃ b ∈ s.live, s.alloc.pages.findPage (b.offset / kPageSize) = none := by
  obtain ⟨m', hcreate, hs⟩ := create_eq (show (0 : Int) % kPageSize = 0 by decide) (show kPageSize ≤ 2 ^ 20 by decide)
    (by decide) (fun _ => 0)
  have hfresh : Fresh (created 0 (2 ^ 20)) := fresh_created (by decide)
  have hheap : 22 < (created 0 (2 ^ 20)).heap.max := by decide +kernel
  obtain ⟨labels, t, -, hrun, hafter⟩ := run_of_le (n := 3) hfresh (hs 10 (by decide)) hheap (by decide) (by decide)
  obtain ⟨pages, m, hlist, hlast⟩ := hafter.next hfresh (hs 10 (by decide)) hheap (by decide) (by decide)
  obtain ⟨sz, hsz, -, hres⟩ := ClassStep.of_run (by decide) (hafter.list_eq hfresh (by decide)) hlist
  obtain ⟨calls, live, hcalls⟩ := run_of_classRun hrun
  refine ⟨m', hcreate, _, _, hcalls.tail (show Step _ (.allocate sz _) _ from ⟨hsz, _, _, hres, rfl⟩),
    ⟨(23 * kPageSize : Nat), sz, classOf sz⟩, ?_, ?_⟩
  · exact List.mem_cons_self
  · have hpages : pages = (grownOnce (created 0 (2 ^ 20))).pages := congrArg Allocator.pages hlast.1
    show pages.findPage ((23 * kPageSize : Nat) / kPageSize) = none
    rw [hpages]
    decide +kernel

end Created

end SizeClass
end Snippets
