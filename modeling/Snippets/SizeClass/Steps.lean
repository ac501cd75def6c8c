import Snippets.SizeClass.Serving

/-!
# `SizeClass.Steps` — `Allocate`

`Allocate` first puts a page into the list of the class, if that is empty (`Serving.refill_new`), and then takes the next
block of the page (`Serving.take`). It keeps the invariant, and the block is not one of the live ones (`Serving.allocate`).
-/

namespace Snippets

open Lib

namespace SizeClass

variable {s t : Client} {call : Call} {pairs : List (Nat × Nat)} {spare : List Nat} {m m' : Mem} {lo hi p : Int}
  {live : List Block} {c P k i sz : Nat} {a : PageAllocator}

/-! ## Pages

What `PageAllocator::Allocate` and the refilling branch of `FreeList::Allocate` do to the pages of the region.
Every write is inside the new page or the two links of the sentinel, so everything else is read as before. -/

/-- What a page is home to depends on its own record only. -/
theorem Home.congr (h : Home m p live c P k) (heq : page m' p = page m p) : Home m' p live c P k := by
  obtain ⟨h₁, h₂, h₃, h₄, h₅, h₆, h₇, h₈, h₉, h₁₀⟩ := h
  rw [← heq] at h₁ h₂ h₃ h₄ h₅ h₆ h₇ h₈
  exact ⟨h₁, h₂, h₃, h₄, h₅, h₆, h₇, h₈, h₉, h₁₀⟩

/-- A page of which at most 4096 blocks can be taken. -/
theorem Home.count_lt (h : Home m p live c P k) : k < 4096 := by
  have hroom := h.room
  have hpow : 4 ≤ 2 ^ (c + 2) := Nat.pow_le_pow_right (show 0 < 2 by decide) (show 2 ≤ c + 2 by omega)
  have hle := Nat.mul_le_mul_left (k + 1) hpow
  unfold kPageSize at hroom
  omega

/-- The links of the pages that were given back are their bytes. -/
theorem pageLinks_congr {a' : PageAllocator} {head : Int}
    (ht : Thread (pageLinks a m) kInvalidPageID head (spare.map (fun i : Nat => (i : Int)))) (hstart : a'.start = a.start)
    (heq : ∀ i ∈ spare, ∀ x, a.start + i ≤ x → x < a.start + i + 4 → m' x = m x) :
    Thread (pageLinks a' m') kInvalidPageID head (spare.map (fun i : Nat => (i : Int))) := by
  apply ht.congr
  intro j hj
  obtain ⟨i, hi, rfl⟩ := List.mem_map.mp hj
  unfold pageLinks
  rw [hstart]
  refine congrArg int32OfBytes (Mem.read_congr ?_)
  intro n hn
  exact heq i hi _ (by omega) (by omega)

/-- There is a page for a class without one. -/
theorem Serving.length_lt (h : Serving s pairs spare) (hc : c < 11) (hnot : c ∉ pairs.map Prod.fst) : pairs.length < 11 := by
  have hnd : (c :: pairs.map Prod.fst).Nodup := List.nodup_cons.mpr ⟨hnot, h.keys⟩
  have hsub : (c :: pairs.map Prod.fst) ⊆ List.range 11 := by
    intro d hd
    rw [List.mem_range]
    rcases List.mem_cons.mp hd with rfl | hd
    · exact hc
    · exact h.class_lt d hd
  have hle := (List.subperm_of_subset hnd hsub).length_le
  rw [List.length_cons, List.length_map, List.length_range] at hle
  omega

/-- **A descriptor for a class without a page**: one that was given back, or the next new one. -/
theorem Serving.pages_allocate (h : Serving s pairs spare) (hc : c < 11) (hnot : c ∉ pairs.map Prod.fst) :
    ∃ (a : PageAllocator) (P : Nat) (spare' : List Nat), s.alloc.pages.allocate s.mem =
        some (a, initAllocatedPage s.mem (s.alloc.pages.address P) P, some (s.alloc.pages.address P)) ∧
      a.start = s.alloc.pages.start ∧ a.size = s.alloc.pages.size ∧ a.max = s.alloc.pages.max ∧ 0 ≤ a.next ∧
      Pool.Within ⟨a.next.toNat, spare', P :: pairs.map Prod.snd⟩ 22 33 ∧
      Thread (pageLinks s.alloc.pages s.mem) kInvalidPageID a.freeList (spare'.map (fun i : Nat => (i : Int))) ∧
      (spare'.Pairwise fun i j => i + 4 ≤ j ∨ j + 4 ≤ i) := by
  have hthread := h.thread
  have hspread := h.spread
  have hpool := h.pool
  have hnext := h.next
  have hlen := h.length_lt hc hnot
  cases spare with
  -- no page was given back: the pool hands out the next one it has not used
  | nil =>
      have hfree : s.alloc.pages.freeList = kInvalidOffset := hthread
      have hnew : s.alloc.pages.next.toNat = 22 + (pairs.map Prod.snd).length := hpool.next_eq rfl
      rw [List.length_map] at hnew
      have hmax := h.region.max
      have hcast : s.alloc.pages.next = (s.alloc.pages.next.toNat : Nat) := (Int.toNat_of_nonneg hnext).symm
      have hrun := allocate_new hcast hfree (by omega) h.region.range s.mem
      refine ⟨_, _, [], hrun, rfl, rfl, rfl, Int.natCast_nonneg _, ?_, hfree, List.Pairwise.nil⟩
      exact hpool.bump rfl (show s.alloc.pages.next.toNat < 33 by omega)
  -- the page given back last, which is the head of the thread
  | cons P rest =>
      obtain ⟨hhead, hne, hrest⟩ := hthread
      refine ⟨{ s.alloc.pages with freeList := pageLinks s.alloc.pages s.mem P }, P, rest, ?_, rfl, rfl, rfl, hnext,
        hpool.pop rfl, hrest, (List.pairwise_cons.mp hspread).2⟩
      have hhead' : s.alloc.pages.freeList = (P : Int) := hhead
      have hne' : (P : Int) ≠ kInvalidOffset := hne
      unfold PageAllocator.allocate
      rw [hhead', if_neg hne']
      rfl

/-- The descriptors differ only in that of page `P`, and in the links of the sentinel of a class. -/
def Touched (a : PageAllocator) (m m' : Mem) (c P : Nat) : Prop :=
  ∀ x, a.start + 36 ≤ x → x < a.start + 924 → (x < a.address P ∨ a.address P + 28 ≤ x) →
    (x < a.address (2 * c + 1 : Nat) + 12 ∨ a.address (2 * c + 1 : Nat) + 20 ≤ x) → m' x = m x

/-- A field that is neither in the new page nor a link of its sentinel is read as before. -/
theorem Touched.readInt32 (h : Touched a m m' c P) {x : Int} (hlo : a.start + 36 ≤ x) (hhi : x + 4 ≤ a.start + 924)
    (hP : x + 4 ≤ a.address P ∨ a.address P + 28 ≤ x)
    (hc : x + 4 ≤ a.address (2 * c + 1 : Nat) + 12 ∨ a.address (2 * c + 1 : Nat) + 20 ≤ x) :
    m'.readInt32 x = m.readInt32 x := by
  refine congrArg int32OfBytes (Mem.read_congr ?_)
  intro i hi
  exact h _ (by omega) (by omega) (by omega) (by omega)

/-- The sentinel of another class. -/
theorem Touched.sentinel (h : Touched a m m' c P) (hP : 22 ≤ P) {d : Nat} (hd : d < 11) (hne : d ≠ c) {target : Int}
    (hs : Sentinel a m d target) : Sentinel a m' d target := by
  obtain ⟨hid, hnext, hprev⟩ := hs
  have haP : a.address P = a.start + 28 * P := rfl
  have hac : a.address (2 * c + 1 : Nat) = a.start + 28 * (2 * c + 1 : Nat) := rfl
  have had : a.address (2 * d + 1 : Nat) = a.start + 28 * (2 * d + 1 : Nat) := rfl
  refine ⟨Eq.trans ?_ hid, Eq.trans ?_ hnext, Eq.trans ?_ hprev⟩
  · exact h.readInt32 (by omega) (by omega) (by omega) (by omega)
  · exact h.readInt32 (by omega) (by omega) (by omega) (by omega)
  · exact h.readInt32 (by omega) (by omega) (by omega) (by omega)

/-- The descriptor of another page. -/
theorem Touched.page (h : Touched a m m' c P) (hc : c < 11) {Q : Nat} (hQ : 22 ≤ Q ∧ Q < 33) (hne : Q ≠ P) :
    page m' (a.address Q) = page m (a.address Q) := by
  have haP : a.address P = a.start + 28 * P := rfl
  have hac : a.address (2 * c + 1 : Nat) = a.start + 28 * (2 * c + 1 : Nat) := rfl
  have haQ : a.address Q = a.start + 28 * Q := rfl
  apply page_congr
  intro x hlo hhi
  exact h x (by omega) (by omega) (by omega) (by omega)

/-- A new page is in no block's way. -/
theorem Serving.countP_new (h : Serving s pairs spare) (hnot : P ∉ pairs.map Prod.snd) : s.live.countP (inPage P) = 0 := by
  rw [List.countP_eq_zero]
  intro b hb hin
  obtain ⟨-, Q, hQ, hpage⟩ := h.blocks b hb
  have heq : b.offset / kPageSize = P := of_decide_eq_true hin
  have hPQ : P = Q := by omega
  subst hPQ
  exact hnot (List.mem_map_of_mem hQ)

/-- A page that was just allocated is prepended to the empty list of a class. -/
theorem refill_run {a' : PageAllocator} (hs : Sentinel a m c (2 * c + 1 : Nat)) (hstart : a'.start = a.start)
    (hrun : a.allocate m = some (a', initAllocatedPage m (a'.address P) P, some (a'.address P))) (hc : c < 11)
    (hP : 22 ≤ P ∧ P < 33) (hnext : P < a'.next) :
    ∃ m', (listOf c).refill a m (a'.address (2 * c + 1 : Nat)) = some (a', m', true) ∧ Sentinel a' m' c P ∧
      page m' (a'.address P) = { newPage (c + 2) P with next := (2 * c + 1 : Nat), prev := (2 * c + 1 : Nat) } ∧
      ∀ x, (x < a'.address P ∨ a'.address P + 28 ≤ x) →
        (x < a'.address (2 * c + 1 : Nat) + 12 ∨ a'.address (2 * c + 1 : Nat) + 20 ≤ x) → m' x = m x := by
  have hs' : Sentinel a' m c (2 * c + 1 : Nat) := hs.congr hstart
  have hinP : InRange (P : Int) := inRange_natCast (by omega)
  -- the descriptor is initialised, and gets the size of the class
  have hpage₁ := page_initAllocatedPage (m := m) (p := a'.address P) hinP
  have hout₁ : Outside m (initAllocatedPage m (a'.address P) P) (a'.address P) (a'.address P + 28) :=
    outside_initAllocatedPage
  generalize initAllocatedPage m (a'.address P) P = m₁ at hrun hpage₁ hout₁
  have hpage₂ : page (setPowOfTwoSize m₁ (a'.address P) (c + 2)) (a'.address P) = newPage (c + 2) P := by
    rw [page_setPowOfTwoSize (by omega), hpage₁]
    rfl
  have hout₂ : Outside m (setPowOfTwoSize m₁ (a'.address P) (c + 2)) (a'.address P) (a'.address P + 28) :=
    hout₁.trans outside_setPowOfTwoSize
  have hap := address_apart (a := a') (i := P) (j := 2 * c + 1) (by omega)
  have hs₂ : Sentinel a' (setPowOfTwoSize m₁ (a'.address P) (c + 2)) c (2 * c + 1 : Nat) := by
    apply hs'.outside hout₂
    omega
  generalize hm₂ : setPowOfTwoSize m₁ (a'.address P) (c + 2) = m₂ at hpage₂ hout₂ hs₂
  -- and is prepended to the empty list
  obtain ⟨m', hpre, hs₃, hpage₃, hframe⟩ := dllPrepend_eq (i := P) hs₂ (by rw [hpage₂]; rfl) (by omega) (by omega) (by omega)
    (by omega)
  rw [hpage₂] at hpage₃
  refine ⟨m', ?_, hs₃, hpage₃, ?_⟩
  · have hempty : dllEmpty m (a'.address (2 * c + 1 : Nat)) = true := by
      unfold dllEmpty
      rw [hs'.next, hs'.id]
      exact decide_eq_true rfl
    unfold FreeList.refill
    rw [if_pos hempty, hrun]
    show (dllPrepend a' (setPowOfTwoSize m₁ (a'.address P) (c + 2)) _ _).map _ = _
    rw [hm₂, hpre]
    rfl
  · intro x hxP hxc
    rw [hframe x hxP hxc, hout₂ x hxP]

/-- A new page of a class. -/
theorem home_new (hpage : page m p = { newPage (c + 2) P with next := (2 * c + 1 : Nat), prev := (2 * c + 1 : Nat) }) (hc : c < 11)
    (hcount : live.countP (inPage P) = 0) : Home m p live c P 0 := by
  have hpow : 2 ^ (c + 2) ≤ 2 ^ 12 := Nat.pow_le_pow_right (by omega) (by omega)
  refine ⟨?_, ?_, ?_, ?_, ?_, ?_, ?_, ?_, ?_, ?_⟩
  · rw [hpage]
    rfl
  · rw [hpage]
    rfl
  · rw [hpage]
    rfl
  · rw [hpage]
  · rw [hpage]
  · rw [hpage, Nat.zero_mul]
    rfl
  · rw [hpage, hcount]
    rfl
  · rw [hpage]
    exact Nat.le_refl 0
  · unfold kPageSize
    omega
  · intro b hb hbP
    have hin : inPage P b = true := decide_eq_true hbP
    exact absurd hin (List.countP_eq_zero.mp hcount b hb)

/-- **The list of a class without a page gets one.** -/
theorem Serving.refill_new (h : Serving s pairs spare) (hc : c < 11) (hnot : c ∉ pairs.map Prod.fst) :
    ∃ (a : PageAllocator) (m : Mem) (P : Nat) (spare' : List Nat),
      (listOf c).refill s.alloc.pages s.mem (s.alloc.pages.address (2 * c + 1 : Nat)) = some (a, m, true) ∧
      Serving ⟨{ s.alloc with pages := a }, m, s.live⟩ ((c, P) :: pairs) spare' ∧ a.start = s.alloc.pages.start ∧
      Home m (a.address P) s.live c P 0 ∧ (page m (a.address P)).freeList = kInvalidOffset := by
  obtain ⟨a, P, spare', hrun, hstart, hsize, hmax, hnext, hpool, hthread, hspread⟩ := h.pages_allocate hc hnot
  obtain ⟨hlists, hroom, hheap, h33, hrange, hpages⟩ := h.region
  have hP : 22 ≤ P ∧ P < 33 := hpool.mem_live List.mem_cons_self
  have hPnot : P ∉ pairs.map Prod.snd := (List.nodup_cons.mp hpool.nodup_live).1
  have hlt : P < a.next.toNat := (hpool.mem_iff.mp (Or.inr List.mem_cons_self)).2
  have haddr : ∀ i, s.alloc.pages.address i = a.address i := by
    intro i
    unfold PageAllocator.address
    rw [hstart]
  obtain ⟨m, hrefill, hs, hpage, hout⟩ := refill_run (h.idle c hc hnot) hstart (by rw [← haddr]; exact hrun) hc hP (by omega)
  have htouched : Touched a s.mem m c P := fun x _ _ hxP hxc => hout x hxP hxc
  have hhome : Home m (a.address P) s.live c P 0 := home_new hpage hc (h.countP_new hPnot)
  rw [haddr]
  refine ⟨a, m, P, spare', hrefill, ⟨⟨hlists, ?_, ?_, ?_, ?_, hpages⟩, hnext, hpool, ?_, hspread, ?_, ?_, ?_, ?_, ?_, ?_,
    h.distinct⟩, hstart, hhome, ?_⟩
  · rw [hsize]
    exact hroom
  · rw [hstart]
    exact hheap
  · rw [hmax]
    exact h33
  · rw [hmax]
    exact hrange
  · -- the links of the free pages are below the sentinels' members
    refine pageLinks_congr hthread hstart ?_
    intro i hi x hlo hhi
    have hi' := hpool.mem_free hi
    have haP : a.address P = a.start + 28 * P := rfl
    have hac : a.address (2 * c + 1 : Nat) = a.start + 28 * (2 * c + 1 : Nat) := rfl
    exact hout x (by omega) (by omega)
  -- the class has its page now
  · exact List.nodup_cons.mpr ⟨hnot, h.keys⟩
  · intro d hd
    rcases List.mem_cons.mp hd with rfl | hd
    · exact hc
    · exact h.class_lt d hd
  -- the sentinels of the other empty classes are not touched
  · intro d hd hdnot
    obtain ⟨hne, hdnot⟩ := not_or.mp (fun hor => hdnot (List.mem_cons.mpr hor))
    exact htouched.sentinel hP.1 hd hne ((h.idle d hd hdnot).congr hstart)
  -- the sentinel of the class points to the new page, the others to the pages they had
  · intro d Q hmem
    rcases List.mem_cons.mp hmem with heq | hQ
    · cases heq
      exact hs
    · have hne : d ≠ c := by
        rintro rfl
        exact hnot (List.mem_map_of_mem hQ)
      exact htouched.sentinel hP.1 (h.class_range hQ) hne ((h.linked d Q hQ).congr hstart)
  -- the new page is home to no block yet
  · intro d Q hmem
    rcases List.mem_cons.mp hmem with heq | hQ
    · cases heq
      exact ⟨0, hhome⟩
    · have hne : Q ≠ P := by
        rintro rfl
        exact hPnot (List.mem_map_of_mem hQ)
      obtain ⟨k, hk⟩ := h.home d Q hQ
      rw [haddr] at hk
      exact ⟨k, hk.congr (htouched.page hc (h.page_range hQ) hne)⟩
  · intro b hb
    obtain ⟨hle, Q, hQ, hbQ⟩ := h.blocks b hb
    exact ⟨hle, Q, List.mem_cons_of_mem _ hQ, hbQ⟩
  · rw [hpage]
    rfl

/-! ## Blocks

A page without a list of freed blocks cuts the next block off its unused end: `free` moves up by one block and
`ref` counts it. -/

/-- The page's base is its number times the page size, without the cast to 32 bits being seen. -/
theorem base_eq {pg : Page} (hid : pg.id = P) (hP : P < 2 ^ 17) : pg.base = (P * kPageSize : Nat) := by
  unfold Page.base
  rw [hid]
  unfold kPageSize
  rw [toInt32_of_range (by omega) (by omega)]
  omega

/-- The branch of `Page::Allocate` that cuts a new block off, when neither sum leaves the 32-bit range. -/
theorem pageAllocate_run {pageStart free offset : Int} (hfull : (page m p).freeList = kInvalidOffset)
    (hne : (page m p).free ≠ kPageSize) (hfree : ofInt ((page m p).free + 2 ^ (page m p).powOfTwoSize) = some free)
    (hoffset : ofInt ((page m p).base + free) = some offset) :
    pageAllocate m p pageStart = some (setRef (setFree m p free) p ((page m p).ref + 1), some offset) := by
  unfold pageAllocate
  simp only [hfull, hne, hfree, hoffset, if_true, if_false, Option.bind_eq_bind, Option.bind_some, Option.pure_def]

/-- The next block of a page. -/
theorem pageAllocate_next {pow ref : Nat} (pageStart : Int) (hfull : (page m p).freeList = kInvalidOffset)
    (hfree : (page m p).free = (k * 2 ^ pow : Nat)) (hpow : (page m p).powOfTwoSize = pow) (hid : (page m p).id = P)
    (href : (page m p).ref = ref) (hroom : (k + 1) * 2 ^ pow ≤ kPageSize) (hP : P < 33) :
    pageAllocate m p pageStart = some (setRef (setFree m p ((k + 1) * 2 ^ pow : Nat)) p (ref + 1),
      some ((P * kPageSize + (k + 1) * 2 ^ pow : Nat) : Int)) := by
  have hpos : 0 < 2 ^ pow := Nat.pow_pos (by decide)
  have hbase : (page m p).base = (P * kPageSize : Nat) := base_eq hid (by omega)
  have hnext : ((k * 2 ^ pow : Nat) : Int) + 2 ^ pow = ((k + 1) * 2 ^ pow : Nat) := by
    rw [Nat.succ_mul]
    push_cast
    rfl
  have hle : k * 2 ^ pow + 2 ^ pow ≤ kPageSize := by
    rw [← Nat.succ_mul]
    exact hroom
  have hne : ((k * 2 ^ pow : Nat) : Int) ≠ kPageSize := by omega
  -- both sums stay in the 32-bit range, since the pages lie below the heap's end
  have hin₁ : InRange (((k + 1) * 2 ^ pow : Nat) : Int) := by
    apply inRange_natCast
    rw [Nat.succ_mul]
    unfold kPageSize at hle
    omega
  have hin₂ : InRange ((P * kPageSize + (k + 1) * 2 ^ pow : Nat) : Int) := by
    apply inRange_natCast
    rw [Nat.succ_mul]
    unfold kPageSize at hle ⊢
    omega
  have hsum : ((P * kPageSize : Nat) : Int) + ((k + 1) * 2 ^ pow : Nat) = (P * kPageSize + (k + 1) * 2 ^ pow : Nat) := by
    push_cast
    rfl
  rw [← href]
  apply pageAllocate_run hfull
  · rw [hfree]
    exact hne
  · rw [hfree, hpow, hnext]
    exact ofInt_eq hin₁
  · rw [hbase, hsum]
    exact ofInt_eq hin₂

/-- **The next block of the page of a class** overlaps no live one. -/
theorem Serving.take (h : Serving s pairs spare) (hP : (c, P) ∈ pairs) (hk : Home s.mem (s.alloc.pages.address P) s.live c P k)
    (hfull : (page s.mem (s.alloc.pages.address P)).freeList = kInvalidOffset) (hroom : (k + 2) * 2 ^ (c + 2) ≤ kPageSize)
    (hsz : sz ≤ 2 ^ (c + 2)) (pageStart : Int) :
    ∃ m', pageAllocate s.mem (s.alloc.pages.address P) pageStart =
        some (m', some ((P * kPageSize + (k + 1) * 2 ^ (c + 2) : Nat) : Int)) ∧
      Serving { s with mem := m', live := ⟨(P * kPageSize + (k + 1) * 2 ^ (c + 2) : Nat), sz, c⟩ :: s.live } pairs spare := by
  have hrange := h.page_range hP
  have hcount := hk.count_lt
  have hpos : 0 < 2 ^ (c + 2) := Nat.pow_pos (by decide)
  have href_le := hk.ref_le
  have hlt : (k + 1) * 2 ^ (c + 2) < kPageSize := by
    rw [Nat.succ_mul] at hroom
    omega
  have hrun := pageAllocate_next pageStart hfull hk.free hk.powOfTwoSize hk.id rfl hlt.le hrange.2
  have hin : InRange (((k + 1) * 2 ^ (c + 2) : Nat) : Int) := by
    apply inRange_natCast
    unfold kPageSize at hlt
    omega
  -- the page afterwards, and that nothing else was written
  have hpage : page (setRef (setFree s.mem (s.alloc.pages.address P) ((k + 1) * 2 ^ (c + 2) : Nat)) (s.alloc.pages.address P)
      ((page s.mem (s.alloc.pages.address P)).ref + 1)) (s.alloc.pages.address P) =
      { page s.mem (s.alloc.pages.address P) with
        free := ((k + 1) * 2 ^ (c + 2) : Nat), ref := (page s.mem (s.alloc.pages.address P)).ref + 1 } := by
    rw [page_setRef (by omega), page_setFree hin]
  have hout : Outside s.mem (setRef (setFree s.mem (s.alloc.pages.address P) ((k + 1) * 2 ^ (c + 2) : Nat))
      (s.alloc.pages.address P) ((page s.mem (s.alloc.pages.address P)).ref + 1)) (s.alloc.pages.address P)
      (s.alloc.pages.address P + 28) := outside_setFree.trans outside_setRef
  -- from here on only these facts about the new memory are used
  generalize setRef (setFree s.mem (s.alloc.pages.address P) ((k + 1) * 2 ^ (c + 2) : Nat)) (s.alloc.pages.address P)
    ((page s.mem (s.alloc.pages.address P)).ref + 1) = m' at hrun hpage hout
  have hoffset : ((P * kPageSize + (k + 1) * 2 ^ (c + 2) : Nat) : Int) / kPageSize = P := by
    unfold kPageSize at hlt ⊢
    omega
  have haP : s.alloc.pages.address P = s.alloc.pages.start + 28 * P := rfl
  refine ⟨m', hrun, h.region, h.next, h.pool, ?_, h.spread, h.keys, h.class_lt, ?_, ?_, ?_, ?_, ?_⟩
  -- the links of the pages given back
  · refine pageLinks_congr h.thread rfl ?_
    intro i hi x hlo hhi
    have hi' := h.pool.mem_free hi
    exact hout x (by omega)
  -- the sentinels of the empty classes
  · intro d hd hnot
    have had : s.alloc.pages.address (2 * d + 1 : Nat) = s.alloc.pages.start + 28 * (2 * d + 1 : Nat) := rfl
    exact (h.idle d hd hnot).outside hout (by omega)
  · intro d Q hQ
    have had : s.alloc.pages.address (2 * d + 1 : Nat) = s.alloc.pages.start + 28 * (2 * d + 1 : Nat) := rfl
    have hd := h.class_range hQ
    -- a sentinel lies below every page of a class
    exact (h.linked d Q hQ).outside hout (by omega)
  · intro d Q hQ
    by_cases hPQ : Q = P
    · -- the page has one block more
      subst hPQ
      obtain rfl : d = c := h.class_eq hQ hP
      refine ⟨k + 1, ?_, ?_, ?_, ?_, ?_, ?_, ?_, ?_, hroom, ?_⟩
      · rw [hpage]
        exact hk.status
      · rw [hpage]
        exact hk.powOfTwoSize
      · rw [hpage]
        exact hk.id
      · rw [hpage]
        exact hk.next
      · rw [hpage]
        exact hk.prev
      · rw [hpage]
      · have hin' : inPage Q ⟨(Q * kPageSize + (k + 1) * 2 ^ (d + 2) : Nat), sz, d⟩ = true := decide_eq_true hoffset
        rw [hpage, List.countP_cons_of_pos hin', ← hk.ref]
      · rw [hpage]
        exact Nat.succ_le_succ href_le
      · intro b hb hbQ
        rcases List.mem_cons.mp hb with rfl | hb
        · exact ⟨k + 1, Nat.succ_pos k, Nat.le_refl _, rfl⟩
        · obtain ⟨i, h₁, h₂, h₃⟩ := hk.offsets b hb hbQ
          exact ⟨i, h₁, Nat.le_succ_of_le h₂, h₃⟩
    -- another page keeps its record, and the new block is not one of its blocks
    · obtain ⟨l, hl⟩ := h.home d Q hQ
      have hother : page m' (s.alloc.pages.address Q) = page s.mem (s.alloc.pages.address Q) := hout.page (address_apart hPQ)
      obtain ⟨h₁, h₂, h₃, h₄, h₅, h₆, h₇, h₈, h₉, h₁₀⟩ := hl.congr hother
      refine ⟨l, h₁, h₂, h₃, h₄, h₅, h₆, ?_, h₈, h₉, ?_⟩
      · have hnot : ¬ inPage Q ⟨(P * kPageSize + (k + 1) * 2 ^ (c + 2) : Nat), sz, c⟩ = true := by
          intro hin'
          have heq : ((P * kPageSize + (k + 1) * 2 ^ (c + 2) : Nat) : Int) / kPageSize = Q := of_decide_eq_true hin'
          omega
        rw [List.countP_cons_of_neg hnot]
        exact h₇
      · intro b hb hbQ
        rcases List.mem_cons.mp hb with rfl | hb
        · have heq : ((P * kPageSize + (k + 1) * 2 ^ (c + 2) : Nat) : Int) / kPageSize = Q := hbQ
          omega
        · exact h₁₀ b hb hbQ
  · intro b hb
    rcases List.mem_cons.mp hb with rfl | hb
    -- the new block fits its class and lies in its page
    · exact ⟨hsz, P, hP, hoffset⟩
    · exact h.blocks b hb
  -- a live block at the same offset would be one of the first `k`, and the new one is the next
  · refine List.nodup_cons.mpr ⟨?_, h.distinct⟩
    intro hmem
    obtain ⟨b, hb, hbo⟩ := List.mem_map.mp hmem
    have hbP : b.offset / kPageSize = P := by
      rw [hbo]
      exact hoffset
    obtain ⟨i, h₁, h₂, h₃⟩ := hk.offsets b hb hbP
    have hle := Nat.mul_le_mul_right (2 ^ (c + 2)) h₂
    rw [hbo] at h₃
    have heq := Nat.add_left_cancel (Int.ofNat_inj.mp h₃)
    rw [Nat.succ_mul] at heq
    omega

/-! ## `Allocate`

The three calls put together: the list of the class has a page with room, either since it had one or since it was
refilled, and the block is taken from it. -/

/-- The head of a list with a page is that page. -/
theorem dllHead_eq (hs : Sentinel a m c P) (hne : P ≠ 2 * c + 1) (hlt : P < a.next) :
    dllHead a m (a.address (2 * c + 1 : Nat)) = some (a.address P) := by
  have hempty : dllEmpty m (a.address (2 * c + 1 : Nat)) = false := by
    unfold dllEmpty
    rw [hs.next, hs.id]
    exact decide_eq_false (by omega)
  unfold dllHead
  rw [hempty, hs.next, findPage_eq hlt]
  rfl

/-- `PageHeap::Get` of a page number below its bound is the place of that page. -/
theorem heap_get_eq {heap : PageHeap} (hmax : P < heap.max) (hP : P < 2 ^ 17) :
    heap.get P = some (heap.start + (P * kPageSize : Nat)) := by
  have hne : (P : Int) ≠ kInvalidPageID := natCast_ne_invalid P
  have hpos : (0 : Int) ≤ P := Int.natCast_nonneg P
  have hmod : (P : Int) * kPageSize % 2 ^ 32 = (P * kPageSize : Nat) := by
    unfold kPageSize
    omega
  unfold PageHeap.get
  simp only [guard, hne, hpos, hmax, hmod, if_true, Option.pure_def, Option.bind_eq_bind, Option.bind_some, ne_eq,
    not_false_eq_true]

/-- `FreeList::Allocate`, when nothing fails. -/
theorem freeListAllocate_run {list : FreeList} {heap : PageHeap} {a' : PageAllocator} {m'' : Mem} {nonempty pageStart : Int}
    {offset : Option Int} (hfind : a.findPage list.nonempty = some nonempty)
    (hrefill : list.refill a m nonempty = some (a', m', true)) (hhead : dllHead a' m' nonempty = some p)
    (hget : heap.get (page m' p).id = some pageStart) (halloc : pageAllocate m' p pageStart = some (m'', offset)) :
    list.allocate a heap m = some (a', m'', offset) := by
  unfold FreeList.allocate
  simp only [hfind, hrefill, hhead, hget, halloc, Option.bind_eq_bind, Option.bind_some, Option.pure_def]

/-- `Allocator::Allocate` runs the list of the request's class. -/
theorem allocate_run {alloc : Allocator} {list : FreeList} {pages : PageAllocator} {offset : Option Int} (hsz : sz ≤ kPageSize)
    (hcls : sizeClass (roundUpToPowerOfTwo sz) = some c) (hlist : alloc.list[c]? = some list)
    (hrun : list.allocate alloc.pages alloc.heap m = some (pages, m', offset)) :
    alloc.allocate m sz = some ({ alloc with pages := pages }, m', offset) := by
  unfold Allocator.allocate
  rw [if_neg (Nat.not_lt.mpr hsz)]
  simp only [hcls, hlist, hrun, Option.bind_eq_bind, Option.bind_some, Option.pure_def]

/-- The list of each class is there, with its sentinel. -/
theorem Region.list_eq {alloc : Allocator} (h : Region alloc) (hc : c < 11) : alloc.list[c]? = some (listOf c) := by
  rw [h.lists, List.getElem?_map, List.getElem?_range hc]
  rfl

/-- A list with room for another block: its page, new or not, has been put there. -/
theorem Serving.refill (h : Serving s pairs spare) (hc : c < 11) (hroom : HasRoom s.alloc.pages s.mem (listOf c)) :
    ∃ (a : PageAllocator) (m : Mem) (P k : Nat) (pairs' : List (Nat × Nat)) (spare' : List Nat),
      (listOf c).refill s.alloc.pages s.mem (s.alloc.pages.address (2 * c + 1 : Nat)) = some (a, m, true) ∧
      Serving ⟨{ s.alloc with pages := a }, m, s.live⟩ pairs' spare' ∧ a.start = s.alloc.pages.start ∧ (c, P) ∈ pairs' ∧
      Home m (a.address P) s.live c P k ∧ (page m (a.address P)).freeList = kInvalidOffset ∧
      (k + 2) * 2 ^ (c + 2) ≤ kPageSize := by
  -- the class has a page, whose room the condition promises, or gets a new one
  by_cases hmem : c ∈ pairs.map Prod.fst
  · obtain ⟨⟨d, P⟩, hP, rfl⟩ := List.mem_map.mp hmem
    obtain ⟨k, hk⟩ := h.home d P hP
    have hs := h.linked d P hP
    have hrange := h.page_range hP
    have hempty : dllEmpty s.mem (s.alloc.pages.address (2 * d + 1 : Nat)) = false := by
      unfold dllEmpty
      rw [hs.next, hs.id]
      exact decide_eq_false (by omega)
    have hfirst : firstPage s.alloc.pages s.mem (listOf d) = page s.mem (s.alloc.pages.address P) := by
      show page s.mem (s.alloc.pages.address (page s.mem (s.alloc.pages.address (2 * d + 1 : Nat))).next) = _
      rw [hs.next]
    rcases hroom with hnil | ⟨hfull, hroom⟩
    · have hnil' : dllEmpty s.mem (s.alloc.pages.address (2 * d + 1 : Nat)) = true := hnil
      rw [hempty] at hnil'
      cases hnil'
    · rw [hfirst] at hfull hroom
      rw [hk.free] at hroom
      refine ⟨s.alloc.pages, s.mem, P, k, pairs, spare, ?_, h, rfl, hP, hk, hfull, ?_⟩
      · unfold FreeList.refill
        rw [hempty]
        rfl
      · have hroom' : ((k * 2 ^ (d + 2) : Nat) : Int) + 2 * (2 ^ (d + 2) : Nat) ≤ kPageSize := hroom
        show (k + 2) * 2 ^ (d + 2) ≤ kPageSize
        rw [Nat.add_mul]
        omega
  · obtain ⟨a, m, P, spare', hrun, hserving, hstart, hhome, hfull⟩ := h.refill_new hc hmem
    have hpow : 2 ^ (c + 2) ≤ 2 ^ 12 := Nat.pow_le_pow_right (by omega) (by omega)
    refine ⟨a, m, P, 0, _, spare', hrun, hserving, hstart, List.mem_cons_self, hhome, hfull, ?_⟩
    unfold kPageSize
    omega

/-- **`Allocate`** hands out a block that is no live one's. -/
theorem Serving.allocate (h : Serving s pairs spare) (hsz : sz ≤ 4096)
    (hroom : ∀ list, s.alloc.list[classOf sz]? = some list → HasRoom s.alloc.pages s.mem list) :
    ∃ (a : Allocator) (m : Mem) (offset : Nat) (pairs' : List (Nat × Nat)) (spare' : List Nat),
      s.alloc.allocate s.mem sz = some (a, m, some (offset : Int)) ∧
      Serving ⟨a, m, ⟨offset, sz, classOf sz⟩ :: s.live⟩ pairs' spare' := by
  obtain ⟨c, hc, hcls, hle⟩ := sizeClass_spec hsz
  have hclass : classOf sz = c := by
    unfold classOf
    rw [hcls]
    rfl
  have hlist := h.region.list_eq hc
  rw [hclass] at hroom ⊢
  obtain ⟨a, m, P, k, pairs', spare', hrefill, hserving, hstart, hP, hhome, hfull, hk⟩ := h.refill hc (hroom _ hlist)
  have hrange := hserving.page_range hP
  have hmax := h.region.pages
  obtain ⟨m', halloc, hserving'⟩ := hserving.take hP hhome hfull hk hle (s.alloc.heap.start + (P * kPageSize : Nat))
  have haddr : s.alloc.pages.address (2 * c + 1 : Nat) = a.address (2 * c + 1 : Nat) := by
    unfold PageAllocator.address
    rw [hstart]
  have hnext := h.next_ge
  have hfind : s.alloc.pages.findPage (listOf c).nonempty = some (s.alloc.pages.address (2 * c + 1 : Nat)) :=
    findPage_eq (by omega)
  have hhead : dllHead a m (a.address (2 * c + 1 : Nat)) = some (a.address P) :=
    dllHead_eq (hserving.linked c P hP) (by omega) (hserving.page_lt_next hP)
  have hget : s.alloc.heap.get (page m (a.address P)).id = some (s.alloc.heap.start + (P * kPageSize : Nat)) := by
    rw [hhome.id]
    exact heap_get_eq (by omega) (by omega)
  rw [← haddr] at hhead
  have hrun := freeListAllocate_run hfind hrefill hhead hget halloc
  exact ⟨_, m', _, pairs', spare', allocate_run (hsz.trans (by decide)) hcls hlist hrun, hserving'⟩

end SizeClass
end Snippets
