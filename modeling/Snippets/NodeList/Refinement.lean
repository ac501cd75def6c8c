import Snippets.NodeList.Model
import Snippets.Lib.Links

/-!
# `NodeList.Refinement` — the list is a bounded double-ended sequence

`Holds s xs` says that the state keeps the sequence `xs` of ids and values: the links chain the ids up from both ends,
the allocator has exactly these slices in use, and the header counts them. Each operation is one rule about `Holds`;
together they give the answers of `BoundedDeque` for every run (`refines_boundedDeque`).
-/

namespace Snippets

open Lib

namespace NodeList

open MemoryList (Holding)
open BoundedDeque (Op Answer ids)
open Links (Chain)

variable {T : Type} {s s' : NodeList T} {e : End} {id i : NodeId} {xs : List (NodeId × T)}

/-! ## The link tables

The nodes hold two link tables, one for each direction, and each is the other turned round. A store into a node
is read here as a change of one table, so that the rules of `Lib.Links` apply. -/

/-- The links of the nodes, read from an end: `next` leads away from it. -/
def links (nodes : NodeId → Node T) (e : End) : Links NodeId :=
  ⟨fun i => (nodes i).link e.other, fun i => (nodes i).link e⟩

/-- The table of the other direction is this one turned round. -/
theorem links_other (nodes : NodeId → Node T) (e : End) : links nodes e.other = (links nodes e).flip := by
  cases e <;> rfl

/-- Setting a node's link in one direction sets its predecessor in the table of that direction, -/
theorem links_setLink (s : NodeList T) (e : End) (i v : NodeId) :
    links (s.store i fun n => n.setLink e v).nodes e = (links s.nodes e).setPrev i v := by
  unfold links store Links.setPrev
  simp only [Links.mk.injEq]
  constructor
  · funext j
    rw [Function.update_apply]
    split
    · next h => rw [h]; cases e <;> rfl
    · rfl
  · funext j
    rw [Function.update_apply]
    split
    · cases e <;> rfl
    · rfl

/-- and its successor in the table of the other. -/
theorem links_setLink_other (s : NodeList T) (e : End) (i v : NodeId) :
    links (s.store i fun n => n.setLink e.other v).nodes e = (links s.nodes e).setNext i v := by
  unfold links store Links.setNext
  simp only [Links.mk.injEq]
  constructor
  · funext j
    rw [Function.update_apply]
    split
    · cases e <;> rfl
    · rfl
  · funext j
    rw [Function.update_apply]
    split
    · next h => rw [h]; cases e <;> rfl
    · rfl

/-- A value is not a link. -/
theorem links_setVal (s : NodeList T) (e : End) (i : NodeId) (v : T) :
    links (s.store i fun n => { n with val := v }).nodes e = links s.nodes e := by
  have hlink : ∀ (d : End) (j : NodeId), (Function.update s.nodes i { s.nodes i with val := v } j).link d = (s.nodes j).link d := by
    intro d j
    rw [Function.update_apply]
    split
    · next h => rw [h]; cases d <;> rfl
    · rfl
  unfold links store
  simp only [hlink]

/-- Links do not change values. -/
theorem store_setLink_val (s : NodeList T) (e : End) (i v j : NodeId) :
    ((s.store i fun n => n.setLink e v).nodes j).val = (s.nodes j).val := by
  show (Function.update s.nodes i ((s.nodes i).setLink e v) j).val = _
  rw [Function.update_apply]
  split
  · next h => rw [h]; cases e <;> rfl
  · rfl

/-! ## What a state holds

The chains from both ends, the slices in use, the count and the values, and what can be read off them. -/

/-- The state keeps the sequence `xs`. -/
structure Holds (s : NodeList T) (xs : List (NodeId × T)) : Prop where
  chain : ∀ e : End, Chain (links s.nodes e) kInvalidNodeId kInvalidNodeId (s.header.endAt e) (e.order (ids xs))
  slices : Holding s.ml (ids xs)
  size : s.header.size = xs.length
  vals : ∀ x ∈ xs, (s.nodes x.1).val = x.2

/-- `GetNode` of a valid id, -/
theorem getNode_of_pos (h : 0 ≤ id) : s.getNode id = some (some (s.nodes id)) := by
  unfold getNode
  have hne : id ≠ kInvalidNodeId := by
    rintro rfl
    exact absurd h (by decide)
  rw [if_neg hne, if_pos h]

/-- the same when it is followed. -/
theorem node_of_pos (h : 0 ≤ id) : s.node id = some (s.nodes id) := by
  unfold node
  rw [getNode_of_pos h]
  rfl

/-- A valid id is not the invalid one. -/
theorem ne_invalid (h : 0 ≤ id) : id ≠ kInvalidNodeId := by
  rintro rfl
  exact absurd h (by decide)

namespace Holds

/-- No id is there twice, -/
theorem nodup (h : Holds s xs) : (ids xs).Nodup := h.slices.nodup

/-- and all are valid. -/
theorem valid (h : Holds s xs) (hi : i ∈ ids xs) : 0 ≤ i := h.slices.valid hi

/-- There are as many ids as elements, -/
theorem length_ids : (ids xs).length = xs.length := List.length_map _

/-- no more than slices, -/
theorem length_le (h : Holds s xs) : xs.length ≤ s.capacity := by
  have hle := h.slices.length_le
  rw [length_ids] at hle
  exact hle

/-- and as many as slices in use. -/
theorem ml_size (h : Holds s xs) : s.ml.size = xs.length := by
  rw [h.slices.size_eq, length_ids]

/-- The assert in `size()` holds. -/
theorem size_eq (h : Holds s xs) : s.size = some xs.length := by
  unfold NodeList.size
  rw [h.ml_size, h.size]
  simp

/-- The end of a list with an element there is its id. -/
theorem endAt_push {x : NodeId × T} (h : Holds s (e.push x xs)) : s.header.endAt e = x.1 := by
  have hc := h.chain e
  unfold ids at hc
  rw [End.map_push, End.order_push] at hc
  exact hc.1

/-- The pushed element is in the list. -/
theorem mem_push (e : End) (x : NodeId × T) (xs : List (NodeId × T)) : x ∈ e.push x xs := (End.perm_push e x xs).mem_iff.mpr List.mem_cons_self

/-- No end is missing from a sequence that has an element. -/
theorem endAt_ne (h : Holds s xs) (hne : xs ≠ []) (e : End) : s.header.endAt e ≠ kInvalidNodeId := by
  obtain ⟨x, rest, rfl⟩ := End.exists_push e hne
  rw [h.endAt_push]
  exact ne_invalid (h.valid (List.mem_map_of_mem (mem_push e x rest)))

/-- The ends of the empty list are invalid. -/
theorem endAt_nil (h : Holds s []) (e : End) : s.header.endAt e = kInvalidNodeId := by
  have hc := h.chain e
  unfold ids at hc
  rw [List.map_nil, End.order_nil] at hc
  exact hc

/-! ## Walking

From an end the links lead through all elements to the other end, so what is read there is read off the sequence. -/

/-- A walk along a chain meets its nodes and stops. -/
theorem walkFrom_eq {p a : NodeId} {ys : List (NodeId × T)} {fuel : Nat}
    (hc : Chain (links s.nodes e) kInvalidNodeId p a (ids ys)) (hpos : ∀ y ∈ ys, 0 ≤ y.1)
    (hv : ∀ y ∈ ys, (s.nodes y.1).val = y.2) (hfuel : ys.length < fuel) : s.walkFrom e fuel a = some ys := by
  induction ys generalizing p a fuel with
  | nil =>
      obtain ⟨fuel, rfl⟩ : ∃ n, fuel = n + 1 := ⟨fuel - 1, by omega⟩
      obtain rfl : a = kInvalidNodeId := hc
      rfl
  | cons y ys ih =>
      obtain ⟨fuel, rfl⟩ : ∃ n, fuel = n + 1 := ⟨fuel - 1, by omega⟩
      obtain ⟨rfl, -, -, hrest⟩ := hc
      have hwalk := ih hrest (fun z hz => hpos z (List.mem_cons_of_mem _ hz))
        (fun z hz => hv z (List.mem_cons_of_mem _ hz)) (by simpa using hfuel)
      unfold walkFrom
      rw [getNode_of_pos (hpos y List.mem_cons_self)]
      show (s.walkFrom e fuel ((links s.nodes e).next y.1)).map (fun rest => (y.1, (s.nodes y.1).val) :: rest) = _
      rw [hwalk, hv y List.mem_cons_self]
      rfl

/-- **Both walks meet the sequence**, from the head and from the tail. -/
theorem walk_eq (h : Holds s xs) (e : End) : s.walk e = some (e.order xs) := by
  have hc := h.chain e
  unfold ids at hc
  rw [← End.map_order] at hc
  have hmem : ∀ y, y ∈ e.order xs ↔ y ∈ xs := fun y => (End.perm_order e xs).mem_iff
  apply walkFrom_eq hc
  · intro y hy
    exact h.valid (List.mem_map_of_mem ((hmem y).mp hy))
  · intro y hy
    exact h.vals y ((hmem y).mp hy)
  · rw [(End.perm_order e xs).length_eq]
    exact Nat.lt_succ_of_le h.length_le

/-- The value at an end. -/
theorem peek_eq {x : NodeId × T} (h : Holds s (e.push x xs)) : s.peek e = some x.2 := by
  have hpos : 0 ≤ x.1 := h.valid (List.mem_map_of_mem (mem_push e x xs))
  unfold peek
  rw [h.endAt_push, node_of_pos hpos]
  simp [ne_invalid hpos, h.vals x (mem_push e x xs)]


/-! ## Pushing

The new node takes the place of the end: it is linked before the old one, or is both ends of an empty list. -/

/-- A chain from one end that stops at the other end is one from both. -/
theorem chain_both {ks : List NodeId} (hc : Chain (links s.nodes e) kInvalidNodeId kInvalidNodeId (s.header.endAt e) (e.order ks))
    (hother : s.header.endAt e.other = (e.order ks).getLastD kInvalidNodeId) (d : End) :
    Chain (links s.nodes d) kInvalidNodeId kInvalidNodeId (s.header.endAt d) (d.order ks) := by
  have hflip := hc.flip
  rw [← hother, ← links_other, ← End.order_other] at hflip
  cases e <;> cases d <;> assumption

/-- The other end is the last id, seen from here. -/
theorem endAt_other (h : Holds s xs) (e : End) :
    s.header.endAt e.other = (e.order (ids xs)).getLastD kInvalidNodeId := by
  rw [(h.chain e.other).head_eq, End.order_other]
  simp [List.headD_eq_head?_getD, List.getLastD_eq_getLast?]

end Holds

/-- What linking the new node `id` in at the end `e` does. -/
structure Linked (e : End) (id : NodeId) (s s' : NodeList T) : Prop where
  links : links s'.nodes e = Links.pushFront kInvalidNodeId (links s.nodes e) (s.header.endAt e) id
  here : s'.header.endAt e = id
  there : s'.header.endAt e.other = if s.header.endAt e = kInvalidNodeId then id else s.header.endAt e.other
  size : s'.header.size = s.header.size
  ml : s'.ml = s.ml
  vals : ∀ j, (s'.nodes j).val = (s.nodes j).val

/-- The branch for an empty list. -/
theorem linkFirst_eq (hnil : s.header.endAt e = kInvalidNodeId) (hother : s.header.endAt e.other = kInvalidNodeId) :
    ∃ s', s.linkFirst e id = some s' ∧ Linked e id s s' := by
  let s₁ := (s.setEnd e id).setEnd e.other id
  let s₂ := (s₁.store id fun n => n.setLink e kInvalidNodeId).store id fun n => n.setLink e.other kInvalidNodeId
  have hlink : s.linkFirst e id = some s₂ := by
    unfold linkFirst
    rw [hother]
    cases e <;> simp [s₂, s₁, NodeList.store, NodeList.setEnd, Node.setLink, End.other]
  refine ⟨s₂, hlink, ?_, ?_, ?_, ?_, rfl, ?_⟩
  · rw [links_setLink_other, links_setLink, hnil]
    unfold Links.pushFront Links.setPrev?
    rw [if_pos rfl]
    rfl
  · cases e <;> rfl
  · rw [if_pos hnil]
    cases e <;> rfl
  · cases e <;> rfl
  · intro j
    rw [store_setLink_val, store_setLink_val]
    rfl

/-- The stores of `linkBeyond` make the new node the first one: the assignment in the assert is overwritten. -/
theorem linkBeyond_eq (hpos : 0 ≤ s.header.endAt e) (hne : s.header.endAt e ≠ id) :
    ∃ s', s.linkBeyond e id = some s' ∧ Linked e id s s' := by
  let old := s.header.endAt e
  let s₁ := s.store old fun n => n.setLink e kInvalidNodeId
  let s₂ := s₁.store old fun n => n.setLink e id
  let s₃ := (s₂.store id fun n => n.setLink e kInvalidNodeId).store id fun n => n.setLink e.other old
  have hassert : (s₁.nodes old).link e = kInvalidNodeId := by
    have hself : s₁.nodes old = (s.nodes old).setLink e kInvalidNodeId := Function.update_self ..
    rw [hself]
    cases e <;> rfl
  have hlink : s.linkBeyond e id = some (s₃.setEnd e id) := by
    have hguard : kInvalidNodeId ≠ (0 : Int) := by decide
    unfold linkBeyond
    simp only [node_of_pos hpos, Option.bind_eq_bind, Option.bind_some]
    rw [hassert]
    simp [hguard, s₃, s₂, s₁, old]
  refine ⟨s₃.setEnd e id, hlink, ?_, ?_, ?_, ?_, rfl, ?_⟩
  · show NodeList.links s₃.nodes e = _
    rw [links_setLink_other, links_setLink, links_setLink, links_setLink]
    exact Links.pushFront_of_stores (ne_invalid hpos) hne
  · cases e <;> rfl
  · rw [if_neg (ne_invalid hpos)]
    cases e <;> rfl
  · cases e <;> rfl
  · intro j
    show (s₃.nodes j).val = _
    rw [store_setLink_val, store_setLink_val, store_setLink_val, store_setLink_val]

namespace Holds

/-- The two ways to link a new node in, by whether the list is empty. -/
theorem link_eq (h : Holds s xs) (hid : id ∉ ids xs) (ml : MemoryList) (val : T) (e : End) :
    let s₁ := { s with ml := ml }.store id fun n => { n with val := val }
    ∃ s₂, s₁.link e id = some s₂ ∧ Linked e id s₁ s₂ := by
  intro s₁
  unfold link
  have hsame : ∀ d : End, s₁.header.endAt d = s.header.endAt d := fun d => rfl
  by_cases hnil : xs = []
  · subst hnil
    rw [if_pos ((hsame e).trans (h.endAt_nil e))]
    exact linkFirst_eq ((hsame e).trans (h.endAt_nil e)) ((hsame _).trans (h.endAt_nil _))
  · rw [if_neg (fun hinv => h.endAt_ne hnil e ((hsame e).symm.trans hinv))]
    obtain ⟨x, rest, rfl⟩ := End.exists_push e hnil
    have hmem : x.1 ∈ ids (e.push x rest) := List.mem_map_of_mem (mem_push e x rest)
    have hold : s₁.header.endAt e = x.1 := h.endAt_push
    apply linkBeyond_eq
    · rw [hold]
      exact h.valid hmem
    · rw [hold]
      rintro rfl
      exact hid hmem

/-- **A push into a list with room** puts a new node at that end. -/
theorem push (h : Holds s xs) (hroom : xs.length < s.capacity) (e : End) (val : T) :
    ∃ s' id, s.push e val = some (s', id) ∧ id ≠ kInvalidNodeId ∧ id ∉ ids xs ∧ Holds s' (e.push (id, val) xs) ∧
      s'.capacity = s.capacity := by
  have hsmall : s.ml.capacity < 2 ^ 31 := h.slices.fits.small
  have hnotFull : s.ml.full = false := by
    have hsize := h.ml_size
    unfold MemoryList.size at hsize
    unfold MemoryList.full
    rw [hsize]
    exact beq_false_of_ne (Nat.ne_of_lt hroom)
  obtain ⟨ml, id, hget, hpos, hnew, hslices, hcap⟩ := h.slices.getSlice (by rw [length_ids]; exact hroom)
  obtain ⟨s₂, hlink, hl⟩ := h.link_eq hnew ml val e
  have hids : ids (e.push (id, val) xs) = e.push id (ids xs) := End.map_push e Prod.fst _ _
  refine ⟨s₂.setSize (s₂.header.size + 1), id, ?_, ne_invalid hpos, hnew, ?_, ?_⟩
  · unfold NodeList.push
    rw [hnotFull]
    simp only [Bool.false_eq_true, if_false, hget, Option.bind_eq_bind, Option.bind_some, node_of_pos hpos, hlink]
    rfl
  · constructor
    · -- the chain from this end gets the node in front, and so the other end gets it behind
      intro d
      rw [hids]
      apply chain_both (e := e)
      · show Chain (NodeList.links s₂.nodes e) _ _ (s₂.header.endAt e) _
        rw [hl.links, hl.here, End.order_push, links_setVal]
        apply (h.chain e).pushFront
        · exact (End.perm_order e _).nodup_iff.mpr h.nodup
        · exact ne_invalid hpos
        · rw [(End.perm_order e _).mem_iff]
          exact hnew
      -- the other end changes only when the list was empty
      · show s₂.header.endAt e.other = _
        rw [hl.there, End.order_push, List.getLastD_cons]
        show (if s.header.endAt e = kInvalidNodeId then id else s.header.endAt e.other) = _
        by_cases hnil : xs = []
        · subst hnil
          rw [if_pos (h.endAt_nil e)]
          cases e <;> rfl
        · rw [if_neg (h.endAt_ne hnil e), h.endAt_other e]
          have hne : e.order (ids xs) ≠ [] := by
            intro hempty
            have hlen := (End.perm_order e (ids xs)).length_eq
            rw [hempty, length_ids] at hlen
            exact hnil (List.length_eq_zero_iff.mp hlen.symm)
          obtain ⟨k, ks, hks⟩ := List.exists_cons_of_ne_nil hne
          rw [hks, List.getLastD_cons, List.getLastD_cons]
    · rw [hids]
      have hml : s₂.ml = ml := hl.ml
      show Holding s₂.ml _
      rw [hml]
      exact hslices.perm (End.perm_push e id (ids xs)).symm
    -- the count, which fits its type since the capacity does
    · have hsize : s₂.header.size = xs.length := hl.size.trans h.size
      have hcapacity : xs.length < s.ml.capacity := hroom
      show toSize (s₂.header.size + 1) = _
      rw [hsize, toSize_of_range (by omega) (by omega), (End.perm_push e (id, val) xs).length_eq, List.length_cons]
      omega
    -- and the values: the new one where it was stored, the others untouched
    · intro x hx
      show (s₂.nodes x.1).val = _
      rw [hl.vals]
      show (Function.update s.nodes id { s.nodes id with val := val } x.1).val = _
      rcases List.mem_cons.mp ((End.perm_push e (id, val) xs).mem_iff.mp hx) with rfl | hx
      · rw [Function.update_self]
      · rw [Function.update_of_ne]
        · exact h.vals x hx
        · intro hxid
          exact hnew (hxid ▸ List.mem_map_of_mem hx)
  · show s₂.ml.capacity = s.ml.capacity
    rw [hl.ml]
    exact hcap

/-- A push into a full list does nothing. -/
theorem push_full (h : Holds s xs) (hfull : xs.length = s.capacity) (e : End) (val : T) :
    s.push e val = some (s, kInvalidNodeId) := by
  have hsize := h.ml_size
  have htrue : s.ml.full = true := by
    unfold MemoryList.size at hsize
    unfold MemoryList.full
    rw [hsize, hfull]
    exact beq_self_eq_true _
  unfold NodeList.push
  rw [htrue]
  rfl

end Holds

/-! ## Taking out

`unlink` bridges the node from both sides. The source writes either a neighbour's link or an end of the header;
on the tables both are the same removal. -/

/-- What taking the node `id` out does to nodes and ends. -/
structure Unlinked (id : NodeId) (s s' : NodeList T) : Prop where
  links : links s'.nodes .front = Links.unlink kInvalidNodeId (links s.nodes .front) id
  head : s'.header.head = if (s.nodes id).prev = kInvalidNodeId then (s.nodes id).next else s.header.head
  tail : s'.header.tail = if (s.nodes id).next = kInvalidNodeId then (s.nodes id).prev else s.header.tail
  size : s'.header.size = toSize (s.header.size - 1)
  vals : ∀ j, (s'.nodes j).val = (s.nodes j).val

/-- The links of `Unlink` that go past the node: first those of the nodes before it, or `head`. -/
def passFront (s : NodeList T) (id : NodeId) : NodeList T :=
  if (s.nodes id).prev = kInvalidNodeId then s.setEnd .front (s.nodes id).next
  else s.store (s.nodes id).prev fun n => n.setLink .back (s.nodes id).next

/-- Then those of the nodes behind it, or `tail`. -/
def passBack (s : NodeList T) (id : NodeId) : NodeList T :=
  if (s.nodes id).next = kInvalidNodeId then s.setEnd .back (s.nodes id).prev
  else s.store (s.nodes id).next fun n => n.setLink .front (s.nodes id).prev

/-- The first bridge on the table from the front, -/
theorem passFront_links : links (s.passFront id).nodes .front =
    Links.setNext? kInvalidNodeId (links s.nodes .front) (s.nodes id).prev (s.nodes id).next := by
  unfold passFront Links.setNext?
  split
  · rfl
  · exact links_setLink_other s .front _ _

/-- and the second. -/
theorem passBack_links : links (s.passBack id).nodes .front =
    Links.setPrev? kInvalidNodeId (links s.nodes .front) (s.nodes id).next (s.nodes id).prev := by
  unfold passBack Links.setPrev?
  split
  · rfl
  · exact links_setLink s .front _ _

/-- Neither changes a value. -/
theorem passFront_vals (j : NodeId) : ((s.passFront id).nodes j).val = (s.nodes j).val := by
  unfold passFront
  split
  · rfl
  · exact store_setLink_val s .back _ _ j

/-- The second one neither. -/
theorem passBack_vals (j : NodeId) : ((s.passBack id).nodes j).val = (s.nodes j).val := by
  unfold passBack
  split
  · rfl
  · exact store_setLink_val s .front _ _ j

/-- Going past the node in front of it does not change the node's own links, unless it were its own neighbour. -/
theorem passFront_node (hself : (s.nodes id).prev ≠ id) : (s.passFront id).nodes id = s.nodes id := by
  unfold passFront
  split
  · rfl
  · exact Function.update_of_ne (Ne.symm hself) _ _

/-- The head changes when the node had no predecessor, -/
theorem passFront_header : (s.passFront id).header =
    if (s.nodes id).prev = kInvalidNodeId then { s.header with head := (s.nodes id).next } else s.header := by
  unfold passFront
  split <;> rfl

/-- and the tail when it had no successor. -/
theorem passBack_header : (s.passBack id).header =
    if (s.nodes id).next = kInvalidNodeId then { s.header with tail := (s.nodes id).prev } else s.header := by
  unfold passBack
  split <;> rfl

/-- `GetNode` gives a node exactly for an id that is not the invalid one. -/
theorem getNode_isSome (h : id = kInvalidNodeId ∨ 0 ≤ id) :
    ∃ node, s.getNode id = some node ∧ (node.isSome = true ↔ id ≠ kInvalidNodeId) := by
  rcases h with rfl | hpos
  · refine ⟨none, rfl, ?_⟩
    simp
  · refine ⟨some (s.nodes id), getNode_of_pos hpos, ?_⟩
    simp [ne_invalid hpos]

/-- **`Unlink` of a node** whose neighbours are nodes. -/
theorem unlink_eq {ml : MemoryList} (hpos : 0 ≤ id)
    (hprev : (s.nodes id).prev = kInvalidNodeId ∨ 0 ≤ (s.nodes id).prev)
    (hnext : (s.nodes id).next = kInvalidNodeId ∨ 0 ≤ (s.nodes id).next) (hself : (s.nodes id).prev ≠ id)
    (hfree : s.ml.freeSlice id = some ml) :
    ∃ s', s.unlink id = some (s', (s.nodes id).val) ∧ Unlinked id s s' ∧ s'.ml = ml := by
  obtain ⟨prev, hgetPrev, hprevSome⟩ := getNode_isSome (s := s) hprev
  obtain ⟨next, hgetNext, hnextSome⟩ := getNode_isSome (s := s) hnext
  let s₁ := s.passFront id
  let s₂ := s₁.passBack id
  have hnode : s₁.nodes id = s.nodes id := passFront_node hself
  have hml : s₂.ml = s.ml := by
    unfold s₂ s₁ passBack passFront
    split <;> split <;> rfl
  -- the source's two branches, as the two bridges
  have hfirst : (if prev.isSome = true then s.store (s.nodes id).prev fun n => { n with next := (s.nodes id).next }
      else s.setEnd .front (s.nodes id).next) = s₁ := by
    unfold s₁ passFront
    by_cases hp : (s.nodes id).prev = kInvalidNodeId
    · rw [if_pos hp, if_neg (fun h => hprevSome.mp h hp)]
    · rw [if_neg hp, if_pos (hprevSome.mpr hp)]
      rfl
  have hsecond : (if next.isSome = true then s₁.store (s.nodes id).next fun n => { n with prev := (s₁.nodes id).prev }
      else s₁.setEnd .back (s₁.nodes id).prev) = s₂ := by
    unfold s₂ passBack
    rw [hnode]
    by_cases hn : (s.nodes id).next = kInvalidNodeId
    · rw [if_pos hn, if_neg (fun h => hnextSome.mp h hn)]
    · rw [if_neg hn, if_pos (hnextSome.mpr hn)]
      rfl
  have hfree' : (s₂.setSize (s₂.header.size - 1)).ml.freeSlice id = some ml := by
    show s₂.ml.freeSlice id = _
    rw [hml]
    exact hfree
  have hval : ((s₂.setSize (s₂.header.size - 1)).nodes id).val = (s.nodes id).val := by
    show (s₂.nodes id).val = _
    rw [passBack_vals, passFront_vals]
  refine ⟨{ s₂.setSize (s₂.header.size - 1) with ml := ml }, ?_, ?_, rfl⟩
  · have hguard : id ≠ kInvalidNodeId := ne_invalid hpos
    unfold NodeList.unlink
    simp only [guard, hguard, ne_eq, not_false_eq_true, if_true, node_of_pos hpos, Option.bind_eq_bind,
      Option.pure_def, Option.bind_some, hgetPrev, hgetNext, hfirst, hsecond, hfree', hval]
  · have hheader : s₂.header.size = s.header.size := by
      rw [passBack_header, passFront_header]
      split <;> split <;> rfl
    constructor
    · show NodeList.links s₂.nodes .front = _
      rw [passBack_links, passFront_links, hnode]
      rfl
    · show s₂.header.head = _
      rw [passBack_header, passFront_header]
      split <;> split <;> rfl
    · show s₂.header.tail = _
      rw [passBack_header, passFront_header, hnode]
      split <;> split <;> rfl
    · show toSize (s₂.header.size - 1) = _
      rw [hheader]
    · intro j
      show (s₂.nodes j).val = _
      rw [passBack_vals, passFront_vals]

/-- The table of either direction lacks the node afterwards, -/
theorem Unlinked.links_end (h : Unlinked id s s') (e : End) :
    NodeList.links s'.nodes e = Links.unlink kInvalidNodeId (NodeList.links s.nodes e) id := by
  cases e with
  | front => exact h.links
  | back =>
      have hflip : NodeList.links s'.nodes .back = (NodeList.links s'.nodes .front).flip := links_other _ .front
      rw [hflip, h.links, Links.flip_unlink]
      rfl

/-- and an end that was the node is its neighbour. -/
theorem Unlinked.endAt (h : Unlinked id s s') (e : End) : s'.header.endAt e =
    if (s.nodes id).link e = kInvalidNodeId then (s.nodes id).link e.other else s.header.endAt e := by
  cases e with
  | front => exact h.head
  | back => exact h.tail

/-- Taking one out of a list without repetitions. -/
theorem erase_order {as bs : List (NodeId × T)} {x : NodeId × T} (hnd : (ids (as ++ x :: bs)).Nodup) (e : End) :
    (e.order (ids (as ++ x :: bs))).erase x.1 = e.order (ids (as ++ bs)) := by
  unfold ids at hnd ⊢
  rw [List.map_append, List.map_cons] at hnd ⊢
  rw [List.map_append]
  obtain ⟨-, hbs, hdisj⟩ := List.nodup_append.mp hnd
  have has : x.1 ∉ as.map Prod.fst := fun hm => hdisj _ hm _ List.mem_cons_self rfl
  cases e with
  | front =>
      show (as.map Prod.fst ++ x.1 :: bs.map Prod.fst).erase x.1 = _
      rw [List.erase_append_right _ has, List.erase_cons_head]
      rfl
  | back =>
      have hbs' : x.1 ∉ (bs.map Prod.fst).reverse := by
        rw [List.mem_reverse]
        exact (List.nodup_cons.mp hbs).1
      show (as.map Prod.fst ++ x.1 :: bs.map Prod.fst).reverse.erase x.1 = (as.map Prod.fst ++ bs.map Prod.fst).reverse
      rw [List.reverse_append, List.reverse_cons, List.append_assoc, List.singleton_append,
        List.erase_append_right _ hbs', List.erase_cons_head, List.reverse_append]

namespace Holds

variable {as bs : List (NodeId × T)} {x : NodeId × T}

/-- The successor of a node in the middle. -/
theorem next_eq (h : Holds s (as ++ x :: bs)) : (s.nodes x.1).next = (ids bs).headD kInvalidNodeId := by
  have hc : ∀ {p a : NodeId} (ks : List NodeId), Chain (links s.nodes .front) kInvalidNodeId p a (ks ++ x.1 :: ids bs) →
      (s.nodes x.1).next = (ids bs).headD kInvalidNodeId := by
    intro p a ks
    induction ks generalizing p a with
    | nil =>
        intro hc
        exact hc.2.2.2.head_eq
    | cons k ks ih =>
        intro hc
        exact ih hc.2.2.2
  have hfront := h.chain .front
  unfold ids at hfront
  rw [List.map_append, List.map_cons] at hfront
  exact hc _ hfront

/-- `Unlink` of a live id finds its neighbours. -/
theorem unlinked (h : Holds s (as ++ x :: bs)) :
    ∃ s' ml, s.unlink x.1 = some (s', x.2) ∧ Unlinked x.1 s s' ∧ s'.ml = ml ∧ Holding ml ((ids (as ++ x :: bs)).erase x.1) ∧
      ml.capacity = s.ml.capacity := by
  have hx : x ∈ as ++ x :: bs := List.mem_append_right _ List.mem_cons_self
  have hi : x.1 ∈ ids (as ++ x :: bs) := List.mem_map_of_mem hx
  have hinvalid : kInvalidNodeId ∉ ids (as ++ x :: bs) := fun hin => (h.chain .front).ne_nil _ hin rfl
  obtain ⟨ml, hfree, hslices, hcap⟩ := h.slices.freeSlice hi
  have hprev : (s.nodes x.1).prev = kInvalidNodeId ∨ 0 ≤ (s.nodes x.1).prev := by
    rcases (h.chain .front).prev_mem hi with ⟨-, hnil⟩ | hin
    · exact Or.inl hnil
    · exact Or.inr (h.valid hin)
  have hnext : (s.nodes x.1).next = kInvalidNodeId ∨ 0 ≤ (s.nodes x.1).next := by
    rcases (h.chain .front).next_mem hi with hnil | hin
    · exact Or.inl hnil
    · exact Or.inr (h.valid hin)
  have hself : (s.nodes x.1).prev ≠ x.1 := (h.chain .front).prev_ne_self h.nodup hinvalid hi
  obtain ⟨s', hunlink, hu, hml⟩ := unlink_eq (h.valid hi) hprev hnext hself hfree
  rw [h.vals x hx] at hunlink
  exact ⟨s', ml, hunlink, hu, hml, hslices, hcap⟩

/-- **`Unlink` of a live id** takes its element out and leaves the others as they are. -/
theorem unlink (h : Holds s (as ++ x :: bs)) :
    ∃ s', s.unlink x.1 = some (s', x.2) ∧ Holds s' (as ++ bs) ∧ s'.capacity = s.capacity := by
  have hx : x ∈ as ++ x :: bs := List.mem_append_right _ List.mem_cons_self
  have hi : x.1 ∈ ids (as ++ x :: bs) := List.mem_map_of_mem hx
  have hmem : ∀ e : End, x.1 ∈ e.order (ids (as ++ x :: bs)) := fun e => (End.perm_order e _).mem_iff.mpr hi
  have hinvalid : ∀ e : End, kInvalidNodeId ∉ e.order (ids (as ++ x :: bs)) := fun e hin => (h.chain e).ne_nil _ hin rfl
  have hnd : ∀ e : End, (e.order (ids (as ++ x :: bs))).Nodup := fun e => (End.perm_order e _).nodup_iff.mpr h.nodup
  obtain ⟨s', ml, hunlink, hu, hml, hslices, hcap⟩ := h.unlinked
  have hsmall : s.ml.capacity < 2 ^ 31 := h.slices.fits.small
  have hle : (as ++ x :: bs).length ≤ s.ml.capacity := h.length_le
  refine ⟨s', hunlink, ?_, ?_⟩
  · constructor
    -- the chains, by the rule for taking an id out of one
    · intro e
      have hchain := (h.chain e).unlink (hnd e) (hinvalid e) (hmem e)
      rw [erase_order h.nodup] at hchain
      rw [hu.links_end, hu.endAt]
      have hiff : (s.nodes x.1).link e = kInvalidNodeId ↔ s.header.endAt e = x.1 :=
        (h.chain e).prev_eq_nil_iff (hmem e)
      by_cases hfirst : s.header.endAt e = x.1
      · rw [if_pos (hiff.mpr hfirst)]
        rw [if_pos hfirst] at hchain
        exact hchain
      · rw [if_neg (mt hiff.mp hfirst)]
        rw [if_neg hfirst] at hchain
        exact hchain
    -- the slices in use, and the count
    · have herase : (ids (as ++ x :: bs)).erase x.1 = ids (as ++ bs) := erase_order h.nodup .front
      rw [hml, ← herase]
      exact hslices
    · rw [hu.size, h.size, List.length_append, List.length_cons, List.length_append] at *
      rw [toSize_of_range (by omega) (by omega)]
      omega
    · intro y hy
      rw [hu.vals]
      apply h.vals
      rcases List.mem_append.mp hy with hy | hy
      · exact List.mem_append_left _ hy
      · exact List.mem_append_right _ (List.mem_cons_of_mem _ hy)
  · show s'.ml.capacity = s.ml.capacity
    rw [hml]
    exact hcap

/-- `erase` also answers with the id behind. -/
theorem erase (h : Holds s (as ++ x :: bs)) :
    ∃ s', s.erase x.1 = some (s', (ids bs).headD kInvalidNodeId) ∧ Holds s' (as ++ bs) ∧ s'.capacity = s.capacity := by
  have hpos : 0 ≤ x.1 := h.valid (List.mem_map_of_mem (List.mem_append_right _ List.mem_cons_self))
  have hguard := ne_invalid hpos
  obtain ⟨s', hunlink, h', hcap⟩ := h.unlink
  refine ⟨s', ?_, h', hcap⟩
  unfold NodeList.erase
  simp [hguard, node_of_pos hpos, hunlink, h.next_eq]

/-- `pop` takes out what is at the end. -/
theorem pop (h : Holds s (e.push x xs)) :
    ∃ s', s.pop e = some (s', x.2) ∧ Holds s' xs ∧ s'.capacity = s.capacity := by
  have hne : e.push x xs ≠ [] := List.ne_nil_of_mem (mem_push e x xs)
  have hhead : s.header.head ≠ kInvalidNodeId := h.endAt_ne hne .front
  have htail : s.header.tail ≠ kInvalidNodeId := h.endAt_ne hne .back
  have hpop : s.pop e = s.unlink x.1 := by
    unfold NodeList.pop
    simp [hhead, htail, h.endAt_push]
  rw [hpop]
  cases e with
  | front =>
      have h' : Holds s ([] ++ x :: xs) := h
      exact h'.unlink
  | back =>
      have h' : Holds s (xs ++ x :: []) := h
      obtain ⟨s', hunlink, hs', hcap⟩ := h'.unlink
      rw [List.append_nil] at hs'
      exact ⟨s', hunlink, hs', hcap⟩

/-- A list without slices in use is empty. -/
theorem nil_of_slices {ml : MemoryList} {nodes : NodeId → Node T} {magic : Int} (hml : Holding ml []) :
    Holds ⟨⟨magic, 0, kInvalidNodeId, kInvalidNodeId⟩, ml, nodes⟩ [] := by
  refine ⟨?_, hml, rfl, ?_⟩
  · intro e
    cases e <;> rfl
  · intro y hy
    cases hy

/-- `clear` leaves the empty list. -/
theorem clear (h : Holds s xs) : ∃ s', s.clear = some s' ∧ Holds s' [] ∧ s'.capacity = s.capacity := by
  obtain ⟨ml, hclear, hslices, hcap⟩ := h.slices.clear
  refine ⟨⟨⟨s.header.magicNumber, 0, kInvalidNodeId, kInvalidNodeId⟩, ml, s.nodes⟩, ?_, nil_of_slices hslices, hcap⟩
  unfold NodeList.clear
  rw [hclear]
  rfl

end Holds

/-! ## Runs

One call at a time: its answer is the one of the bounded sequence, and the state holds the sequence afterwards. -/

/-- What the call `push` does, -/
theorem step_push (s : NodeList T) (e : End) (val : T) :
    s.step (.push e val) = (s.push e val).map fun r => (r.1, .pushed r.2) := by
  cases e <;> rfl

/-- the call `pop`, -/
theorem step_pop (s : NodeList T) (e : End) : s.step (.pop e) = (s.pop e).map fun r => (r.1, .value r.2) := by
  cases e <;> rfl

/-- and the call `peek`. -/
theorem step_peek (s : NodeList T) (e : End) : s.step (.peek e) = (s.peek e).map fun val => (s, .value val) := by
  cases e <;> rfl

/-- The element behind an id in use. -/
theorem exists_split (hi : i ∈ ids xs) : ∃ as x bs, xs = as ++ x :: bs ∧ x.1 = i := by
  obtain ⟨x, hx, rfl⟩ := List.mem_map.mp hi
  obtain ⟨as, bs, rfl⟩ := List.append_of_mem hx
  exact ⟨as, x, bs, rfl, rfl⟩

/-- **One call**: the list does what the sequence allows. -/
theorem Holds.step (h : Holds s xs) {op : Op NodeId T} (hop : BoundedDeque.Legal xs op) :
    ∃ s' answer xs', s.step op = some (s', answer) ∧
      BoundedDeque.Step kInvalidNodeId s.capacity xs (op, answer) xs' ∧ Holds s' xs' ∧ s'.capacity = s.capacity := by
  cases op with
  | push e val =>
      rw [step_push]
      rcases Nat.lt_or_eq_of_le h.length_le with hroom | hfull
      · obtain ⟨s', id, hpush, hid, hnew, h', hcap⟩ := h.push hroom e val
        rw [hpush]
        exact ⟨s', _, _, rfl, .push hroom hid hnew, h', hcap⟩
      · rw [h.push_full hfull]
        exact ⟨s, _, xs, rfl, .full hfull, h, rfl⟩
  | pop e =>
      obtain ⟨x, rest, rfl⟩ := End.exists_push e hop
      obtain ⟨s', hpop, h', hcap⟩ := h.pop
      rw [step_pop, hpop]
      exact ⟨s', _, rest, rfl, .pop, h', hcap⟩
  | peek e =>
      obtain ⟨x, rest, rfl⟩ := End.exists_push e hop
      rw [step_peek, h.peek_eq]
      exact ⟨s, _, _, rfl, .peek, h, rfl⟩
  | unlink i =>
      obtain ⟨as, x, bs, rfl, rfl⟩ := exists_split hop
      obtain ⟨s', hunlink, h', hcap⟩ := h.unlink
      refine ⟨s', .value x.2, as ++ bs, ?_, .unlink, h', hcap⟩
      show (s.unlink x.1).map _ = _
      rw [hunlink]
      rfl
  | erase i =>
      obtain ⟨as, x, bs, rfl, rfl⟩ := exists_split hop
      obtain ⟨s', herase, h', hcap⟩ := h.erase
      refine ⟨s', .position ((ids bs).headD kInvalidNodeId), as ++ bs, ?_, .erase, h', hcap⟩
      show (s.erase x.1).map _ = _
      rw [herase]
      rfl
  | size =>
      refine ⟨s, .counted xs.length, xs, ?_, .size, h, rfl⟩
      show s.size.map _ = _
      rw [h.size_eq]
      rfl
  | clear =>
      obtain ⟨s', hclear, h', hcap⟩ := h.clear
      refine ⟨s', .cleared, [], ?_, .clear, h', hcap⟩
      show s.clear.map _ = _
      rw [hclear]
      rfl

/-- A client that keeps to the rules: each call is legal for the sequence that the calls before it have made. -/
def LegalCalls (s : NodeList T) (xs : List (NodeId × T)) : List (Op NodeId T) → Prop
  | [] => True
  | op :: ops => BoundedDeque.Legal xs op ∧ ∀ s' answer xs', s.step op = some (s', answer) →
      BoundedDeque.Step kInvalidNodeId s.capacity xs (op, answer) xs' → LegalCalls s' xs' ops

/-- **Any number of calls.** -/
theorem Holds.exec (h : Holds s xs) {ops : List (Op NodeId T)} (hops : LegalCalls s xs ops) :
    ∃ s' answers xs', s.exec ops = some (s', answers) ∧
      Run (BoundedDeque.Step kInvalidNodeId s.capacity) xs (ops.zip answers) xs' ∧ Holds s' xs' := by
  induction ops generalizing s xs with
  | nil => exact ⟨s, [], xs, rfl, .refl, h⟩
  | cons op ops ih =>
      obtain ⟨hop, hrest⟩ := hops
      obtain ⟨s₁, answer, xs₁, hstep, hspec, h₁, hcap⟩ := h.step hop
      obtain ⟨s', answers, xs', hexec, hrun, h'⟩ := ih h₁ (hrest s₁ answer xs₁ hstep hspec)
      rw [hcap] at hrun
      refine ⟨s', answer :: answers, xs', ?_, (Run.single hspec).trans hrun, h'⟩
      unfold NodeList.exec
      rw [hstep]
      simp only [hexec, Option.map_some]

/-! ## From `CreateFrom` on

A created list holds the empty sequence, and so every run from there is one of the bounded sequence. -/

/-- What a state shows of the sequence it keeps. -/
structure Shows (s : NodeList T) (xs : List (NodeId × T)) : Prop where
  forward : s.walk .front = some xs
  backward : s.walk .back = some xs.reverse
  headerSize : s.header.size = xs.length
  mlSize : s.ml.size = xs.length
  size : s.size = some xs.length
  full : ∀ e val, s.push e val = some (s, kInvalidNodeId) ↔ s.size = some s.capacity
  refused : ∀ e val s', s.push e val = some (s', kInvalidNodeId) → s' = s

/-- What a client sees of the list is the sequence. -/
theorem Holds.shows (h : Holds s xs) : Shows s xs := by
  have hfull : ∀ e val, s.size = some s.capacity → s.push e val = some (s, kInvalidNodeId) := by
    intro e val hsize
    rw [h.size_eq] at hsize
    exact h.push_full (Option.some.inj hsize) e val
  have hroom : ∀ e val s', s.push e val = some (s', kInvalidNodeId) → s.size = some s.capacity := by
    intro e val s' hpush
    rw [h.size_eq]
    rcases Nat.lt_or_eq_of_le h.length_le with hlt | heq
    · obtain ⟨t, id, hpush', hid, -⟩ := h.push hlt e val
      rw [hpush] at hpush'
      exact absurd (Prod.mk.inj (Option.some.inj hpush')).2.symm hid
    · rw [heq]
  refine ⟨h.walk_eq .front, h.walk_eq .back, h.size, h.ml_size, h.size_eq, ?_, ?_⟩
  · intro e val
    exact ⟨hroom e val s, hfull e val⟩
  · intro e val s' hpush
    have hsame := hfull e val (hroom e val s' hpush)
    rw [hsame] at hpush
    exact (Prod.mk.inj (Option.some.inj hpush)).1.symm

section Created

variable {start len nodeSize : Nat} {mem : Mem} {nodes : NodeId → Node T} {s₀ : NodeList T} {ops : List (Op NodeId T)}

/-- A new list is empty, as long as the sums the allocator computes over its buffer fit. -/
theorem holds_createFrom (hfit : MemoryList.SumsFit (start + kHeaderSize) (len - kHeaderSize) nodeSize)
    (hc : createFrom start len nodeSize mem nodes = some (some s₀)) : Holds s₀ [] := by
  unfold createFrom at hc
  split at hc
  · cases hc
  · obtain ⟨a, ha, hmap⟩ := Option.map_eq_some_iff.mp hc
    obtain ⟨ml, rfl, hs⟩ := Option.map_eq_some_iff.mp hmap
    rw [← hs]
    exact Holds.nil_of_slices (MemoryList.holding_createFrom hfit ha)

/-- **The list refines a bounded double-ended sequence.** Whatever is called, no assert fails, the answers are those of
    the sequence, and the state that is reached shows it from both ends. -/
theorem refines_boundedDeque (hfit : MemoryList.SumsFit (start + kHeaderSize) (len - kHeaderSize) nodeSize)
    (hc : createFrom start len nodeSize mem nodes = some (some s₀)) (hops : LegalCalls s₀ [] ops) :
    ∃ s answers xs, s₀.exec ops = some (s, answers) ∧
      Run (BoundedDeque.Step kInvalidNodeId s₀.capacity) [] (ops.zip answers) xs ∧ Shows s xs := by
  obtain ⟨s, answers, xs, hexec, hrun, h⟩ := (holds_createFrom hfit hc).exec hops
  exact ⟨s, answers, xs, hexec, hrun, h.shows⟩

/-- A buffer with room for two nodes of 16 bytes. -/
theorem createFrom_two : ∃ s₀ : NodeList Nat, createFrom 4096 120 16 (fun _ => 0) (fun _ => ⟨0, 0, 0⟩) = some (some s₀) ∧
    s₀.capacity = 2 := by
  have hc : (createFrom 4096 120 16 (fun _ => 0) (fun _ => (⟨0, 0, 0⟩ : Node Nat))).join.map capacity = some 2 := by
    decide +kernel
  obtain ⟨s₀, hj, hcap⟩ := Option.map_eq_some_iff.mp hc
  exact ⟨s₀, Option.join_eq_some_iff.mp hj, hcap⟩

/-- The list of two is filled, refuses a third value, and gives up the first one by its handle and the other from the
    end. -/
def fiveCalls : List (Op NodeId Nat) := [.push .front 7, .push .back 8, .push .back 9, .unlink 0, .pop .back]

/-- Two pushes from either end, a third that is refused, and two elements taken out. -/
theorem exec_fiveCalls : ∃ s₀ : NodeList Nat,
    createFrom 4096 120 16 (fun _ => 0) (fun _ => ⟨0, 0, 0⟩) = some (some s₀) ∧ LegalCalls s₀ [] fiveCalls ∧
      (s₀.exec fiveCalls).map Prod.snd = some [.pushed 0, .pushed 1, .pushed (-1), .value 7, .value 8] := by
  have hc : ((createFrom 4096 120 16 (fun _ => 0) (fun _ => (⟨0, 0, 0⟩ : Node Nat))).join.bind fun s₀ =>
      (s₀.step (.push .front 7)).bind fun r => (r.1.step (.push .back 8)).bind fun r' =>
        (r'.1.step (.push .back 9)).map fun r'' =>
          decide (r.2 = .pushed 0 ∧ r'.2 = .pushed 1 ∧ r''.2 = .pushed (-1) ∧ (s₀.exec fiveCalls).map Prod.snd =
            some [.pushed 0, .pushed 1, .pushed (-1), .value 7, .value 8])) = some true := by
    decide +kernel
  simp only [Option.bind_eq_some_iff, Option.map_eq_some_iff, decide_eq_true_eq] at hc
  obtain ⟨s₀, hj, ⟨s₁, _⟩, hpush₁, ⟨s₂, _⟩, hpush₂, ⟨s₃, _⟩, hpush₃, rfl, rfl, rfl, hanswers⟩ := hc
  refine ⟨s₀, Option.join_eq_some_iff.mp hj, ?_, Option.map_eq_some_iff.mpr hanswers⟩
  refine ⟨trivial, fun _ _ xs₁ h₁ hseq₁ => ?_⟩
  cases hpush₁.symm.trans h₁
  obtain rfl : xs₁ = [(0, 7)] := hseq₁.of_pushed (by decide)
  refine ⟨trivial, fun _ _ xs₂ h₂ hseq₂ => ?_⟩
  cases hpush₂.symm.trans h₂
  obtain rfl : xs₂ = [(0, 7), (1, 8)] := hseq₂.of_pushed (by decide)
  refine ⟨trivial, fun _ _ xs₃ h₃ hseq₃ => ?_⟩
  cases hpush₃.symm.trans h₃
  obtain rfl : xs₃ = [(0, 7), (1, 8)] := hseq₃.of_refused
  refine ⟨List.mem_cons_self, fun _ _ xs₄ _ hseq₄ => ⟨?_, fun _ _ _ _ _ => trivial⟩⟩
  rintro rfl
  exact absurd hseq₄.length_unlink (by decide)

/-- So this list of two slices shows what the sequence is after the five calls. -/
theorem refines_boundedDeque_fiveCalls : ∃ (s₀ s : NodeList Nat) (xs : List (NodeId × Nat)),
    createFrom 4096 120 16 (fun _ => 0) (fun _ => ⟨0, 0, 0⟩) = some (some s₀) ∧
      s₀.exec fiveCalls = some (s, [.pushed 0, .pushed 1, .pushed (-1), .value 7, .value 8]) ∧ Shows s xs := by
  obtain ⟨s₀, hc, hops, hanswers⟩ := exec_fiveCalls
  obtain ⟨s, answers, xs, hexec, -, hshows⟩ := refines_boundedDeque (by decide) hc hops
  rw [hexec] at hanswers
  obtain rfl := Option.some.inj hanswers
  exact ⟨s₀, s, xs, hc, hexec, hshows⟩

end Created

end NodeList
end Snippets
