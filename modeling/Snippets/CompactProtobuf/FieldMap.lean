import Mathlib.Data.List.Forall2
import Snippets.CompactProtobuf.Message

/-!
# `CompactProtobuf.FieldMap` — the ordered map of fields

`boost::ptr_map<int, Field>` as an ordered list. `Sorted` is its invariant; under it a lookup finds the one field
with the key, and `Message::Init`'s transfer of the unknown fields splits the map in two.
-/

namespace Snippets

open Lib

namespace CompactProtobuf

/-! ## Membership

Where the fields of a changed map come from; these hold of any list, in order or not. -/

/-- A map with a field put in has that field and the old ones. -/
theorem FieldMap.mem_insert {f g : Field} {fields : FieldMap} : g ∈ FieldMap.insert f fields ↔ g = f ∨ g ∈ fields := by
  induction fields with
  | nil => simp [FieldMap.insert]
  | cons h fields ih =>
      unfold FieldMap.insert
      split
      · rw [List.mem_cons]
      · rw [List.mem_cons, ih, List.mem_cons]
        tauto

/-- A field of a changed map is an old field, or the changed one under its number. -/
theorem FieldMap.mem_modify {id : Int} {change : Field → Field} {fields : FieldMap} {g : Field}
    (h : g ∈ fields.modify id change) : ∃ f ∈ fields, g = f ∨ (f.id = id ∧ g = change f) := by
  obtain ⟨f, hf, rfl⟩ := List.mem_map.mp h
  refine ⟨f, hf, ?_⟩
  by_cases hid : f.id = id
  · rw [if_pos hid]; exact Or.inr ⟨hid, rfl⟩
  · rw [if_neg hid]; exact Or.inl rfl

/-- A transfer moves fields, and makes none. -/
theorem FieldMap.mem_transfer {id : Int} {dst src : FieldMap} {g : Field}
    (h : g ∈ (FieldMap.transfer id dst src).1 ∨ g ∈ (FieldMap.transfer id dst src).2) : g ∈ dst ∨ g ∈ src := by
  unfold FieldMap.transfer at h
  split at h
  next => exact h
  next f hf =>
    have hmem : f ∈ src := List.mem_of_find?_eq_some hf
    split at h
    · exact h
    · rcases h with h | h
      · rcases FieldMap.mem_insert.mp h with rfl | h
        · exact Or.inr hmem
        · exact Or.inl h
      · exact Or.inr (List.mem_of_mem_filter h)

/-- Transferring makes no new fields: what is in one of the two maps was in one of them before. -/
theorem FieldMap.mem_foldl_transfer (keys : List Int) {s : FieldMap × FieldMap} {g : Field}
    (h : g ∈ (keys.foldl (fun s key => FieldMap.transfer key s.1 s.2) s).1 ∨
      g ∈ (keys.foldl (fun s key => FieldMap.transfer key s.1 s.2) s).2) : g ∈ s.1 ∨ g ∈ s.2 := by
  induction keys generalizing s with
  | nil => exact h
  | cons key keys ih => exact FieldMap.mem_transfer (ih h)

/-- Splitting off the unknown fields of a fresh message only moves fields. -/
theorem mem_splitUnknown {d : Nat} {fields : FieldMap} {f : Field}
    (h : f ∈ (splitUnknown ⟨d, fields, none⟩).fields ++ (splitUnknown ⟨d, fields, none⟩).unknownFields.getD []) :
    f ∈ fields := by
  unfold splitUnknown at h
  by_cases hk : (List.map Field.id (List.filter Field.unknown fields)).isEmpty
  · simp only [hk, if_true] at h
    simpa using h
  · simp only [hk] at h
    have h' := FieldMap.mem_foldl_transfer _ (s := ([], fields)) ((List.mem_append.mp h).symm)
    simpa using h'

/-! ## Order -/

/-- Strictly increasing keys. -/
def Sorted (fields : FieldMap) : Prop := fields.Pairwise fun f g => f.id < g.id

variable {fields : FieldMap} {f g : Field} {id : Int}

/-- A failed lookup says that no field has the key. -/
theorem FieldMap.find_none : fields.find id = none ↔ ∀ f ∈ fields, f.id ≠ id := by
  unfold FieldMap.find
  rw [List.find?_eq_none]
  simp

/-- What a lookup finds is in the map and has the key. -/
theorem FieldMap.find_some (h : fields.find id = some f) : f ∈ fields ∧ f.id = id :=
  ⟨List.mem_of_find?_eq_some h, by simpa using List.find?_some h⟩

/-- No two fields of an ordered map have one key, -/
theorem Sorted.nodup_id (hs : Sorted fields) : (fields.map Field.id).Nodup :=
  List.pairwise_map.mpr (hs.imp fun h => ne_of_lt h)

/-- so a field of the map is known by its key, -/
theorem Sorted.eq_of_id (hs : Sorted fields) (hf : f ∈ fields) (hg : g ∈ fields) (h : f.id = g.id) : f = g :=
  List.inj_on_of_nodup_map hs.nodup_id hf hg h

/-- and a lookup finds it. -/
theorem Sorted.find_eq (hs : Sorted fields) (hf : f ∈ fields) : fields.find f.id = some f := by
  cases h : fields.find f.id with
  | none => exact absurd rfl (FieldMap.find_none.mp h f hf)
  | some g =>
      obtain ⟨hg, hid⟩ := FieldMap.find_some h
      rw [hs.eq_of_id hg hf hid]

/-- Putting in a field under a new key keeps the order. -/
theorem sorted_insert (hs : Sorted fields) (hnew : fields.find f.id = none) : Sorted (FieldMap.insert f fields) := by
  induction fields with
  | nil => exact List.pairwise_singleton _ _
  | cons g fields ih =>
      obtain ⟨hg, hs'⟩ := List.pairwise_cons.mp hs
      have hne := FieldMap.find_none.mp hnew
      unfold FieldMap.insert
      -- the field stands here, or further on
      by_cases hlt : f.id < g.id
      · rw [if_pos hlt]
        refine List.pairwise_cons.mpr ⟨fun h hh => ?_, hs⟩
        rcases List.mem_cons.mp hh with rfl | hh
        · exact hlt
        · exact lt_trans hlt (hg h hh)
      · rw [if_neg hlt]
        have hgf : g.id ≠ f.id := hne g List.mem_cons_self
        refine List.pairwise_cons.mpr ⟨fun h hh => ?_, ih hs' ?_⟩
        · rcases FieldMap.mem_insert.mp hh with rfl | hh
          · omega
          · exact hg h hh
        · exact FieldMap.find_none.mpr fun h hh => hne h (List.mem_cons_of_mem _ hh)

/-- Changing what is under a key keeps the order, when the key stays. -/
theorem sorted_modify {change : Field → Field} (hs : Sorted fields) (hid : ∀ f ∈ fields, f.id = id → (change f).id = id) :
    Sorted (fields.modify id change) := by
  have hkey : ∀ f ∈ fields, (if f.id = id then change f else f).id = f.id := by
    intro f hf
    by_cases h : f.id = id
    · rw [if_pos h, hid f hf h, h]
    · rw [if_neg h]
  unfold Sorted FieldMap.modify
  rw [List.pairwise_map]
  refine List.Pairwise.imp_of_mem (fun hf hg h => ?_) hs
  rw [hkey _ hf, hkey _ hg]
  exact h

/-! ## Lookups after a change

One equation for each operation, so that later proofs never go into the list. -/

/-- A lookup tries the first field and then the rest. -/
theorem FieldMap.find_cons (f : Field) (fields : FieldMap) (id : Int) :
    FieldMap.find (f :: fields) id = if f.id = id then some f else fields.find id := by
  unfold FieldMap.find
  rw [List.find?_cons]
  by_cases hid : f.id = id <;> simp [hid]

/-- After putting in a field under a new key, the lookup finds it under its key and what it found before elsewhere. -/
theorem FieldMap.find_insert (hnew : fields.find f.id = none) (id : Int) :
    (FieldMap.insert f fields).find id = if f.id = id then some f else fields.find id := by
  induction fields with
  | nil => exact FieldMap.find_cons f [] id
  | cons g fields ih =>
      have hgf : g.id ≠ f.id := FieldMap.find_none.mp hnew g List.mem_cons_self
      have hnew' : FieldMap.find fields f.id = none :=
        FieldMap.find_none.mpr fun h hh => FieldMap.find_none.mp hnew h (List.mem_cons_of_mem _ hh)
      unfold FieldMap.insert
      by_cases hlt : f.id < g.id
      · rw [if_pos hlt, FieldMap.find_cons]
      · rw [if_neg hlt, FieldMap.find_cons, ih hnew', FieldMap.find_cons]
        by_cases hg : g.id = id
        · rw [if_pos hg, if_pos hg, if_neg (by omega)]
        · rw [if_neg hg, if_neg hg]

/-- After a change under one key, the lookup finds the changed field there. -/
theorem FieldMap.find_modify {change : Field → Field} (hid : ∀ f : Field, f.id = id → (change f).id = id) (id' : Int) :
    (fields.modify id change).find id' = if id' = id then (fields.find id').map change else fields.find id' := by
  induction fields with
  | nil => by_cases h : id' = id <;> simp [h, FieldMap.modify, FieldMap.find]
  | cons g fields ih =>
      have hcons : FieldMap.modify (g :: fields) id change = (if g.id = id then change g else g) :: FieldMap.modify fields id change := rfl
      have hkey : (if g.id = id then change g else g).id = g.id := by
        by_cases hg : g.id = id
        · rw [if_pos hg, hid g hg, hg]
        · rw [if_neg hg]
      rw [hcons, FieldMap.find_cons, hkey, ih, FieldMap.find_cons]
      by_cases hg : g.id = id'
      · rw [if_pos hg, if_pos hg, hg]
        by_cases h : id' = id
        · rw [if_pos h, if_pos h]
          rfl
        · rw [if_neg h, if_neg h]
      · rw [if_neg hg, if_neg hg]

/-- After erasing a key, the lookup finds nothing under it. -/
theorem FieldMap.find_erase (id id' : Int) : (fields.erase id).find id' = if id' = id then none else fields.find id' := by
  induction fields with
  | nil => by_cases h : id' = id <;> simp [h, FieldMap.erase, FieldMap.find]
  | cons g fields ih =>
      by_cases hg : g.id = id
      · have hcons : FieldMap.erase (g :: fields) id = FieldMap.erase fields id := List.filter_cons_of_neg (by simp [hg])
        rw [hcons, ih, FieldMap.find_cons]
        by_cases h : id' = id
        · rw [if_pos h, if_pos h]
        · rw [if_neg h, if_neg h, if_neg (by omega)]
      · have hcons : FieldMap.erase (g :: fields) id = g :: FieldMap.erase fields id := List.filter_cons_of_pos (by simp [hg])
        rw [hcons, FieldMap.find_cons, ih, FieldMap.find_cons]
        by_cases h : id' = id
        · rw [if_pos h, if_pos h, if_neg (by omega)]
        · rw [if_neg h, if_neg h]

/-- A key above all others is inserted at the end. -/
theorem insert_last (h : ∀ g ∈ fields, g.id < f.id) : FieldMap.insert f fields = fields ++ [f] := by
  induction fields with
  | nil => rfl
  | cons g fields ih =>
      have hg := h g List.mem_cons_self
      unfold FieldMap.insert
      rw [if_neg (by omega), ih fun k hk => h k (List.mem_cons_of_mem _ hk)]
      rfl

/-- Putting back what is there. -/
theorem modify_self (hs : Sorted fields) (hf : f ∈ fields) : fields.modify f.id (fun _ => f) = fields := by
  unfold FieldMap.modify
  have hcongr : fields.map (fun g => if g.id = f.id then f else g) = fields.map fun g => g := by
    apply List.map_congr_left
    intro g hg
    by_cases hid : g.id = f.id
    · rw [if_pos hid, hs.eq_of_id hg hf hid]
    · rw [if_neg hid]
  rw [hcongr, List.map_id']

/-! ## Two maps that agree field by field

Let `R` relate fields with one key. Each operation takes maps related field by field to such maps, so two runs
that differ in the memory of new values can be followed side by side. -/

section Pointwise

variable {R : Field → Field → Prop} {fields' : FieldMap} {f' : Field}

/-- Lookups in the two maps find related fields, or both find none. -/
theorem find_pointwise (hid : ∀ f f', R f f' → f'.id = f.id) (h : List.Forall₂ R fields fields') (id : Int) :
    Option.Rel R (fields.find id) (fields'.find id) := by
  induction h with
  | nil => exact Option.Rel.none
  | @cons f f' fields fields' hf _ ih =>
      rw [FieldMap.find_cons, FieldMap.find_cons, hid f f' hf]
      by_cases heq : f.id = id
      · rw [if_pos heq, if_pos heq]
        exact Option.Rel.some hf
      · rw [if_neg heq, if_neg heq]
        exact ih

/-- Putting related fields in. -/
theorem insert_pointwise (hid : ∀ f f', R f f' → f'.id = f.id) (hf : R f f') (h : List.Forall₂ R fields fields') :
    List.Forall₂ R (FieldMap.insert f fields) (FieldMap.insert f' fields') := by
  induction h with
  | nil => exact List.Forall₂.cons hf List.Forall₂.nil
  | @cons g g' fields fields' hg hrest ih =>
      unfold FieldMap.insert
      rw [hid f f' hf, hid g g' hg]
      by_cases hlt : f.id < g.id
      · rw [if_pos hlt, if_pos hlt]
        exact List.Forall₂.cons hf (List.Forall₂.cons hg hrest)
      · rw [if_neg hlt, if_neg hlt]
        exact List.Forall₂.cons hg ih

/-- Changing the fields under one key by changes that keep them related. -/
theorem modify_pointwise {change change' : Field → Field} (hid : ∀ f f', R f f' → f'.id = f.id)
    (hchange : ∀ f f', f' ∈ fields' → R f f' → f.id = id → R (change f) (change' f')) (h : List.Forall₂ R fields fields') :
    List.Forall₂ R (fields.modify id change) (fields'.modify id change') := by
  induction h with
  | nil => exact List.Forall₂.nil
  | @cons f f' fields fields' hf _ ih =>
      refine List.Forall₂.cons ?_ (ih fun g g' hg => hchange g g' (List.mem_cons_of_mem _ hg))
      dsimp only
      by_cases heq : f.id = id
      · rw [if_pos heq, if_pos ((hid f f' hf).trans heq)]
        exact hchange f f' List.mem_cons_self hf heq
      · rw [if_neg heq, if_neg (by rw [hid f f' hf]; exact heq)]
        exact hf

/-- Erasing one key from both. -/
theorem erase_pointwise (hid : ∀ f f', R f f' → f'.id = f.id) (h : List.Forall₂ R fields fields') :
    List.Forall₂ R (fields.erase id) (fields'.erase id) := by
  induction h with
  | nil => exact List.Forall₂.nil
  | @cons f f' fields fields' hf _ ih =>
      unfold FieldMap.erase
      rw [List.filter_cons, List.filter_cons, hid f f' hf]
      by_cases heq : decide (f.id ≠ id) = true
      · rw [if_pos heq, if_pos heq]
        exact List.Forall₂.cons hf ih
      · rw [if_neg heq, if_neg heq]
        exact ih

/-- The two maps have the same keys, -/
theorem ids_pointwise (hid : ∀ f f', R f f' → f'.id = f.id) (h : List.Forall₂ R fields fields') :
    fields'.map Field.id = fields.map Field.id := by
  induction h with
  | nil => rfl
  | cons hf _ ih => rw [List.map_cons, List.map_cons, hid _ _ hf, ih]

/-- and the one is in order when the other is. -/
theorem sorted_pointwise (hid : ∀ f f', R f f' → f'.id = f.id) (hs : Sorted fields) (h : List.Forall₂ R fields fields') :
    Sorted fields' := by
  unfold Sorted at hs ⊢
  rw [← List.pairwise_map (f := Field.id), ids_pointwise hid h, List.pairwise_map]
  exact hs

/-- One transfer takes the field out of both maps and puts it into both others. -/
theorem transfer_pointwise {dst dst' : FieldMap} (hid : ∀ f f', R f f' → f'.id = f.id) (hdst : List.Forall₂ R dst dst')
    (h : List.Forall₂ R fields fields') (id : Int) :
    List.Forall₂ R (FieldMap.transfer id dst fields).1 (FieldMap.transfer id dst' fields').1 ∧
      List.Forall₂ R (FieldMap.transfer id dst fields).2 (FieldMap.transfer id dst' fields').2 := by
  have hfind := find_pointwise hid h id
  have htaken := find_pointwise hid hdst id
  unfold FieldMap.transfer
  cases hf : fields.find id with
  | none =>
      cases hf' : fields'.find id with
      | none => exact ⟨hdst, h⟩
      | some f' =>
          rw [hf, hf'] at hfind
          cases hfind
  | some f =>
      cases hf' : fields'.find id with
      | none =>
          rw [hf, hf'] at hfind
          cases hfind
      | some f' =>
          rw [hf, hf'] at hfind
          cases hfind with
          | some hff' =>
              -- the key is taken in the one map exactly when it is in the other
              have hsome : (FieldMap.find dst' id).isSome = (FieldMap.find dst id).isSome := by
                revert htaken
                cases FieldMap.find dst id <;> cases FieldMap.find dst' id <;> intro htaken <;> first | rfl | cases htaken
              dsimp only
              rw [hsome]
              split
              · exact ⟨hdst, h⟩
              · exact ⟨insert_pointwise hid hff' hdst, erase_pointwise hid h⟩

/-- A row of transfers, one after the other. -/
theorem foldl_transfer_pointwise (hid : ∀ f f', R f f' → f'.id = f.id) (keys : List Int) (s s' : FieldMap × FieldMap)
    (hdst : List.Forall₂ R s.1 s'.1) (h : List.Forall₂ R s.2 s'.2) :
    List.Forall₂ R (keys.foldl (fun s key => FieldMap.transfer key s.1 s.2) s).1
        (keys.foldl (fun s key => FieldMap.transfer key s.1 s.2) s').1 ∧
      List.Forall₂ R (keys.foldl (fun s key => FieldMap.transfer key s.1 s.2) s).2
        (keys.foldl (fun s key => FieldMap.transfer key s.1 s.2) s').2 := by
  induction keys generalizing s s' with
  | nil => exact ⟨hdst, h⟩
  | cons key keys ih =>
      have htransfer := transfer_pointwise hid hdst h key
      exact ih _ _ htransfer.1 htransfer.2

end Pointwise

/-! ## `fill fields` -/

variable {junk : Junk} {d : Descriptor} {fields' : FieldMap} {st : ParserState}

/-- The two ways a record enters the map: under a new key, or appended to the field with its key, whose older
    values may be dropped. -/
theorem fillField_cases (h : fillField junk d fields st = some fields') :
    (fields.find st.fieldId = none ∧ fields' = FieldMap.insert (Field.fastAppend (junk (.parsed st.cur))
        ⟨false, (d.findFieldByNumber st.fieldId).isNone, st.fieldId, st.wireType, d.findFieldByNumber st.fieldId, []⟩
        st.v) fields) ∨
      ∃ f, fields.find st.fieldId = some f ∧
        (fields' = fields.modify st.fieldId (Field.fastAppend (junk (.parsed st.cur)) · st.v) ∨
          fields' = fields.modify st.fieldId fun f => Field.fastAppend (junk (.parsed st.cur)) { f with values := [] } st.v) := by
  unfold fillField at h
  split at h
  next hfind => exact Or.inl ⟨hfind, (Option.some.inj h).symm⟩
  next f hfind =>
    refine Or.inr ⟨f, hfind, ?_⟩
    split at h
    · exact Or.inl (Option.some.inj h).symm
    · split at h
      next => cases h
      next fd hfd =>
        split at h
        · exact Or.inl (Option.some.inj h).symm
        · split at h
          · exact Or.inr (Option.some.inj h).symm
          · cases h

/-- Filling a field keeps the order: it changes the field there, or puts one in under a new key. -/
theorem fillField_sorted (hs : Sorted fields) (h : fillField junk d fields st = some fields') : Sorted fields' := by
  rcases fillField_cases h with ⟨hnone, rfl⟩ | ⟨f, -, rfl | rfl⟩
  · exact sorted_insert hs hnone
  · exact sorted_modify hs fun f _ hid => hid
  · exact sorted_modify hs fun f _ hid => hid

/-- The record's slice is in the map afterwards. -/
theorem fillField_stores (h : fillField junk d fields st = some fields') :
    ∃ f ∈ fields', ∃ v ∈ f.values, v.encoded = st.v.encoded := by
  have happ : ∀ f : Field, ∃ v ∈ (f.fastAppend (junk (.parsed st.cur)) st.v).values, v.encoded = st.v.encoded := by
    intro f
    refine ⟨_, List.mem_append_right _ (List.mem_singleton_self _), ?_⟩
    split <;> rfl
  have hmod : ∀ (change : Field → Field) (f : Field), f ∈ fields → f.id = st.fieldId →
      change f ∈ fields.modify st.fieldId change := by
    intro change f hf hid
    refine List.mem_map.mpr ⟨f, hf, ?_⟩
    rw [if_pos hid]
  rcases fillField_cases h with ⟨-, rfl⟩ | ⟨f, hfind, rfl | rfl⟩
  · exact ⟨_, FieldMap.mem_insert.mpr (Or.inl rfl), happ _⟩
  · obtain ⟨hf, hid⟩ := FieldMap.find_some hfind
    exact ⟨_, hmod _ f hf hid, happ _⟩
  · obtain ⟨hf, hid⟩ := FieldMap.find_some hfind
    exact ⟨_, hmod (fun f => Field.fastAppend (junk (.parsed st.cur)) { f with values := [] } st.v) f hf hid, happ _⟩

/-! ## Splitting off the unknown fields -/

/-- Transferring a field to a map that ends before it. -/
theorem transfer_next (hs : Sorted fields) {done : List Field} (hlt : ∀ g ∈ done, g.id < f.id) (hf : f ∈ fields) :
    FieldMap.find (fields.filter fun g => g.id ∉ done.map Field.id) f.id = some f ∧ FieldMap.find done f.id = none ∧
      FieldMap.transfer f.id done (fields.filter fun g => g.id ∉ done.map Field.id) =
        (done ++ [f], fields.filter fun g => g.id ∉ (done ++ [f]).map Field.id) := by
  have hsrc : Sorted (fields.filter fun g => g.id ∉ done.map Field.id) := List.Pairwise.filter _ hs
  have hfin : f ∈ fields.filter fun g => g.id ∉ done.map Field.id := by
    refine List.mem_filter.mpr ⟨hf, ?_⟩
    simp only [List.mem_map, not_exists, not_and, decide_eq_true_eq]
    exact fun g hg => ne_of_lt (hlt g hg)
  have hnone : FieldMap.find done f.id = none := FieldMap.find_none.mpr fun g hg => ne_of_lt (hlt g hg)
  refine ⟨hsrc.find_eq hfin, hnone, ?_⟩
  unfold FieldMap.transfer
  rw [hsrc.find_eq hfin, hnone]
  simp only [Option.isSome_none, Bool.false_eq_true, if_false]
  rw [insert_last hlt]
  refine Prod.ext rfl ?_
  show List.filter _ (List.filter _ fields) = _
  rw [List.filter_filter]
  refine List.filter_congr fun g _ => ?_
  simp only [List.map_append, List.map_cons, List.map_nil, List.mem_append, List.mem_singleton, not_or,
    Bool.decide_and, ne_eq]
  exact Bool.and_comm _ _

/-- Transferring the unknown fields `us` one after another, in order, to a map that ends before them. -/
theorem foldl_transfer (hs : Sorted fields) (us done : List Field) (hus : Sorted (done ++ us))
    (hmem : ∀ f ∈ us, f ∈ fields) :
    (us.map Field.id).foldl (fun s key => FieldMap.transfer key s.1 s.2)
        (done, fields.filter fun f => f.id ∉ done.map Field.id) =
      (done ++ us, fields.filter fun f => f.id ∉ (done ++ us).map Field.id) := by
  induction us generalizing done with
  | nil => simp
  | cons f us ih =>
      have hlt : ∀ g ∈ done, g.id < f.id := fun g hg => (List.pairwise_append.mp hus).2.2 g hg f List.mem_cons_self
      obtain ⟨-, -, hstep⟩ := transfer_next hs hlt (hmem f List.mem_cons_self)
      rw [List.map_cons, List.foldl_cons, hstep, ih (done ++ [f]) (by rw [List.append_assoc]; exact hus)
        fun g hg => hmem g (List.mem_cons_of_mem _ hg), List.append_assoc]
      rfl

/-- **`Init` splits the map**: known fields stay, unknown fields move, both in order. -/
theorem splitUnknown_eq (hs : Sorted fields) (d : Nat) :
    (splitUnknown ⟨d, fields, none⟩).fields = fields.filter (fun f => !f.unknown) ∧
      (splitUnknown ⟨d, fields, none⟩).unknownFields.getD [] = fields.filter Field.unknown ∧
      (splitUnknown ⟨d, fields, none⟩).descriptor = d := by
  have hfold := foldl_transfer hs (fields.filter Field.unknown) [] (List.Pairwise.filter _ hs)
    fun f hf => List.mem_of_mem_filter hf
  have hall : fields.filter (fun f => f.id ∉ ([] : List Field).map Field.id) = fields :=
    List.filter_eq_self.mpr fun f _ => by simp
  rw [hall, List.nil_append] at hfold
  have hrest : fields.filter (fun f => f.id ∉ (fields.filter Field.unknown).map Field.id) =
      fields.filter fun f => !f.unknown := by
    refine List.filter_congr fun f hf => ?_
    -- a known field does not share its key with an unknown one
    have hiff : f.id ∈ (fields.filter Field.unknown).map Field.id ↔ f.unknown = true := by
      rw [List.mem_map]
      constructor
      · rintro ⟨g, hg, hid⟩
        obtain ⟨hgm, hgu⟩ := List.mem_filter.mp hg
        rw [← hs.eq_of_id hgm hf hid]
        exact hgu
      · exact fun hu => ⟨f, List.mem_filter.mpr ⟨hf, hu⟩, rfl⟩
    cases hu : f.unknown with
    | true => simp [hiff.mpr hu]
    | false => simp [mt hiff.mp (by rw [hu]; simp)]
  rw [hrest] at hfold
  unfold splitUnknown
  by_cases hk : fields.filter Field.unknown = []
  · have hkeep : fields.filter (fun f => !f.unknown) = fields := by
      refine List.filter_eq_self.mpr fun f hf => ?_
      have := List.filter_eq_nil_iff.mp hk f hf
      simpa using this
    simp [hk, hkeep]
  · have hne : ((fields.filter Field.unknown).map Field.id).isEmpty = false := by
      simpa using hk
    simp [hne, hfold]

end CompactProtobuf
end Snippets
