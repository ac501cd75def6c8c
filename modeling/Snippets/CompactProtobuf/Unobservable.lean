import Snippets.CompactProtobuf.Calls
import Snippets.CompactProtobuf.Lazy

/-!
# `CompactProtobuf.Unobservable` — what is seen of lazy decoding

`GetFieldSize` decodes a field. Made in between the other calls of a run it should not be seen: no later call should return
something else for it, or fail where it did not. The inserted calls make new values, so what the values of all later calls
find in memory may be different in the two runs.

Nothing is seen as long as no call comes to one of four places (`Ready`). `CheckValidIndex` is called before `TryDecodeField`,
and so counts a packed field that is not decoded as one value. `ParseMessageLazy` appends an encoded value to a field without
a look at its flag, so that a field that was decoded keeps it, and the new value is never decoded. `FastAppend` leaves the
length unset in a field that a record without one has made. `DeleteReal` returns the whole union of a `float`.
-/

namespace Snippets

open Lib

namespace CompactProtobuf

variable {env : Env} {d : Descriptor} {w w' u u' : World} {p : MessagePtr} {m m' : Message} {fd : FieldDescriptor}
  {f f' : Field} {name : String} {idx : Nat} {v v' : Value} {kind : FieldType → Bool} {junk junk' : Junk} {mem : Mem}
  {fields fields' : FieldMap} {st : ParserState} {type : FieldType}

/-! ## The accessors in related worlds

An accessor finds the same field in both worlds, and decodes it in both or in none (`TriedAlike`). What it then
reads or writes is a parameter of the lemmas here, and the relation of what it reads in the two worlds (`S`)
another. -/

section Accessors

variable {β : Type} {S : World → World → β → β → Prop}

/-- The condition at the field that the name leads to: where only the second world has decoded it, it is asked for its
    element 0 alone. -/
theorem IndexReady.zero (h : IndexReady env w w' p name idx) (hpaired : Paired env p w w' m m')
    (hfd : fd ∈ (env.pool m.descriptor).fields) (hname : fd.name = name) (hf : m.fields.find fd.number = some f)
    (hf' : m'.fields.find fd.number = some f') :
    fd.packed = true → f.decoded = false → f'.decoded = true → idx = 0 := by
  subst hname
  exact h m m' fd f f' hpaired.found hpaired.found' (Descriptor.findFieldByName_eq hfd) hf hf'

/-- The values of a field that both worlds have decoded. -/
theorem TriedAlike.values {t : Nat} {r r' : World × Field} (h : TriedAlike env t p f r r') (hfd : f.fieldDescriptor = some fd) :
    r.2.fieldDescriptor = some fd ∧ r'.2.fieldDescriptor = some fd ∧
      List.Forall₂ (SameValue p r.1 r'.1 fd.type.member) r.2.values r'.2.values := by
  obtain ⟨m, m', -, -, hmatch, hdec, hdescriptor⟩ := h
  have hleft := hdescriptor.trans hfd
  have hvals := (hmatch.of_decoded hdec).values
  unfold Field.member at hvals
  rw [hleft] at hvals
  exact ⟨hleft, hmatch.fieldDescriptor_eq.trans hleft, hvals⟩

/-- The worlds after the field has been decoded. -/
theorem TriedAlike.related {t : Nat} {r r' : World × Field} (h : TriedAlike env t p f r r') : Related env p r.1 r'.1 := by
  obtain ⟨m, m', -, hpaired, -⟩ := h
  exact ⟨m, m', hpaired⟩

/-- The two worlds after both fields have been given other values. -/
theorem TriedAlike.store {t : Nat} {r r' : World × Field} {values values' : List Value} (h : TriedAlike env t p f r r')
    (hfd : f.fieldDescriptor = some fd) (hu : ∀ q, Extends q r.1 u) (hu' : ∀ q, Extends q r'.1 u')
    (hvals : List.Forall₂ (SameValue p u u' fd.type.member) values values') :
    Related env p (u.store p { r.2 with values := values }) (u'.store p { r'.2 with values := values' }) := by
  obtain ⟨m, m', rfl, hpaired, hmatch, hdec, hdescriptor⟩ := h
  have hmember : r.2.member = fd.type.member := by
    unfold Field.member
    rw [hdescriptor, hfd]
    rfl
  rw [← hmember] at hvals
  have hmatch' := (hmatch.mono (hu p) (hu' p)).withValues hdec hvals
  obtain ⟨n, n', -, hn⟩ := (hpaired.frame hu hu').store hmatch' (Or.inl (hmatch.of_decoded hdec).right)
  exact ⟨n, n', hn⟩

/-- A getter: what it reads is related when its `read` gives related values for related values of the field. The
    default for a field that is not set depends on the descriptor alone. -/
theorem get_rel {default : FieldDescriptor → Option β} {read read' : Field → Nat → Option β} (h : Paired env p w w' m m')
    (hready : IndexReady env w w' p name idx) (hdefault : ∀ fd b u u', default fd = some b → S u u' b b)
    (hread : ∀ u u' fd f f' idx, kind fd.type = true → f.fieldDescriptor = some fd → f'.fieldDescriptor = some fd →
      List.Forall₂ (SameValue p u u' fd.type.member) f.values f'.values → Option.Rel (S u u') (read f idx) (read' f' idx)) :
    Option.Rel (fun r r' => Related env p r.1 r'.1 ∧ S r.1 r'.1 r.2 r'.2)
      (w.get (env.withJunk junk) p kind default read name idx) (w'.get (env.withJunk junk') p kind default read' name idx) := by
  unfold World.get
  refine lookup_rel kind name h ?_ ?_
  -- the field is not there: the default is returned and nothing changes
  · intro fd _ _ _
    show Option.Rel _ ((default fd).bind fun b => some (w, b)) ((default fd).bind fun b => some (w', b))
    cases hd : default fd with
    | none => exact Option.Rel.none
    | some b => exact Option.Rel.some ⟨⟨m, m', h⟩, hdefault fd b w w' hd⟩
  -- the field is there: it is decoded first, in each world where that has not been done
  · intro fd f f' hfd hname hkind hf hf' hmatch
    refine rel_bind (access_rel h hfd hf hf' hmatch (hready.zero h hfd hname hf hf')) ?_
    rintro ⟨w₁, f₁, i⟩ ⟨w₂, f₂, j⟩ ⟨htried, hij⟩
    cases hij
    obtain ⟨hleft, hright, hvals⟩ := htried.values (hmatch.descriptor_found hfd hf)
    refine rel_bind (hread w₁ w₂ fd f₁ f₂ i hkind hleft hright hvals) ?_
    intro b b' hb
    exact Option.Rel.some ⟨htried.related, hb⟩

/-- `GetFieldSize` checks no index, and so needs no condition. -/
theorem getFieldSize_rel (h : Paired env p w w' m m') :
    Option.Rel (fun r r' => Related env p r.1 r'.1 ∧ r.2 = r'.2) (w.getFieldSize (env.withJunk junk) p name)
      (w'.getFieldSize (env.withJunk junk') p name) := by
  unfold World.getFieldSize
  refine lookup_rel _ name h ?_ ?_
  -- the field is not there
  · intro fd _ _ _
    exact Option.Rel.some ⟨⟨m, m', h⟩, rfl⟩
  -- as many values in the one world as in the other
  · intro fd f f' hfd _ _ hf hf' hmatch
    refine rel_bind (tryDecodeField_rel junk junk' h (FieldMap.find_some hf').1 hmatch) ?_
    rintro ⟨w₁, f₁⟩ ⟨w₂, f₂⟩ htried
    exact Option.Rel.some ⟨htried.related, (htried.values (hmatch.descriptor_found hfd hf)).2.2.length_eq⟩

/-- A setter that sets the member of the type, whatever the value was. -/
def SetsMember (p : MessagePtr) (kind : FieldType → Bool) (set set' : FieldType → Value → Option Value) : Prop :=
  ∀ u u' type v v', kind type = true → Option.Rel (SameValue p u u' type.member) (set type v) (set' type v')

/-- A setter: whether it makes the field or replaces one of its values, the two worlds are related afterwards. -/
theorem set_rel {fresh fresh' stored stored' : FieldType → Value → Option Value} (h : Paired env p w w' m m')
    (hready : IndexReady env w w' p name idx) (hfresh : SetsMember p kind fresh fresh')
    (hstored : SetsMember p kind stored stored') :
    Option.Rel (Related env p) (w.set (env.withJunk junk) p kind fresh stored name idx)
      (w'.set (env.withJunk junk') p kind fresh' stored' name idx) := by
  unfold World.set
  refine lookup_rel kind name h ?_ ?_
  -- the field is not there: a new value is set in it, over what memory held in this run
  · intro fd hfd hkind hnone
    refine rel_bind (hfresh w w' fd.type (newValue (junk .made)) (newValue (junk' .made)) hkind) ?_
    intro v v' hv
    exact rel_mono (addField_rel h hfd hnone hv) fun _ _ hu => hu.1
  -- the field is there: the value at the index is replaced
  · intro fd f f' hfd hname hkind hf hf' hmatch
    refine rel_bind (access_rel h hfd hf hf' hmatch (hready.zero h hfd hname hf hf')) ?_
    rintro ⟨w₁, f₁, i⟩ ⟨w₂, f₂, j⟩ ⟨htried, hij⟩
    cases hij
    have hdescriptor := hmatch.descriptor_found hfd hf
    obtain ⟨-, -, hvals⟩ := htried.values hdescriptor
    refine rel_bind (forall₂_getElem? hvals i) ?_
    intro v v' _
    refine rel_bind (hstored w₁ w₂ fd.type v v' hkind) ?_
    intro x x' hx
    exact Option.Rel.some (htried.store hdescriptor (fun _ => Extends.refl) (fun _ => Extends.refl) (forall₂_set hvals hx i))

/-- What making a value in two worlds comes to. -/
def MadeAlike (p : MessagePtr) (w w' : World) (member : Option Member) (r r' : World × Value) : Prop :=
  (∀ q, Extends q w r.1) ∧ (∀ q, Extends q w' r'.1) ∧ SameValue p r.1 r'.1 member r.2 r'.2

/-- An adder: the value is appended to the field, which is made where there is none. What is returned is the value. -/
theorem add_rel {make make' : World → FieldDescriptor → Option (World × Value)} (h : Paired env p w w' m m')
    (hmake : ∀ u u' fd, kind fd.type = true → p < u.messages.length → p < u'.messages.length →
      Option.Rel (MadeAlike p u u' fd.type.member) (make u fd) (make' u' fd)) :
    Option.Rel (fun r r' => Related env p r.1 r'.1 ∧ ∃ type, kind type = true ∧ SameValue p r.1 r'.1 type.member r.2 r'.2)
      (w.add (env.withJunk junk) p kind make name) (w'.add (env.withJunk junk') p kind make' name) := by
  unfold World.add
  refine lookup_rel kind name h ?_ ?_
  -- the field is not there: it is made with the one value
  · intro fd hfd hkind hnone
    refine rel_bind (hmake w w' fd hkind h.lt h.lt') ?_
    rintro ⟨w₁, v⟩ ⟨w₂, v'⟩ ⟨hext, hext', hv⟩
    refine rel_bind (addField_rel (h.frame hext hext') hfd hnone hv) ?_
    rintro u u' ⟨hrel, hu, hu'⟩
    exact Option.Rel.some ⟨hrel, fd.type, hkind, hv.mono hu hu'⟩
  -- the field is there: an assert wants it to be repeated, and it is decoded before the value is made
  · intro fd f f' hfd _ hkind hf hf' hmatch
    have hdescriptor := hmatch.descriptor_found hfd hf
    refine rel_bind (rel_guard Iff.rfl) ?_
    intro _ _ _
    refine rel_bind (tryDecodeField_rel junk junk' h (FieldMap.find_some hf').1 hmatch) ?_
    rintro ⟨w₁, f₁⟩ ⟨w₂, f₂⟩ htried
    obtain ⟨n, n', hpaired⟩ := htried.related
    obtain ⟨-, -, hvals⟩ := htried.values hdescriptor
    have hpaired' : Paired env p w₁ w₂ n n' := hpaired
    refine rel_bind (hmake w₁ w₂ fd hkind hpaired'.lt hpaired'.lt') ?_
    rintro ⟨w₃, v⟩ ⟨w₄, v'⟩ ⟨hext, hext', hv⟩
    have hvals' := List.rel_append (sameValues_mono hvals (hext p) (hext' p)) (List.Forall₂.cons hv List.Forall₂.nil)
    exact Option.Rel.some ⟨htried.store hdescriptor hext hext' hvals', fd.type, hkind,
      hv.mono (extends_change _) (extends_change _)⟩

/-- A deleter: it reads a value and takes it away, and the field with the last one. `P` is what the type of the field
    must be for the reading to be the same, unless the index is refused (`hP`). -/
theorem delete_rel {read read' : Field → Nat → Option β} (h : Paired env p w w' m m')
    (hready : IndexReady env w w' p name idx) (P : FieldType → Prop)
    (hread : ∀ u u' fd f f' idx, kind fd.type = true → P fd.type → f.fieldDescriptor = some fd →
      f'.fieldDescriptor = some fd → List.Forall₂ (SameValue p u u' fd.type.member) f.values f'.values →
      Option.Rel (S u u') (read f idx) (read' f' idx))
    (hP : ∀ fd f, (env.pool m.descriptor).findFieldByName name = some fd → m.fields.find fd.number = some f → P fd.type ∨
      checkValidIndex f fd idx = false)
    (hS : ∀ u u' x x' b b', Extends p u x → Extends p u' x' → S u u' b b' → S x x' b b') :
    Option.Rel (fun r r' => Related env p r.1 r'.1 ∧ S r.1 r'.1 r.2 r'.2) (w.delete (env.withJunk junk) p kind read name idx)
      (w'.delete (env.withJunk junk') p kind read' name idx) := by
  unfold World.delete
  refine lookup_rel kind name h ?_ ?_
  · intro fd hfd _ hnone
    exact Option.Rel.none
  · intro fd f f' hfd hname hkind hf hf' hmatch
    have hdescriptor := hmatch.descriptor_found hfd hf
    have hzero := hready.zero h hfd hname hf hf'
    subst hname
    rcases hP fd f (Descriptor.findFieldByName_eq hfd) hf with hP | hinvalid
    · refine rel_bind (access_rel h hfd hf hf' hmatch hzero) ?_
      rintro ⟨w₁, f₁, i⟩ ⟨w₂, f₂, j⟩ ⟨htried, hij⟩
      cases hij
      obtain ⟨hleft, hright, hvals⟩ := htried.values hdescriptor
      have hvals' : List.Forall₂ (SameValue p w₁ w₂ fd.type.member) f₁.values f₂.values := hvals
      refine rel_bind (hread w₁ w₂ fd f₁ f₂ i hkind hP hleft hright hvals) ?_
      intro b b' hb
      refine rel_bind (rel_guard (by rw [hvals'.length_eq])) ?_
      intro _ _ _
      -- the rest of the values is empty in both worlds or in none
      have hrest := forall₂_eraseIdx hvals' i
      have hempty : (f₂.values.eraseIdx i).isEmpty = (f₁.values.eraseIdx i).isEmpty := by
        generalize f₁.values.eraseIdx i = xs at hrest
        generalize f₂.values.eraseIdx i = ys at hrest
        cases hrest <;> rfl
      apply Option.Rel.some
      dsimp only
      rw [hempty]
      split
      · -- the last value: the field goes
        obtain ⟨n, n', -, hpaired, hmatch', -⟩ := htried
        rw [hmatch'.id_eq]
        have hs : Sorted (FieldMap.erase n.fields f₁.id) := List.Pairwise.filter _ hpaired.alike.sorted
        have hpaired' := hpaired.change hs (erase_pointwise (fun _ _ hf => hf.id_eq) hpaired.alike.fields)
          fun _ hg => Or.inl (List.mem_of_mem_filter hg)
        exact ⟨⟨_, _, hpaired'⟩, hS _ _ _ _ _ _ (extends_change _) (extends_change _) hb⟩
      · exact ⟨htried.store hdescriptor (fun _ => Extends.refl) (fun _ => Extends.refl) hrest,
          hS _ _ _ _ _ _ (extends_change _) (extends_change _) hb⟩
    · -- both asserts of `CheckValidIndex` fail
      have hinvalid' := (checkValidIndex_matches hmatch hdescriptor h.mem.symm h.lt hzero).trans hinvalid
      dsimp only
      unfold World.access
      simp only [guard, hinvalid, hinvalid', Bool.false_eq_true, if_false, Option.bind_eq_bind, Option.failure_eq_none,
        Option.bind_none]
      exact Option.Rel.none

end Accessors

/-! ## `GetFieldSize` in one of two related worlds -/

/-- **A call of `GetFieldSize` that only the second run makes** leaves the worlds related. -/
theorem peek_related {r : World × Nat} (h : Paired env p w w' m m')
    (hsize : w'.getFieldSize (env.withJunk junk') p name = some r) : Related env p w r.1 := by
  unfold World.getFieldSize at hsize
  obtain ⟨⟨fd, found⟩, hlookup, hsize⟩ := Option.bind_eq_some_iff.mp hsize
  obtain ⟨m₀, hm₀, hfd, -, -, rfl⟩ := lookup_inv hlookup
  obtain rfl : m' = m₀ := Option.some.inj (h.found'.symm.trans hm₀)
  cases hf' : m'.fields.find fd.number with
  | none =>
      rw [hf'] at hsize
      cases hsize
      exact ⟨m, m', h⟩
  | some f' =>
      rw [hf'] at hsize
      obtain ⟨⟨w₁, f₁⟩, hdecode, hsize⟩ := Option.bind_eq_some_iff.mp hsize
      cases hsize
      cases hdec : f'.decoded with
      -- an open field is left as it is
      | true =>
          rw [tryDecodeField_of_decoded hdec] at hdecode
          cases hdecode
          exact ⟨m, m', h⟩
      -- a closed field is decoded in the second world only: the first one will get the same values (`Ahead`)
      | false =>
          rw [tryDecodeField_of_undecoded hdec] at hdecode
          obtain ⟨⟨w₂, f₂⟩, hrun, heq⟩ := Option.map_eq_some_iff.mp hdecode
          cases heq
          have hfind := find_pointwise (fun _ _ hf => hf.id_eq) h.alike.fields (fd.number : Int)
          rw [hf'] at hfind
          cases hf : m.fields.find fd.number with
          | none =>
              rw [hf] at hfind
              cases hfind
          | some f =>
              rw [hf] at hfind
              cases hfind with
              | some hmatch =>
                  have hclosed := hmatch.of_closed hdec
                  have hsized := hmatch.sized_iff.mp (h.sized f' (FieldMap.find_some hf').1 hdec)
                  obtain ⟨hheader, hext⟩ := decodeField_header hrun
                  have hheader' : f₂ = _ := hheader
                  have hopen : f₂.decoded = true := by rw [hheader']
                  -- decoding it later, in any world, gives the same values
                  have hahead : Ahead env p w₂ f f₂ := by
                    refine ⟨hclosed.closed, hopen, ?_⟩
                    intro junk u hmem hp
                    have hrel := decodeField_rel env junk junk' hclosed hsized
                      (hmem.trans (hext p).mem).symm hp h.lt'
                    rw [hrun] at hrel
                    revert hrel
                    generalize hleft : decodeField (env.withJunk junk) u f = x
                    intro hrel
                    cases hrel with
                    | @some r _ hr => exact ⟨r.1, r.2, rfl, hr.values⟩
                  have hmatch' : Matches env (env.pool m.descriptor) p w w₂ f f₂ := by
                    refine ⟨?_, hmatch.fieldDescriptor, hmatch.unknown, Or.inr (Or.inr hahead)⟩
                    rw [hheader', hmatch.header]
                  obtain ⟨n, n', -, hpaired⟩ := (h.frame (fun _ => Extends.refl) hext).store hmatch' (Or.inl hopen)
                  rw [store_self h.found h.alike.sorted (FieldMap.find_some hf).1] at hpaired
                  exact ⟨n, n', hpaired⟩

/-! ## `FromString` in related worlds

`ParseMessageLazy` meets the same records in both worlds, since the bytes are the same. What it does to a field
does not depend on the values, and so the fields stay related one by one, as long as no record is added to a
field that the second world has decoded. -/

/-- The field of a record is not decoded, and if the record makes the field, the length of its value is set where it will be
    read. -/
structure RecordReady (d : Descriptor) (fields : FieldMap) (st : ParserState) : Prop where
  closed : ∀ f ∈ fields, f.id = st.fieldId → f.decoded = false
  sized : fields.find st.fieldId = none → ∀ fd, d.findFieldByNumber st.fieldId = some fd →
    fd.packed = true ∨ fd.type = .message → st.wireType = .kLengthDelimited

/-- Every record that `FromString` meets is ready. -/
def ParseReady (env : Env) (junk : Junk) (w : World) (p : MessagePtr) (data len : Nat) : Prop :=
  ∀ m its s st, w.messages[p]? = some m →
    Run (Iter junk w.mem (env.pool m.descriptor)) (startState junk (stringSlice data len), m.fields) its s →
    s.1.cur < s.1.slice.endAddr → parseRecord w.mem s.1 = (.kOk, st) → RecordReady (env.pool m.descriptor) s.2 st

/-- Storing a message where `FromString` was called leaves all other messages alone. -/
theorem extends_set (m : Message) : Extends p w { w with messages := w.messages.set p m } := by
  refine ⟨rfl, ?_, ?_⟩
  · intro q m' hq hm'
    show (w.messages.set p m)[q]? = some m'
    rw [List.getElem?_set_ne (Ne.symm hq)]
    exact hm'
  · show w.messages.length ≤ (w.messages.set p m).length
    rw [List.length_set]

/-- A record that is ready leaves the fields with their lengths. -/
theorem RecordReady.keeps_sized (h : RecordReady d fields st) (hfill : fillField junk d fields st = some fields')
    (hsized : ∀ f ∈ fields, f.decoded = false → Sized f) : ∀ f ∈ fields', f.decoded = false → Sized f := by
  intro g hg hclosed
  -- the record makes the field, or it goes to one that is there, of a new value or in place of the old one
  rcases fillField_cases hfill with ⟨hnone, rfl⟩ | ⟨f₀, -, rfl | rfl⟩
  · rcases FieldMap.mem_insert.mp hg with rfl | hg
    · exact fun fd hfd hread => h.sized hnone fd hfd hread
    · exact hsized g hg hclosed
  · obtain ⟨f, hf, rfl | ⟨-, rfl⟩⟩ := FieldMap.mem_modify hg
    · exact hsized g hf hclosed
    · exact hsized f hf hclosed
  · obtain ⟨f, hf, rfl | ⟨-, rfl⟩⟩ := FieldMap.mem_modify hg
    · exact hsized g hf hclosed
    · exact hsized f hf hclosed

/-- **`FromString` in related worlds.** -/
theorem fromString_rel {data len : Nat} (h : Paired env p w w' m m') (hready : ParseReady env junk' w' p data len) :
    Option.Rel (fun r r' => Related env p r.1 r'.1 ∧ r.2 = r'.2) (w.fromString env.pool junk p data len)
      (w'.fromString env.pool junk' p data len) := by
  have hrun := fun its s st => hready m' its s st h.found'
  rw [h.alike.descriptor, h.mem] at hrun
  -- the loop in the second world comes to ready records only
  have hinit := init_rel env.pool junk junk' w.mem (stringSlice data len)
    (fun s => (∃ its, Run (Iter junk' w.mem (env.pool m.descriptor))
      (startState junk' (stringSlice data len), m'.fields) its s) ∧ ∀ f' ∈ s.2, f'.decoded = false → Sized f')
    parses_matches
    (by
      rintro s s' ⟨⟨its, hits⟩, hsized⟩ hstep
      obtain ⟨hlt, hrec, hfill⟩ := parseStep_some hstep
      exact ⟨⟨its ++ [()], Run.tail hits hstep⟩, (hrun its s s'.1 hits hlt hrec).keeps_sized hfill hsized⟩)
    (by
      rintro s st ⟨⟨its, hits⟩, -⟩ hlt hrec f f' hf' hmatch hid
      exact hmatch.of_closed ((hrun its s st hits hlt hrec).closed f' hf' (hmatch.id_eq.trans hid)))
    h.alike ⟨⟨[], Run.refl⟩, h.sized⟩
  unfold World.fromString
  rw [h.found, h.found', h.mem]
  apply rel_map hinit
  rintro ⟨ok, n⟩ ⟨ok', n'⟩ ⟨hok, hdm, halike, s, hs, hfields⟩
  refine ⟨⟨n, n', ?_⟩, hok.symm⟩
  have hdm' : n.descriptor = m.descriptor := hdm
  rw [← hdm'] at halike
  have hset : Extends p w' ⟨w.mem, w'.messages.set p n'⟩ := by
    rw [← h.mem]
    exact extends_set n'
  exact {
    mem := rfl
    found := List.getElem?_set_self h.lt
    found' := List.getElem?_set_self h.lt'
    alike := halike.mono fun _ _ hf => hf.mono (extends_set n) hset
    sized := fun f' hf' => hs.2 f' (hfields f' hf') }

/-! ## Runs -/

/-- A call, with what its values find in the run without the inserted calls (`junk`), and in the run with them (`junk'`). -/
structure TwinCall where
  call : Call
  junk : Junk
  junk' : Junk

/-- An inserted call of `GetFieldSize`. -/
structure Peek where
  name : String
  junk : Junk

/-- The call in the run without the inserted calls. -/
def TwinCall.exec (env : Env) (p : MessagePtr) (c : TwinCall) : World → Option (World × Seen) :=
  c.call.exec (env.withJunk c.junk) p

/-- The call in the run with the inserted calls. -/
def TwinCall.exec' (env : Env) (p : MessagePtr) (c : TwinCall) : World → Option (World × Seen) :=
  c.call.exec (env.withJunk c.junk') p

/-- The result of an inserted call is dropped. -/
def Peek.exec (env : Env) (p : MessagePtr) (k : Peek) (w : World) : Option World :=
  (w.getFieldSize (env.withJunk k.junk) p k.name).map Prod.fst

/-- **Lazy decoding is not seen** in a sequence of calls with calls of `GetFieldSize` in between: without these the same
    calls return the same, and the same call fails. -/
def Unseen (env : Env) (p : MessagePtr) (w : World) (as : List (TwinCall ⊕ Peek)) : Prop :=
  observeWith (TwinCall.exec' env p) (Peek.exec env p) w as <+: observe (TwinCall.exec env p) w (calls as) ∧
    (PeeksReturn (TwinCall.exec' env p) (Peek.exec env p) w as →
      observeWith (TwinCall.exec' env p) (Peek.exec env p) w as = observe (TwinCall.exec env p) w (calls as))

/-- `DeleteReal` finds no `float` to delete. -/
def RealReady (env : Env) (w : World) (p : MessagePtr) (name : String) (idx : Nat) : Prop :=
  ∀ m fd f, w.messages[p]? = some m → (env.pool m.descriptor).findFieldByName name = some fd →
    m.fields.find fd.number = some f → fd.type = .float → checkValidIndex f fd idx = false

/-- A call that comes to none of the four defects, from `w` in the run without the inserted calls and `w'` in the run with
    them. -/
def Ready (env : Env) (p : MessagePtr) (w w' : World) (c : TwinCall) : Prop :=
  match c.call with
  | .fromString data len => ParseReady env c.junk' w' p data len
  | .deleteReal name idx => IndexReady env w w' p name idx ∧ RealReady env w p name idx
  | .getInteger name idx | .getReal name idx | .getString name idx | .getMessage name idx | .setInteger name idx _ _
  | .setReal name idx _ | .setString name idx _ | .deleteInteger name idx | .deleteString name idx
  | .deleteMessage name idx => IndexReady env w w' p name idx
  | .getFieldSize _ | .addInteger _ _ _ | .addReal _ _ | .addString _ _ | .addMessage _ => True

/-! ## What the accessors read

A value that is the same in both worlds (`SameValue`) is the same in the member that its type uses. Each reader
looks at this member only, `DeleteReal` of a `float` apart, which returns the union. -/

/-- Two pointers to the same message show the same message. -/
theorem SamePtr.see {q q' : Option MessagePtr} (h : SamePtr p w w' q q') : w.see q = w'.see q' := by
  unfold World.see
  rcases h with ⟨rfl, rfl⟩ | ⟨a, a', m, m', rfl, rfl, -, -, ha, ha', hshown⟩
  · rfl
  · rw [Option.bind_some, Option.bind_some, ha, ha', Option.map_some, Option.map_some, hshown]

section Read

variable (hfd : f.fieldDescriptor = some fd) (hfd' : f'.fieldDescriptor = some fd)
  (hvals : List.Forall₂ (SameValue p w w' fd.type.member) f.values f'.values)

include hvals

/-- The string of a value. -/
theorem readString_rel (hkind : fd.type.isString = true) :
    Option.Rel (fun s s' => s = s') (readString f idx) (readString f' idx) := by
  have hmember : fd.type.member = some .s := by
    cases htype : fd.type <;> rw [htype] at hkind <;> first | rfl | cases hkind
  rw [hmember] at hvals
  exact rel_map (forall₂_getElem? hvals idx) fun _ _ hv => Eq.symm hv

/-- The message of a value: the same one in both worlds, or one that shows the same. -/
theorem readMessage_rel (hkind : fd.type.isMessage = true) :
    Option.Rel (SamePtr p w w') (readMessage f idx) (readMessage f' idx) := by
  refine rel_map (forall₂_getElem? hvals idx) ?_
  intro v v' hv
  cases htype : fd.type <;> rw [htype] at hkind hv <;> first | exact absurd hkind (by decide) | exact hv | exact False.elim hv

include hfd hfd'

/-- `RetrieveIntegerValue` reads the member of the type of the field. -/
theorem retrieveIntegerValue_rel : Option.Rel (fun x x' => x = x') (retrieveIntegerValue f idx) (retrieveIntegerValue f' idx) := by
  unfold retrieveIntegerValue
  rw [hfd, hfd']
  have hrel := forall₂_getElem? hvals idx
  revert hrel
  generalize f.values[idx]? = x
  generalize f'.values[idx]? = y
  intro hrel
  cases hrel with
  | none => exact Option.Rel.none
  | some hv =>
      dsimp only
      cases htype : fd.type <;> rw [htype] at hv <;> first | exact Option.Rel.some (Eq.symm hv) | exact Option.Rel.none

/-- `RetrieveRealValue` reads four bytes of the union for a `float`, and all of them for a `double`. -/
theorem retrieveRealValue_rel :
    Option.Rel (fun x x' => x = x') (retrieveRealValue (env.withJunk junk) f idx)
      (retrieveRealValue (env.withJunk junk') f' idx) := by
  unfold retrieveRealValue
  rw [hfd, hfd']
  have hrel := forall₂_getElem? hvals idx
  revert hrel
  generalize f.values[idx]? = x
  generalize f'.values[idx]? = y
  intro hrel
  cases hrel with
  | none => exact Option.Rel.none
  | some hv =>
      dsimp only
      cases htype : fd.type <;> rw [htype] at hv <;> try exact Option.Rel.none
      case double => exact Option.Rel.some (congrArg UInt64.ofNat (Eq.symm hv))
      case float => exact Option.Rel.some (congrArg (fun x => env.widen (UInt32.ofNat x)) (Eq.symm hv))

omit hfd hfd'

/-- The whole union, of a type that uses all of it. -/
theorem readUnion_rel (hkind : fd.type.isReal = true) (hfloat : fd.type ≠ .float) :
    Option.Rel (fun x x' => x = x') (f.values[idx]?.map fun v => UInt64.ofNat v.primitive)
      (f'.values[idx]?.map fun v => UInt64.ofNat v.primitive) := by
  have hmember : fd.type.member = some .d := by
    cases htype : fd.type <;> rw [htype] at hkind hfloat <;>
      first | rfl | exact absurd hkind (by decide) | exact absurd rfl hfloat
  rw [hmember] at hvals
  exact rel_map (forall₂_getElem? hvals idx) fun _ _ hv => congrArg UInt64.ofNat (Eq.symm hv)

end Read

/-! ## What the accessors write

A setter writes the member of the type and leaves the rest of the union as it finds it, so that two new values
agree in that member whatever memory held before. -/

/-- `SetIntegerValue` writes a varint, four bytes or eight, by the type. -/
theorem setIntegerValue_sets (val : Nat) :
    SetsMember p FieldType.isInteger (fun type => setIntegerValue type val) (fun type => setIntegerValue type val) := by
  intro u u' type v v' _
  unfold setIntegerValue
  cases type
  -- the types of four bytes write the lower half only
  case fixed32 | sfixed32 => exact Option.Rel.some (setF_eq v v' val)
  case double | float | string | bytes | message | group => exact Option.Rel.none
  case int32 | int64 | uint32 | uint64 | bool | enum | sint32 | sint64 | fixed64 | sfixed64 => exact Option.Rel.some rfl

/-- `SetRealValue` writes the four bytes of a `float` or the eight of a `double`. -/
theorem setRealValue_sets (val : UInt64) : SetsMember p FieldType.isReal (fun type => setRealValue (env.withJunk junk) type val)
    (fun type => setRealValue (env.withJunk junk') type val) := by
  intro u u' type v v' _
  unfold setRealValue
  cases type
  case float => exact Option.Rel.some (setF_eq v v' _)
  case double => exact Option.Rel.some rfl
  all_goals exact Option.Rel.none

/-- `SetStringValue` writes the string. -/
theorem setStringValue_sets (val : List UInt8) :
    SetsMember p FieldType.isString (fun type => setStringValue type val) (fun type => setStringValue type val) := by
  intro u u' type v v' _
  unfold setStringValue
  cases type <;> first | exact Option.Rel.some rfl | exact Option.Rel.none

/-- `SetString` does not look at the type of a value that is there; the accessor has. -/
theorem assign_sets (val : List UInt8) :
    SetsMember p FieldType.isString (fun _ v => some { v with s := val }) (fun _ v => some { v with s := val }) := by
  intro u u' type v v' hkind
  cases type <;> first | exact Option.Rel.some rfl | cases hkind

/-- A value that an adder makes: new, and set. -/
theorem makeValue_rel {set set' : FieldType → Value → Option Value} (h : SetsMember p kind set set') (fd : FieldDescriptor)
    (hkind : kind fd.type = true) :
    Option.Rel (MadeAlike p w w' fd.type.member) (makeValue (env.withJunk junk) set w fd)
      (makeValue (env.withJunk junk') set' w' fd) :=
  rel_map (h w w' fd.type (newValue (junk .made)) (newValue (junk' .made)) hkind) fun _ _ hv =>
    ⟨fun _ => Extends.refl, fun _ => Extends.refl, hv⟩

/-- The message that `AddMessage` makes is new in both worlds, and so shows the same. -/
theorem makeMessage_rel (fd : FieldDescriptor) (hp : p < w.messages.length) (hp' : p < w'.messages.length) :
    Option.Rel (MadeAlike p w w' fd.type.member) (makeMessage (env.withJunk junk) w fd)
      (makeMessage (env.withJunk junk') w' fd) := by
  unfold makeMessage
  by_cases htype : fd.type = .message
  · refine rel_bind (rel_guard Iff.rfl) ?_
    intro _ _ _
    refine Option.Rel.some ⟨fun _ => extends_append _, fun _ => extends_append _, ?_⟩
    rw [htype]
    exact Or.inr ⟨_, _, newMessage fd.messageType, newMessage fd.messageType, rfl, rfl, Nat.ne_of_gt hp, Nat.ne_of_gt hp',
      List.getElem?_concat_length, List.getElem?_concat_length, rfl⟩
  · simp only [guard, if_neg htype, Option.failure_eq_none, Option.bind_eq_bind, Option.bind_none]
    exact Option.Rel.none

/-! ## Calls

Each call is its accessor, with the reader or the setter of its kind. -/

/-- What is returned and what the caller sees of it. -/
theorem rel_seen {β : Type} {x y : Option (World × β)} (S : World → World → β → β → Prop) (see : World → β → Seen)
    (h : Option.Rel (fun r r' => Related env p r.1 r'.1 ∧ S r.1 r'.1 r.2 r'.2) x y)
    (hsee : ∀ u u' b b', S u u' b b' → see u b = see u' b') :
    Option.Rel (fun r r' => Related env p r.1 r'.1 ∧ r.2 = r'.2) (x.map fun r => (r.1, see r.1 r.2))
      (y.map fun r => (r.1, see r.1 r.2)) :=
  rel_map h fun _ _ hr => ⟨hr.1, hsee _ _ _ _ hr.2⟩

/-- A result that is the same in both runs is seen as the same. -/
theorem rel_same {β : Type} {x y : Option (World × β)} (see : β → Seen)
    (h : Option.Rel (fun r r' => Related env p r.1 r'.1 ∧ r.2 = r'.2) x y) :
    Option.Rel (fun r r' => Related env p r.1 r'.1 ∧ r.2 = r'.2) (x.map fun r => (r.1, see r.2))
      (y.map fun r => (r.1, see r.2)) :=
  rel_seen (fun _ _ b b' => b = b') (fun _ b => see b) h fun _ _ _ _ hb => congrArg see hb

/-- A call that returns nothing. -/
theorem rel_done {x y : Option World} (h : Option.Rel (Related env p) x y) :
    Option.Rel (fun r r' => Related env p r.1 r'.1 ∧ r.2 = r'.2) (x.map fun w => (w, Seen.done))
      (y.map fun w => (w, Seen.done)) :=
  rel_map h fun _ _ hr => ⟨hr, rfl⟩

/-- **One call in related worlds**: it fails in both, or returns the same in both and leaves them related, whatever its values
    find in memory. -/
theorem exec_rel (c : TwinCall) (h : Related env p w w') (hready : Ready env p w w' c) :
    Option.Rel (fun r r' => Related env p r.1 r'.1 ∧ r.2 = r'.2) (c.exec env p w) (c.exec' env p w') := by
  obtain ⟨m, m', h⟩ := h
  obtain ⟨c, junk, junk'⟩ := c
  unfold TwinCall.exec TwinCall.exec'
  cases c with
  | fromString data len =>
      exact rel_same (fun ok => .parsed ok) (fromString_rel h hready)
  | getFieldSize name =>
      exact rel_same (fun n => .size n) (getFieldSize_rel h)
  | getInteger name idx =>
      apply rel_same (fun b : Nat × Nat => .integer b.1 b.2)
      refine get_rel (S := fun _ _ b b' => b = b') h hready ?_ ?_
      · intro _ _ _ _ _
        rfl
      · intro _ _ fd f f' idx _ hfd hfd' hvals
        exact rel_map (retrieveIntegerValue_rel hfd hfd' hvals) fun _ _ hx => congrArg decodeUInt64 hx
  | getReal name idx =>
      apply rel_same (fun b => .real b)
      refine get_rel (S := fun _ _ b b' => b = b') h hready ?_ ?_
      · intro _ _ _ _ _
        rfl
      · intro _ _ fd f f' idx _ hfd hfd' hvals
        exact retrieveRealValue_rel hfd hfd' hvals
  | getString name idx =>
      apply rel_same (fun b => .string b)
      refine get_rel (S := fun _ _ b b' => b = b') h hready ?_ ?_
      · intro _ _ _ _ _
        rfl
      · intro _ _ fd f f' idx hkind _ _ hvals
        exact readString_rel hvals hkind
  | getMessage name idx =>
      apply rel_seen (SamePtr p) World.see
      · refine get_rel (S := SamePtr p) h hready ?_ ?_
        · intro fd q _ _ hq
          cases hq
          exact Or.inl ⟨rfl, rfl⟩
        · intro _ _ fd f f' idx hkind _ _ hvals
          exact readMessage_rel hvals hkind
      · intro _ _ _ _ hq
        exact hq.see
  | setInteger name idx low hi =>
      exact rel_done (set_rel h hready (setIntegerValue_sets _) (setIntegerValue_sets _))
  | setReal name idx val =>
      exact rel_done (set_rel h hready (setRealValue_sets val) (setRealValue_sets val))
  | setString name idx val =>
      exact rel_done (set_rel h hready (setStringValue_sets val) (assign_sets val))
  | addInteger name low hi =>
      apply rel_done
      refine rel_map (add_rel h fun _ _ fd hkind _ _ => makeValue_rel (setIntegerValue_sets _) fd hkind) ?_
      intro _ _ hr
      exact hr.1
  | addReal name val =>
      apply rel_done
      refine rel_map (add_rel h fun _ _ fd hkind _ _ => makeValue_rel (setRealValue_sets val) fd hkind) ?_
      intro _ _ hr
      exact hr.1
  | addString name val =>
      apply rel_done
      refine rel_map (add_rel h fun _ _ fd hkind _ _ => makeValue_rel (setStringValue_sets val) fd hkind) ?_
      intro _ _ hr
      exact hr.1
  | addMessage name =>
      apply rel_seen (SamePtr p) World.see
      · refine rel_map (add_rel h fun _ _ fd _ hp hp' => makeMessage_rel fd hp hp') ?_
        rintro r r' ⟨hrel, type, hkind, hv⟩
        refine ⟨hrel, ?_⟩
        cases type <;> first | exact absurd hkind (by decide) | exact hv | exact False.elim hv
      · intro _ _ _ _ hq
        exact hq.see
  | deleteInteger name idx =>
      apply rel_same (fun b : Nat × Nat => .integer b.1 b.2)
      refine delete_rel (S := fun _ _ b b' => b = b') h hready (fun _ => True) ?_ (fun _ _ _ _ => Or.inl trivial) ?_
      · intro _ _ fd f f' idx _ _ hfd hfd' hvals
        exact rel_map (retrieveIntegerValue_rel hfd hfd' hvals) fun _ _ hx => congrArg decodeUInt64 hx
      · intro _ _ _ _ _ _ _ _ hb
        exact hb
  | deleteReal name idx =>
      obtain ⟨hindex, hreal⟩ := hready
      apply rel_same (fun b => .real b)
      refine delete_rel (S := fun _ _ b b' => b = b') h hindex (fun type => type ≠ .float) ?_ ?_ ?_
      · intro _ _ fd f f' idx hkind hfloat _ _ hvals
        exact readUnion_rel hvals hkind hfloat
      · intro fd f hfd hf
        -- a `float` is let through only with an index that is refused
        by_cases hfloat : fd.type = .float
        · exact Or.inr (hreal m fd f h.found hfd hf hfloat)
        · exact Or.inl hfloat
      · intro _ _ _ _ _ _ _ _ hb
        exact hb
  | deleteString name idx =>
      apply rel_same (fun b => .string b)
      refine delete_rel (S := fun _ _ b b' => b = b') h hready (fun _ => True) ?_ (fun _ _ _ _ => Or.inl trivial) ?_
      · intro _ _ fd f f' idx hkind _ _ _ hvals
        exact readString_rel hvals hkind
      · intro _ _ _ _ _ _ _ _ hb
        exact hb
  | deleteMessage name idx =>
      apply rel_seen (SamePtr p) World.see
      · refine delete_rel (S := SamePtr p) h hready (fun _ => True) ?_ (fun _ _ _ _ => Or.inl trivial) ?_
        · intro _ _ fd f f' idx hkind _ _ _ hvals
          exact readMessage_rel hvals hkind
        · intro _ _ _ _ _ _ hu hu' hq
          exact hq.mono hu hu'
      · intro _ _ _ _ hq
        exact hq.see

/-- An inserted call leaves the worlds related. -/
theorem peek_rel {t : World} (k : Peek) (h : Related env p w w') (hpeek : k.exec env p w' = some t) :
    Related env p w t := by
  obtain ⟨m, m', h⟩ := h
  obtain ⟨r, hr, rfl⟩ := Option.map_eq_some_iff.mp hpeek
  exact peek_related h hr

/-- A new message in both worlds: no field, and nothing unknown. -/
theorem related_new {t : Nat} (hnew : w.messages[p]? = some (newMessage t)) : Related env p w w :=
  ⟨_, _, {
    mem := rfl
    found := hnew
    found' := hnew
    alike := ⟨rfl, List.Pairwise.nil, List.Forall₂.nil, Option.Rel.none⟩
    sized := fun _ hf _ => absurd hf List.not_mem_nil }⟩

/-! ## The result -/

instance : Decidable (RecordReady d fields st) :=
  decidable_of_iff ((∀ f ∈ fields, f.id = st.fieldId → f.decoded = false) ∧ (fields.find st.fieldId = none →
    ∀ fd ∈ d.findFieldByNumber st.fieldId, fd.packed = true ∨ fd.type = .message → st.wireType = .kLengthDelimited))
    ⟨fun h => ⟨h.1, h.2⟩, fun h => ⟨h.closed, h.sized⟩⟩

/-- The records from here on are ready, and there are fewer than `fuel`. -/
def recordsReady (junk : Junk) (mem : Mem) (d : Descriptor) : Nat → ParserState × FieldMap → Bool
  | 0, _ => false
  | fuel + 1, s =>
      if s.1.cur < s.1.slice.endAddr then
        match parseRecord mem s.1 with
        | (.kOk, st) =>
            decide (RecordReady d s.2 st) && match fillField junk d s.2 st with
              | some fields => recordsReady junk mem d fuel (st, fields)
              | none => true
        | _ => true
      else true

/-- What `recordsReady` has checked holds for every record that the loop meets. -/
theorem recordsReady_run (fuel : Nat) {its : List Unit} {s s' : ParserState × FieldMap}
    (h : recordsReady junk mem d fuel s = true) (hrun : Run (Iter junk mem d) s its s') (hlt : s'.1.cur < s'.1.slice.endAddr)
    (hrec : parseRecord mem s'.1 = (.kOk, st)) : RecordReady d s'.2 st := by
  induction fuel generalizing s its with
  | zero => cases h
  | succ fuel ih =>
      unfold recordsReady at h
      -- the loop has not gone round yet, or its first record leads to the rest
      rcases hrun.head_cases with ⟨-, rfl⟩ | ⟨t, _, bs, rfl, hstep, hrest⟩
      · rw [if_pos hlt, hrec] at h
        exact of_decide_eq_true (Bool.and_eq_true_iff.mp h).1
      · obtain ⟨hlt', hrec', hfill⟩ := parseStep_some hstep
        rw [if_pos hlt', hrec'] at h
        dsimp only at h
        rw [hfill] at h
        exact ih (Bool.and_eq_true_iff.mp h).2 hrest

/-- A message with a packed `repeated uint64 a = 1`, an `optional uint64 n = 2` and an `optional float x = 3`. -/
def lazyDescriptor : Descriptor :=
  ⟨[⟨"a", 1, .uint64, .repeated, true, 0, 0, 0, [], firstNumber_pos, firstNumber_lt, packed_uint64⟩,
    ⟨"n", 2, .uint64, .optional, false, 0, 0, 0, [], secondNumber_pos, secondNumber_lt, unpacked_repeated⟩,
    ⟨"x", 3, .float, .optional, false, 0, 0, 0, [], thirdNumber_pos, thirdNumber_lt, unpacked_repeated⟩],
    by decide, by decide⟩

/-- There is one descriptor, and no call here uses the conversions. -/
def lazyEnv : Env := ⟨fun _ => lazyDescriptor, zeroJunk, fun _ => 0, fun _ => 0⟩

/-- The numbers 5 and 6 in `a`, and 7 in `n`; 1.5 in `x`; and a 5 in `a` that has no length. -/
def lazyWorld : World := ⟨memAt [0x0a, 2, 5, 6, 0x10, 7, 0x1d, 0, 0, 0xc0, 0x3f, 0x08, 5], [newMessage 0]⟩

/-- In the run with inserted calls the values find ones in both halves of the union, in the run without them zeros. -/
def onesJunk : Junk := fun _ => ⟨⟨1, 1⟩, 2 ^ 32 + 1⟩

/-- A call that finds zeros in the one run and ones in the other. -/
def lazyCall (call : Call) : TwinCall ⊕ Peek := .inl ⟨call, zeroJunk, onesJunk⟩

/-- An inserted call, which finds ones. -/
def lazyPeek (name : String) : TwinCall ⊕ Peek := .inr ⟨name, onesJunk⟩

/-- What is seen of an integer or a real number, and 1 for a string that is accepted. -/
def Seen.low : Option Seen → Nat
  | some (.parsed ok) => ok.toNat
  | some (.integer low _) => low
  | some (.real val) => val.toNat
  | _ => 0

end CompactProtobuf
end Snippets
