import Snippets.CompactProtobuf.Uninitialised

/-!
# `CompactProtobuf.Lazy` — two worlds that differ in what is decoded

The fields of a message are decoded when a call first needs them. Two worlds are `Related` when their messages differ in
nothing that was set but that: a field is decoded in both, or in neither, or only the second world has decoded it, and the
first would get the same values (`Ahead`), whatever its values find in memory then. The accessors do the same in related
worlds, provided that an index into a packed field that only the second world has decoded is 0 (`IndexReady`):
`CheckValidIndex` comes before `TryDecodeField`, and a packed field has one value until it is decoded.
-/

namespace Snippets

open Lib

namespace CompactProtobuf

variable {env : Env} {d : Descriptor} {w w' u u' : World} {p : MessagePtr} {m m' : Message} {fd : FieldDescriptor}
  {f f' g g' : Field} {id : Int} {idx : Nat} {v v' : Value} {junk junk' : Junk}

/-! ## Fields -/

/-- Only the second field is decoded, and decoding the first gives the same values. -/
structure Ahead (env : Env) (p : MessagePtr) (w' : World) (f f' : Field) : Prop where
  closed : f.decoded = false
  decoded : f'.decoded = true
  agrees : ∀ (junk : Junk) (u : World), u.mem = w'.mem → p < u.messages.length →
    ∃ u₁ f₁, decodeField (env.withJunk junk) u f = some (u₁, f₁) ∧
      List.Forall₂ (SameValue p u₁ w' f.member) f₁.values f'.values

/-- Both fields are decoded, with the same values. -/
structure Opened (p : MessagePtr) (w w' : World) (f f' : Field) : Prop where
  left : f.decoded = true
  right : f'.decoded = true
  values : List.Forall₂ (SameValue p w w' f.member) f.values f'.values

/-- A field in the two worlds. -/
structure Matches (env : Env) (d : Descriptor) (p : MessagePtr) (w w' : World) (f f' : Field) : Prop where
  header : f' = { f with decoded := f'.decoded, values := f'.values }
  fieldDescriptor : f.fieldDescriptor = d.findFieldByNumber f.id
  unknown : f.unknown = f.fieldDescriptor.isNone
  values : Closed d f f' ∨ Opened p w w' f f' ∨ Ahead env p w' f f'

/-- Values stay the same when the worlds are extended. -/
theorem sameValues_mono {values values' : List Value} {member : Option Member}
    (h : List.Forall₂ (SameValue p w w' member) values values') (hu : Extends p w u) (hu' : Extends p w' u') :
    List.Forall₂ (SameValue p u u' member) values values' :=
  h.imp fun _ _ hv => hv.mono hu hu'

/-- Fields match in all extensions of the two worlds: what a later decoding will give does not depend on them. -/
theorem Matches.mono (h : Matches env d p w w' f f') (hu : Extends p w u) (hu' : Extends p w' u') :
    Matches env d p u u' f f' := by
  refine ⟨h.header, h.fieldDescriptor, h.unknown, ?_⟩
  -- closed in both, open in both, or open in the second only
  rcases h.values with hclosed | hopened | hahead
  · exact Or.inl hclosed
  · exact Or.inr (Or.inl ⟨hopened.left, hopened.right, sameValues_mono hopened.values hu hu'⟩)
  · refine Or.inr (Or.inr ⟨hahead.closed, hahead.decoded, ?_⟩)
    intro junk x hmem hp
    obtain ⟨u₁, f₁, hf₁, hvals⟩ := hahead.agrees junk x (hmem.trans hu'.mem) hp
    exact ⟨u₁, f₁, hf₁, sameValues_mono hvals Extends.refl hu'⟩

/-- Nothing but the values and the flag is different in two fields that match. -/
theorem Matches.id_eq (h : Matches env d p w w' f f') : f'.id = f.id := by rw [h.header]

theorem Matches.unknown_eq (h : Matches env d p w w' f f') : f'.unknown = f.unknown := by rw [h.header]

theorem Matches.fieldDescriptor_eq (h : Matches env d p w w' f f') : f'.fieldDescriptor = f.fieldDescriptor := by rw [h.header]

theorem Matches.wireType_eq (h : Matches env d p w w' f f') : f'.wireType = f.wireType := by rw [h.header]

/-- Whether the length is set where it will be read does not depend on the flag. -/
theorem Matches.sized_iff (h : Matches env d p w w' f f') : Sized f' ↔ Sized f := by
  unfold Sized
  rw [h.fieldDescriptor_eq, h.wireType_eq]

/-- A field that the first world has decoded has the same values in the second. -/
theorem Matches.of_decoded (h : Matches env d p w w' f f') (hf : f.decoded = true) : Opened p w w' f f' := by
  rcases h.values with hclosed | hopened | hahead
  · rw [hclosed.closed] at hf
    cases hf
  · exact hopened
  · rw [hahead.closed] at hf
    cases hf

/-- A field that the second world has not decoded is not decoded in the first. -/
theorem Matches.of_closed (h : Matches env d p w w' f f') (hf' : f'.decoded = false) : Closed d f f' := by
  rcases h.values with hclosed | hopened | hahead
  · exact hclosed
  · rw [hopened.right] at hf'
    cases hf'
  · rw [hahead.decoded] at hf'
    cases hf'

/-- `ParseMessageLazy` does the same to two fields that match, if it adds nothing to a decoded one. -/
theorem parses_matches : Parses d (Matches env d p w w') where
  id_eq := fun _ _ hf => hf.id_eq
  unknown_eq := fun _ _ hf => hf.unknown_eq
  closed := by
    intro f f' hf
    refine ⟨?_, hf.fieldDescriptor, hf.unknown, Or.inl hf⟩
    rw [hf.decoded_eq, ← hf.closed]
    exact hf.header

/-! ## Messages -/

/-- The messages at `p`, in the two worlds. -/
structure Paired (env : Env) (p : MessagePtr) (w w' : World) (m m' : Message) : Prop where
  mem : w'.mem = w.mem
  found : w.messages[p]? = some m
  found' : w'.messages[p]? = some m'
  alike : MessageAlike (Matches env (env.pool m.descriptor) p w w') m m'
  sized : ∀ f' ∈ m'.fields, f'.decoded = false → Sized f'

/-- The worlds are related when there are messages at `p` that are paired. -/
def Related (env : Env) (p : MessagePtr) (w w' : World) : Prop := ∃ m m', Paired env p w w' m m'

/-- Both messages are there. -/
theorem Paired.lt (h : Paired env p w w' m m') : p < w.messages.length := (List.getElem?_eq_some_iff.mp h.found).1

theorem Paired.lt' (h : Paired env p w w' m m') : p < w'.messages.length := (List.getElem?_eq_some_iff.mp h.found').1

/-- The fields of the second message are in order too. -/
theorem Paired.sorted' (h : Paired env p w w' m m') : Sorted m'.fields :=
  sorted_pointwise (fun _ _ hf => hf.id_eq) h.alike.sorted h.alike.fields

/-- Messages that are alike in a relation of the fields are alike in a weaker one. -/
theorem MessageAlike.mono {R S : Field → Field → Prop} (h : MessageAlike R m m') (hRS : ∀ f f', R f f' → S f f') :
    MessageAlike S m m' :=
  ⟨h.descriptor, h.sorted, h.fields.imp fun f f' => hRS f f', rel_mono h.unknownFields fun _ _ hf => hf.imp fun f f' => hRS f f'⟩

/-- New messages do not matter. -/
theorem Paired.frame (h : Paired env p w w' m m') (hu : ∀ q, Extends q w u) (hu' : ∀ q, Extends q w' u') :
    Paired env p u u' m m' where
  mem := ((hu' p).mem.trans h.mem).trans (hu p).mem.symm
  -- the frame condition at another pointer says that the message at `p` stays
  found := (hu (p + 1)).old p m (Nat.ne_of_lt (Nat.lt_succ_self p)) h.found
  found' := (hu' (p + 1)).old p m' (Nat.ne_of_lt (Nat.lt_succ_self p)) h.found'
  alike := h.alike.mono fun _ _ hf => hf.mono (hu p) (hu' p)
  sized := h.sized

/-- A change of the two messages that keeps their fields alike. -/
theorem Paired.change {g g' : FieldMap → FieldMap} (h : Paired env p w w' m m') (hs : Sorted (g m.fields))
    (hg : List.Forall₂ (Matches env (env.pool m.descriptor) p w w') (g m.fields) (g' m'.fields))
    (hsized : ∀ f' ∈ g' m'.fields, f' ∈ m'.fields ∨ f'.decoded = true) :
    Paired env p (w.change p g) (w'.change p g') { m with fields := g m.fields } { m' with fields := g' m'.fields } where
  mem := h.mem
  found := change_self h.found
  found' := change_self h.found'
  alike := by
    have halike : MessageAlike (Matches env (env.pool m.descriptor) p w w') { m with fields := g m.fields }
        { m' with fields := g' m'.fields } := ⟨h.alike.descriptor, hs, hg, h.alike.unknownFields⟩
    exact halike.mono fun _ _ hf => hf.mono (extends_change g) (extends_change g')
  sized := by
    intro f' hf' hclosed
    rcases hsized f' hf' with hold | hdec
    · exact h.sized f' hold hclosed
    · rw [hdec] at hclosed
      cases hclosed

/-- Both fields are stored, in the place of those with their number. -/
theorem Paired.store (h : Paired env p w w' m m') (hf : Matches env (env.pool m.descriptor) p w w' f f')
    (hdec : f'.decoded = true ∨ f' ∈ m'.fields) :
    ∃ n n', n.descriptor = m.descriptor ∧ Paired env p (w.store p f) (w'.store p f') n n' := by
  have hs : Sorted (FieldMap.modify m.fields f.id fun _ => f) := sorted_modify h.alike.sorted fun _ _ _ => rfl
  have hfields : List.Forall₂ (Matches env (env.pool m.descriptor) p w w') (FieldMap.modify m.fields f.id fun _ => f)
      (FieldMap.modify m'.fields f'.id fun _ => f') := by
    rw [hf.id_eq]
    exact modify_pointwise (fun _ _ hg => hg.id_eq) (fun _ _ _ _ _ => hf) h.alike.fields
  refine ⟨{ m with fields := FieldMap.modify m.fields f.id fun _ => f },
    { m' with fields := FieldMap.modify m'.fields f'.id fun _ => f' }, rfl, ?_⟩
  refine h.change hs hfields ?_
  intro g' hg'
  -- a field of the second message is an old one or the one that is stored
  obtain ⟨x, hx, rfl | ⟨-, rfl⟩⟩ := FieldMap.mem_modify hg'
  · exact Or.inl hx
  · exact hdec.symm

/-- Storing what is there changes nothing. -/
theorem store_self (hm : w.messages[p]? = some m) (hs : Sorted m.fields) (hf : f ∈ m.fields) : w.store p f = w := by
  have hmessages : w.messages.modify p (fun m => { m with fields := FieldMap.modify m.fields f.id fun _ => f }) = w.messages := by
    apply List.ext_getElem?
    intro q
    by_cases hq : q = p
    · subst hq
      rw [List.getElem?_modify_eq, hm]
      show some { m with fields := FieldMap.modify m.fields f.id fun _ => f } = some m
      rw [modify_self hs hf]
    · exact List.getElem?_modify_ne _ _ (Ne.symm hq)
  show { w with messages := w.messages.modify p _ } = w
  rw [hmessages]

/-! ## Decoding -/

/-- The field `f`, which both worlds have decoded now. -/
def TriedAlike (env : Env) (d : Nat) (p : MessagePtr) (f : Field) (r r' : World × Field) : Prop :=
  ∃ m m', m.descriptor = d ∧ Paired env p r.1 r'.1 m m' ∧ Matches env (env.pool d) p r.1 r'.1 r.2 r'.2 ∧ r.2.decoded = true ∧
    r.2.fieldDescriptor = f.fieldDescriptor

/-- The two fields after decoding. -/
theorem matches_of_decoded {f₁ f₂ : Field} (hmatch : Matches env d p w w' f f')
    (h₁ : f₁ = { f with decoded := true, values := f₁.values }) (h₂ : f₂ = { f' with decoded := true, values := f₂.values })
    (hvals : List.Forall₂ (SameValue p u u' f.member) f₁.values f₂.values) : Matches env d p u u' f₁ f₂ := by
  have hmember : f₁.member = f.member := by
    unfold Field.member
    rw [h₁]
  refine ⟨?_, ?_, ?_, Or.inr (Or.inl ⟨?_, ?_, ?_⟩)⟩
  · rw [h₂, h₁, hmatch.header]
  · rw [h₁]
    exact hmatch.fieldDescriptor
  · rw [h₁]
    exact hmatch.unknown
  · rw [h₁]
  · rw [h₂]
  · rw [hmember]
    exact hvals

/-- **`TryDecodeField` in related worlds** leads to related worlds. -/
theorem tryDecodeField_rel (junk junk' : Junk) (h : Paired env p w w' m m') (hf' : f' ∈ m'.fields)
    (hmatch : Matches env (env.pool m.descriptor) p w w' f f') :
    Option.Rel (TriedAlike env m.descriptor p f) (w.tryDecodeField (env.withJunk junk) p f)
      (w'.tryDecodeField (env.withJunk junk') p f') := by
  rcases hmatch.values with hclosed | hopened | hahead
  · -- both decode the field now
    have hsized := hmatch.sized_iff.mp (h.sized f' hf' hclosed.decoded_eq)
    have hrel := decodeField_rel env junk junk' hclosed hsized h.mem h.lt h.lt'
    rw [tryDecodeField_of_undecoded hclosed.closed, tryDecodeField_of_undecoded hclosed.decoded_eq]
    refine rel_map (rel_of_results hrel fun r r' hr hr' halike => And.intro hr (And.intro hr' halike)) ?_
    rintro ⟨w₁, f₁⟩ ⟨w₂, f₂⟩ ⟨hr, hr', halike⟩
    obtain ⟨hheader, hext⟩ := decodeField_header hr
    obtain ⟨hheader', hext'⟩ := decodeField_header hr'
    have hmatch' := matches_of_decoded hmatch hheader hheader' halike.values
    have hdec : f₂.decoded = true := by rw [show f₂ = _ from hheader']
    obtain ⟨n, n', hn, hpaired⟩ := (h.frame hext hext').store hmatch' (Or.inl hdec)
    have hopen : f₁.decoded = true ∧ f₁.fieldDescriptor = f.fieldDescriptor := by
      rw [show f₁ = _ from hheader]
      exact ⟨rfl, rfl⟩
    exact ⟨n, n', hn, hpaired, hmatch'.mono (extends_change _) (extends_change _), hopen⟩
  · rw [tryDecodeField_of_decoded hopened.left, tryDecodeField_of_decoded hopened.right]
    exact Option.Rel.some ⟨m, m', rfl, h, hmatch, hopened.left, rfl⟩
  · -- only the first world decodes it: the second has done so before
    obtain ⟨w₁, f₁, hdecode, hvals⟩ := hahead.agrees junk w h.mem.symm h.lt
    obtain ⟨hheader, hext⟩ := decodeField_header hdecode
    rw [tryDecodeField_of_undecoded hahead.closed, hdecode, tryDecodeField_of_decoded hahead.decoded]
    have hself : f' = { f' with decoded := true, values := f'.values } := by rw [← hahead.decoded]
    have hmatch' := matches_of_decoded hmatch hheader hself hvals
    obtain ⟨n, n', hn, hpaired⟩ := (h.frame hext fun _ => Extends.refl).store hmatch' (Or.inl hahead.decoded)
    rw [store_self h.found' h.sorted' hf'] at hpaired
    have hopen : f₁.decoded = true ∧ f₁.fieldDescriptor = f.fieldDescriptor := by
      rw [show f₁ = _ from hheader]
      exact ⟨rfl, rfl⟩
    exact Option.Rel.some ⟨n, n', hn, hpaired, hmatch'.mono (extends_change _) Extends.refl, hopen⟩

/-! ## Access -/

/-- An index into a packed field that only the second world has decoded is 0. -/
def IndexReady (env : Env) (w w' : World) (p : MessagePtr) (name : String) (idx : Nat) : Prop :=
  ∀ m m' fd f f', w.messages[p]? = some m → w'.messages[p]? = some m' →
    (env.pool m.descriptor).findFieldByName name = some fd → m.fields.find fd.number = some f →
    m'.fields.find fd.number = some f' → fd.packed = true → f.decoded = false → f'.decoded = true → idx = 0

/-- The rule of looking up a field. -/
theorem lookup_rel {β γ : Type} {S : β → γ → Prop} {k : FieldDescriptor × Option Field → Option β}
    {l : FieldDescriptor × Option Field → Option γ} (kind : FieldType → Bool) (name : String) (h : Paired env p w w' m m')
    (hnone : ∀ fd, fd ∈ (env.pool m.descriptor).fields → kind fd.type = true → m.fields.find fd.number = none →
      Option.Rel S (k (fd, none)) (l (fd, none)))
    (hsome : ∀ fd f f', fd ∈ (env.pool m.descriptor).fields → fd.name = name → kind fd.type = true →
      m.fields.find fd.number = some f → m'.fields.find fd.number = some f' →
      Matches env (env.pool m.descriptor) p w w' f f' → Option.Rel S (k (fd, some f)) (l (fd, some f'))) :
    Option.Rel S ((w.lookup (env.withJunk junk) p kind name).bind k) ((w'.lookup (env.withJunk junk') p kind name).bind l) := by
  cases hcheck : (env.pool m.descriptor).check kind name with
  | none =>
      have hleft : w.lookup (env.withJunk junk) p kind name = none := by
        unfold World.lookup
        simp only [h.found, hcheck, Option.bind_eq_bind, Option.bind_some, Option.bind_none]
      have hright : w'.lookup (env.withJunk junk') p kind name = none := by
        unfold World.lookup
        simp only [h.found', h.alike.descriptor, hcheck, Option.bind_eq_bind, Option.bind_some, Option.bind_none]
      rw [hleft, hright]
      exact Option.Rel.none
  | some fd =>
      obtain ⟨hfd, rfl, hkind⟩ := check_inv hcheck
      have hfd' : fd ∈ (env.pool m'.descriptor).fields := by
        rw [h.alike.descriptor]
        exact hfd
      have hleft : w.lookup (env.withJunk junk) p kind fd.name = some (fd, m.fields.find fd.number) :=
        lookup_eq h.found hfd hkind
      have hright : w'.lookup (env.withJunk junk') p kind fd.name = some (fd, m'.fields.find fd.number) :=
        lookup_eq h.found' hfd' hkind
      rw [hleft, hright]
      have hrel := find_pointwise (fun _ _ hf => hf.id_eq) h.alike.fields (fd.number : Int)
      cases hf : m.fields.find fd.number with
      | none =>
          cases hf' : m'.fields.find fd.number with
          | none => exact hnone fd hfd hkind hf
          | some f' =>
              rw [hf, hf'] at hrel
              cases hrel
      | some f =>
          cases hf' : m'.fields.find fd.number with
          | none =>
              rw [hf, hf'] at hrel
              cases hrel
          | some f' =>
              rw [hf, hf'] at hrel
              cases hrel with
              | some hmatch => exact hsome fd f f' hfd rfl hkind hf hf' hmatch

/-- `CheckValidIndex` comes out the same. -/
theorem checkValidIndex_matches (h : Matches env d p w w' f f') (hfd : f.fieldDescriptor = some fd) (hmem : w.mem = w'.mem)
    (hp : p < w.messages.length) (hidx : fd.packed = true → f.decoded = false → f'.decoded = true → idx = 0) :
    checkValidIndex f' fd idx = checkValidIndex f fd idx := by
  unfold checkValidIndex
  rcases h.values with hclosed | hopened | hahead
  · rw [hclosed.values.length_eq]
  · rw [hopened.values.length_eq]
  · obtain ⟨u₁, f₁, hdecode, hvals⟩ := hahead.agrees env.junk w hmem hp
    obtain ⟨-, -, hlen⟩ := decodeField_spec (p := p) hfd hdecode
    by_cases hpacked : fd.packed = true
    · rw [if_pos hpacked] at hlen
      have hpos : 0 < f'.values.length := by
        rw [← hvals.length_eq]
        exact List.length_pos_iff.mpr hlen.2
      -- one value before, at least one after
      rw [hidx hpacked hahead.closed hahead.decoded, hlen.1]
      have hle : ¬ f'.values.length ≤ 0 := Nat.not_le_of_gt hpos
      simp [hle]
    · rw [if_neg hpacked] at hlen
      rw [← hvals.length_eq, hlen]

/-- A field that was found under the number of a descriptor has this descriptor. -/
theorem Matches.descriptor_found {fields : FieldMap} (h : Matches env d p w w' f f') (hfd : fd ∈ d.fields)
    (hf : fields.find fd.number = some f) : f.fieldDescriptor = some fd := by
  rw [h.fieldDescriptor, (FieldMap.find_some hf).2]
  exact Descriptor.findFieldByNumber_eq hfd

/-- The index is valid in both worlds or in neither, and both fields are decoded then. -/
theorem access_rel (h : Paired env p w w' m m') (hfd : fd ∈ (env.pool m.descriptor).fields)
    (hf : m.fields.find fd.number = some f) (hf' : m'.fields.find fd.number = some f')
    (hmatch : Matches env (env.pool m.descriptor) p w w' f f')
    (hidx : fd.packed = true → f.decoded = false → f'.decoded = true → idx = 0) :
    Option.Rel (fun r r' => TriedAlike env m.descriptor p f (r.1, r.2.1) (r'.1, r'.2.1) ∧ r'.2.2 = r.2.2)
      (w.access (env.withJunk junk) p fd f idx) (w'.access (env.withJunk junk') p fd f' idx) := by
  have hcheck := checkValidIndex_matches hmatch (hmatch.descriptor_found hfd hf) h.mem.symm h.lt hidx
  unfold World.access
  refine rel_bind (rel_guard (by rw [hcheck])) ?_
  intro _ _ _
  refine rel_bind (tryDecodeField_rel junk junk' h (FieldMap.find_some hf').1 hmatch) ?_
  rintro ⟨w₁, f₁⟩ ⟨w₂, f₂⟩ htried
  exact Option.Rel.some ⟨htried, rfl⟩

/-! ## Changing a field -/

/-- A decoded field with other values. -/
theorem Matches.withValues {values values' : List Value} (h : Matches env d p w w' f f') (hdec : f.decoded = true)
    (hvals : List.Forall₂ (SameValue p w w' f.member) values values') :
    Matches env d p w w' { f with values := values } { f' with values := values' } := by
  refine ⟨?_, h.fieldDescriptor, h.unknown, Or.inr (Or.inl ⟨hdec, (h.of_decoded hdec).right, hvals⟩)⟩
  rw [h.header]

/-- `AddKnownField`, with a value. -/
theorem addField_rel (h : Paired env p w w' m m') (hfd : fd ∈ (env.pool m.descriptor).fields)
    (hnone : m.fields.find fd.number = none) (hv : SameValue p w w' fd.type.member v v') :
    Option.Rel (fun u u' => Related env p u u' ∧ Extends p w u ∧ Extends p w' u') (w.addField p fd v) (w'.addField p fd v') := by
  unfold World.addField
  cases hknown : knownField fd with
  | none => exact Option.Rel.none
  | some f =>
      have hf : f = ⟨true, false, fd.number, f.wireType, some fd, []⟩ := by
        unfold knownField at hknown
        obtain ⟨wireType, -, rfl⟩ := Option.map_eq_some_iff.mp hknown
        rfl
      have hmatch : Matches env (env.pool m.descriptor) p w w' { f with values := [v] } { f with values := [v'] } := by
        rw [hf]
        exact ⟨rfl, (Descriptor.findFieldByNumber_eq hfd).symm, rfl,
          Or.inr (Or.inl ⟨rfl, rfl, List.Forall₂.cons hv List.Forall₂.nil⟩)⟩
      have hid : FieldMap.find m.fields ({ f with values := [v] } : Field).id = none := by
        rw [hf]
        exact hnone
      have hopen : ∀ f' ∈ FieldMap.insert { f with values := [v'] } m'.fields, f' ∈ m'.fields ∨ f'.decoded = true := by
        intro f' hf'
        rcases FieldMap.mem_insert.mp hf' with rfl | hold
        · right
          rw [hf]
        · exact Or.inl hold
      have hpaired := h.change (sorted_insert h.alike.sorted hid)
        (insert_pointwise (fun _ _ hf => hf.id_eq) hmatch h.alike.fields) hopen
      exact Option.Rel.some ⟨⟨_, _, hpaired⟩, extends_change _, extends_change _⟩

end CompactProtobuf
end Snippets
