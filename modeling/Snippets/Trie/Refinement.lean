import Snippets.Trie.Lookup

/-!
# `Trie.Refinement` — when a trie is a finite map

`Get` shows what the node of a string holds. A string that was a key has its last value there. A string that was no key
but has a node, as a prefix of a key, shows junk, and the empty string is never shown. So `Get` is right exactly on the
other strings (`Mapped`), as long as the arrays of children have the characters.
-/

namespace Snippets
namespace Trie

variable {V : Type} {alpha : Alphabet} {junk v : V} {p root : TrieNode V} {key k : List UInt8} {c : UInt8}
  {ops : List (List UInt8 × V)}

/-! ## `Get`

The loop follows the string and keeps the value of the last node it stood in. -/

/-- The loop gives the value of the string's node, or what it had when there is no step to take. -/
theorem getLoop_spec (h : Sized alpha p)
    (hreach : ∀ q c, q ++ [c] <+: k → (view alpha p q).isSome → alpha.InArray c) (res : Option V) :
    getLoop alpha p k res = some (if k = [] then res else (view alpha p k).or res) := by
  -- by induction on the string
  induction k generalizing p res with
  | nil => rfl
  | cons c k ih =>
      have hin : alpha.InArray c := hreach [] c (by simp) rfl
      obtain ⟨⟨i, found⟩, hc⟩ := (child_inArray h).mpr hin
      rw [getLoop, if_neg (List.cons_ne_nil c k)]
      simp only [hc, Option.bind_eq_bind, Option.bind_some]
      cases found with
      | none =>
          rw [view_cons_null hc]
          rfl
      | some node =>
          have hrest : ∀ q c', q ++ [c'] <+: k → (view alpha node q).isSome → alpha.InArray c' := by
            intro q c' hq hsome
            rw [← view_cons_found hc] at hsome
            exact hreach (c :: q) c' (List.cons_prefix_cons.mpr ⟨rfl, hq⟩) hsome
          show getLoop alpha node k (if k = [] then some node.v else res) = _
          rw [ih (h.found hc) hrest, view_cons_found hc]
          by_cases hk : k = []
          · subst hk
            rfl
          · rw [if_neg hk, if_neg hk]

/-- A `Get` that has a result read inside the arrays. -/
theorem inArray_of_getLoop (h : Sized alpha p) {res r : Option V} (hget : getLoop alpha p k res = some r) {q : List UInt8}
    (hq : q ++ [c] <+: k) (hsome : (view alpha p q).isSome) : alpha.InArray c := by
  induction k generalizing p res q with
  | nil => exact absurd (List.prefix_nil.mp hq) (by simp)
  | cons c' k ih =>
      rw [getLoop] at hget
      cases hc : child alpha p c' with
      | none =>
          rw [hc] at hget
          cases hget
      | some r' =>
          obtain ⟨i, found⟩ := r'
          cases q with
          | nil =>
              rw [List.nil_append] at hq
              obtain ⟨rfl, -⟩ := List.cons_prefix_cons.mp hq
              exact (child_inArray h).mp ⟨_, hc⟩
          | cons b q =>
              rw [List.cons_append] at hq
              obtain ⟨rfl, hrest⟩ := List.cons_prefix_cons.mp hq
              cases found with
              | none =>
                  rw [view_cons_null hc] at hsome
                  cases hsome
              | some node =>
                  simp only [hc, Option.bind_eq_bind, Option.bind_some] at hget
                  rw [view_cons_found hc] at hsome
                  exact ih (h.found hc) hget hrest hsome

/-- A `Put` that has a result did so too. -/
theorem inArray_of_putLoop (h : Sized alpha p) {p' : TrieNode V} (hput : putLoop alpha junk v p key = some p') :
    ∀ c ∈ key, alpha.InArray c := by
  induction key generalizing p p' with
  | nil =>
      intro c hc
      cases hc
  | cons b key ih =>
      rw [putLoop] at hput
      cases hc : child alpha p b with
      | none =>
          rw [hc] at hput
          cases hput
      | some r =>
          obtain ⟨i, found⟩ := r
          simp only [hc, Option.bind_eq_bind, Option.bind_some] at hput
          obtain ⟨node, hnode, -⟩ := Option.bind_eq_some_iff.mp hput
          intro c hmem
          rcases List.mem_cons.mp hmem with rfl | hmem
          · exact (child_inArray h).mp ⟨_, hc⟩
          · exact ih (below_sized h hc) hnode c hmem

/-! ## Some `Put`s

What the nodes hold after a list of them, string by string. -/

/-- The value of the last `Put` with a key. -/
def lastPut (ops : List (List UInt8 × V)) (k : List UInt8) : Option V :=
  ops.foldl (fun last op => if op.1 = k then some op.2 else last) none

/-- The string is a prefix of a key. -/
def Prefixes (ops : List (List UInt8 × V)) (k : List UInt8) : Prop := ∃ op ∈ ops, k <+: op.1

/-- What a trie holds after some `Put`s. -/
def viewAll (junk : V) (ops : List (List UInt8 × V)) (before : List UInt8 → Option V) : List UInt8 → Option V :=
  ops.foldl (fun before op => viewPut op.1 op.2 junk before) before

/-- When all characters are in the array the `Put`s succeed, one after another. -/
theorem putAll_spec (junk : V) (h : Sized alpha root) (hops : ∀ op ∈ ops, ∀ c ∈ op.1, alpha.InArray c) :
    ∃ root', putAll alpha junk root ops = some root' ∧ Sized alpha root' ∧
      view alpha root' = viewAll junk ops (view alpha root) := by
  induction ops generalizing root with
  | nil => exact ⟨root, rfl, h, rfl⟩
  | cons op ops ih =>
      obtain ⟨root₁, hput, h₁, hview₁⟩ := putLoop_spec junk op.2 h (hops op List.mem_cons_self)
      obtain ⟨root₂, hall, h₂, hview₂⟩ := ih h₁ fun op' hmem => hops op' (List.mem_cons_of_mem _ hmem)
      refine ⟨root₂, ?_, h₂, ?_⟩
      · rw [putAll]
        exact Option.bind_eq_some_iff.mpr ⟨root₁, hput, hall⟩
      · rw [hview₂, funext hview₁]
        rfl

/-- And only then. -/
theorem inArray_of_putAll (h : Sized alpha root) {root' : TrieNode V} (hall : putAll alpha junk root ops = some root') :
    ∀ op ∈ ops, ∀ c ∈ op.1, alpha.InArray c := by
  induction ops generalizing root with
  | nil =>
      intro op hop
      cases hop
  | cons op ops ih =>
      rw [putAll] at hall
      obtain ⟨root₁, hput, hall⟩ := Option.bind_eq_some_iff.mp hall
      have hkey := inArray_of_putLoop h hput
      obtain ⟨root₁', hput', h₁, -⟩ := putLoop_spec junk op.2 h hkey
      obtain rfl : root₁ = root₁' := Option.some.inj (hput.symm.trans hput')
      intro op' hop'
      rcases List.mem_cons.mp hop' with rfl | hop'
      · exact hkey
      · exact ih h₁ hall op' hop'

instance (ops : List (List UInt8 × V)) (k : List UInt8) : Decidable (Prefixes ops k) :=
  inferInstanceAs (Decidable (∃ op ∈ ops, k <+: op.1))

/-- The last one counts. -/
theorem lastPut_concat (op : List UInt8 × V) :
    lastPut (ops ++ [op]) k = if op.1 = k then some op.2 else lastPut ops k := by
  unfold lastPut
  rw [List.foldl_append]
  rfl

/-- One `Put` makes the prefixes of its string. -/
theorem prefixes_concat (op : List UInt8 × V) : Prefixes (ops ++ [op]) k ↔ Prefixes ops k ∨ k <+: op.1 := by
  unfold Prefixes
  constructor
  · rintro ⟨op', hmem, hpre⟩
    rcases List.mem_append.mp hmem with hmem | hmem
    · exact Or.inl ⟨op', hmem, hpre⟩
    · exact Or.inr (List.mem_singleton.mp hmem ▸ hpre)
  · rintro (⟨op', hmem, hpre⟩ | hpre)
    · exact ⟨op', List.mem_append_left _ hmem, hpre⟩
    · exact ⟨op, by simp, hpre⟩

/-- A string has a value when it was put. -/
theorem lastPut_isSome : (lastPut ops k).isSome ↔ ∃ op ∈ ops, op.1 = k := by
  induction ops using List.reverseRecOn with
  | nil => simp [lastPut]
  | append_singleton ops op ih =>
      rw [lastPut_concat]
      by_cases hop : op.1 = k
      · rw [if_pos hop]
        exact iff_of_true rfl ⟨op, by simp, hop⟩
      · rw [if_neg hop, ih]
        constructor
        · rintro ⟨op', hmem, heq⟩
          exact ⟨op', List.mem_append_left _ hmem, heq⟩
        · rintro ⟨op', hmem, heq⟩
          rcases List.mem_append.mp hmem with hmem | hmem
          · exact ⟨op', hmem, heq⟩
          · exact absurd (List.mem_singleton.mp hmem ▸ heq) hop

/-- **The strings of a new trie after some `Put`s**: the keys have their last value, their other prefixes junk. -/
theorem viewAll_new (hk : k ≠ []) : viewAll junk ops (view alpha (makeTrieNode alpha junk)) k =
    (lastPut ops k).or (if Prefixes ops k then some junk else none) := by
  -- by induction from the end of the list
  induction ops using List.reverseRecOn with
  | nil =>
      have hno : ¬Prefixes ([] : List (List UInt8 × V)) k := by
        rintro ⟨op, hop, -⟩
        cases hop
      show view alpha (makeTrieNode alpha junk) k = _
      rw [view_makeTrieNode, if_neg hk, if_neg hno]
      rfl
  | append_singleton ops op ih =>
      have hstep : viewAll junk (ops ++ [op]) (view alpha (makeTrieNode alpha junk)) k =
          viewPut op.1 op.2 junk (viewAll junk ops (view alpha (makeTrieNode alpha junk))) k := by
        unfold viewAll
        rw [List.foldl_append]
        rfl
      rw [hstep, lastPut_concat]
      unfold viewPut
      by_cases hop : op.1 = k
      · rw [if_pos ⟨hop.symm, hop ▸ hk⟩, if_pos hop]
        rfl
      · rw [if_neg fun h => hop h.1.symm, if_neg hop, ih]
        by_cases hpre : k <+: op.1
        · rw [if_pos hpre, if_pos (prefixes_concat op |>.mpr (Or.inr hpre))]
          cases lastPut ops k with
          | some v => rfl
          | none => split <;> rfl
        · have hiff : Prefixes (ops ++ [op]) k ↔ Prefixes ops k := by
            rw [prefixes_concat]
            exact or_iff_left hpre
          simp only [if_neg hpre, hiff]

/-- The empty string always has a node. -/
theorem viewAll_nil : (viewAll junk ops (view alpha (makeTrieNode alpha junk)) []).isSome := by
  induction ops using List.reverseRecOn with
  | nil => rfl
  | append_singleton ops op ih =>
      unfold viewAll at ih ⊢
      rw [List.foldl_append]
      show (viewPut op.1 op.2 junk _ []).isSome
      unfold viewPut
      rw [if_neg fun h => h.2 h.1.symm, if_pos List.nil_prefix]
      rfl

/-- The strings that have a node. -/
theorem viewAll_isSome : (viewAll junk ops (view alpha (makeTrieNode alpha junk)) k).isSome ↔ k = [] ∨ Prefixes ops k := by
  by_cases hk : k = []
  · rw [hk]
    exact iff_of_true viewAll_nil (Or.inl rfl)
  · rw [viewAll_new hk]
    by_cases hpre : Prefixes ops k
    · rw [if_pos hpre]
      refine iff_of_true ?_ (Or.inr hpre)
      cases lastPut ops k <;> rfl
    · -- a key would be its own prefix
      have hnone : lastPut ops k = none := by
        rw [← Option.not_isSome_iff_eq_none, lastPut_isSome]
        rintro ⟨op, hmem, heq⟩
        exact hpre ⟨op, hmem, heq ▸ List.prefix_refl _⟩
      rw [if_neg hpre, hnone]
      simp [hk, hpre]

/-! ## The finite map

So `Get` is that of a map exactly when none of the three ways to go wrong is taken. -/

/-- The characters that are met have an index in the arrays of children, and the string is a key other than the empty one,
    or it is no key and either empty or without a node. -/
structure Mapped (alpha : Alphabet) (ops : List (List UInt8 × V)) (k : List UInt8) : Prop where
  keys : ∀ op ∈ ops, ∀ c ∈ op.1, alpha.InArray c
  path : ∀ q c, q ++ [c] <+: k → q = [] ∨ Prefixes ops q → alpha.InArray c
  shown : (k ≠ [] ∧ ∃ op ∈ ops, op.1 = k) ∨ ((∀ op ∈ ops, op.1 ≠ k) ∧ (k = [] ∨ ¬Prefixes ops k))

/-- `Get` after some `Put`s, inside the arrays. -/
theorem get_build (junk : V) (hkeys : ∀ op ∈ ops, ∀ c ∈ op.1, alpha.InArray c)
    (hpath : ∀ q c, q ++ [c] <+: k → q = [] ∨ Prefixes ops q → alpha.InArray c) :
    ∃ root, build alpha junk ops = some root ∧ get alpha root k =
      some (if k = [] then none else (lastPut ops k).or (if Prefixes ops k then some junk else none)) := by
  obtain ⟨root, hbuild, hsized, hview⟩ := putAll_spec junk makeTrieNode_sized hkeys
  refine ⟨root, hbuild, ?_⟩
  unfold get
  rw [getLoop_spec hsized ?_ none, hview]
  · by_cases hk : k = []
    · rw [if_pos hk, if_pos hk]
    · rw [if_neg hk, if_neg hk, viewAll_new hk, Option.or_none]
  · intro q c hq hsome
    rw [hview, viewAll_isSome] at hsome
    exact hpath q c hq hsome

/-- **A trie is a finite map** on a string, if and only if the string is mapped. -/
theorem get_eq_lastPut_iff : (∃ root, build alpha junk ops = some root ∧ get alpha root k = some (lastPut ops k)) ↔
    Mapped alpha ops k := by
  -- what `Get` returned says which strings are in the array
  constructor
  · rintro ⟨root, hbuild, hget⟩
    have hkeys := inArray_of_putAll makeTrieNode_sized hbuild
    obtain ⟨root', hbuild', hsized, hview⟩ := putAll_spec junk makeTrieNode_sized hkeys
    obtain rfl : root = root' := Option.some.inj (hbuild.symm.trans hbuild')
    have hpath : ∀ q c, q ++ [c] <+: k → q = [] ∨ Prefixes ops q → alpha.InArray c := by
      intro q c hq hmet
      apply inArray_of_getLoop hsized hget hq
      rw [hview]
      exact viewAll_isSome.mpr hmet
    obtain ⟨root', hbuild', hget'⟩ := get_build junk hkeys hpath
    obtain rfl : root = root' := Option.some.inj (hbuild.symm.trans hbuild')
    rw [hget, Option.some.injEq] at hget'
    refine ⟨hkeys, hpath, ?_⟩
    cases hlast : lastPut ops k with
    | some v =>
        left
        refine ⟨?_, lastPut_isSome.mp (hlast ▸ rfl)⟩
        rintro rfl
        rw [hlast, if_pos rfl] at hget'
        cases hget'
    | none =>
        right
        have hno : ¬∃ op ∈ ops, op.1 = k := by
          rw [← lastPut_isSome, hlast]
          simp
        refine ⟨fun op hop heq => hno ⟨op, hop, heq⟩, ?_⟩
        by_contra hpre
        obtain ⟨hk, hpre⟩ := not_or.mp hpre
        rw [hlast, if_neg hk, if_pos (not_not.mp hpre)] at hget'
        cases hget'
  · rintro ⟨hkeys, hpath, hshown⟩
    obtain ⟨root, hbuild, hget⟩ := get_build junk hkeys hpath
    refine ⟨root, hbuild, ?_⟩
    rw [hget]
    rcases hshown with ⟨hk, hput⟩ | ⟨hno, hpre⟩
    · obtain ⟨v, hv⟩ := Option.isSome_iff_exists.mp (lastPut_isSome.mpr hput)
      rw [if_neg hk, hv]
      rfl
    · have hnone : lastPut ops k = none := by
        rw [← Option.not_isSome_iff_eq_none, lastPut_isSome]
        rintro ⟨op, hop, heq⟩
        exact hno op hop heq
      rw [hnone]
      rcases hpre with rfl | hpre
      · rw [if_pos rfl]
      · rw [if_neg hpre]
        simp

/-- A prefix of a key shows what its node happens to hold. -/
theorem get_prefix : ∃ root, build ⟨[49, 50, 51], by decide⟩ 7 [([49, 50, 51], 123)] = some root ∧
    get ⟨[49, 50, 51], by decide⟩ root [49, 50] = some (some 7) ∧ lastPut [([49, 50, 51], 123)] [49, 50] = none :=
  ⟨_, rfl, rfl, rfl⟩

end Trie
end Snippets
