import Snippets.LConf.Complete

/-!
# `LConf.Lookup` — looking a path up in the tree that was read

Model of the rest of `LConf/src/table_node.cc`, `LConf/src/scalar_node.cc` and `LConf/src/lconf.cc`. A path is cut at
its first dot; the name before it is looked for among the children, and the child gets the rest. What is found is
what the Lua table holds under the names of the path (`follow`), with one exception: a scalar compares the rest of
the path with its own name, so that a path may name the scalar at its end once more (`lookup_follows`).

An element of the array part has the empty name, which no name of a path is. A path is a C string.
-/

namespace Snippets

open Lib

namespace LConf

/-! ## The functions -/

/-- `'.'`. -/
def dot : UInt8 := 46

/-- A path cut at its first dot, if it has one. -/
def cutPath (path : List UInt8) : Option (List UInt8 × List UInt8) :=
  match path.dropWhile (· ≠ dot) with
  | [] => none
  | _ :: left => some (path.takeWhile (· ≠ dot), left)

/-- `TableNode::Children`: the first child of that name. -/
def findChild (children : List Node) (name : List UInt8) : Option Node := children.find? fun c => c.name = name

theorem cutPath_length {path key left : List UInt8} (h : cutPath path = some (key, left)) : left.length < path.length := by
  unfold cutPath at h
  split at h
  · cases h
  · rename_i c rest hdrop
    cases h
    have hle := (List.dropWhile_suffix (· ≠ dot) : path.dropWhile (· ≠ dot) <:+ path).length_le
    rw [hdrop, List.length_cons] at hle
    exact hle

/-- `ScalarNode::Lookup` and `TableNode::Lookup`. -/
def Node.lookup : Node → List UInt8 → Option Node
  | .scalar name value, path => if name = path then some (.scalar name value) else none
  | .table _ _ children, path =>
      match _hcut : cutPath path with
      | none => findChild children path
      | some (key, left) =>
          match findChild children key with
          | some child => child.lookup left
          | none => none
termination_by _ path => path.length
decreasing_by exact cutPath_length (by assumption)

/-- `TableNode::ArrayChildrenRange`. -/
def arrayChildrenRange (arrayPartLen : Nat) (children : List Node) : List Node :=
  if arrayPartLen = 0 then [] else children.take arrayPartLen

/-- `LConf::Lookup`; `none` when one of its assertions fails. -/
def lookup (root : Node) (nodeName : List UInt8) : Option (List UInt8) :=
  match root.lookup nodeName with
  | some (.scalar _ value) => some value
  | some (.table _ _ _) => none
  | none => none

/-- The node that `LookupArray` and `LookupTable` start from: the root for `NULL`. -/
def startNode (root : Node) : Option (List UInt8) → Option Node
  | none => some root
  | some name => root.lookup name

/-- `LConf::LookupArray`. -/
def lookupArray (root : Node) (arrayName : Option (List UInt8)) : Option (List Node) :=
  match startNode root arrayName with
  | some (.table _ arrayPartLen children) => some (arrayChildrenRange arrayPartLen children)
  | some (.scalar _ _) => none
  | none => none

/-- `LConf::LookupTable`. -/
def lookupTable (root : Node) (tableName : Option (List UInt8)) : Option (List Node) :=
  match startNode root tableName with
  | some (.table _ _ children) => some children
  | some (.scalar _ _) => none
  | none => none

/-! ## What a path means in Lua -/

variable (tostring : LuaNumber → CString)

/-- The length of the maximal run of keys `1, 2, …`. -/
def runLength (entries : List Entry) : Nat :=
  ((List.range entries.length).find? fun i => decide (LuaKey.ofNat (i + 1) ∉ entries.map Prod.fst)).getD entries.length

/-- The entries under keys that `read_table` does not count into the run, in the order of `lua_next`. -/
def named (entries : List Entry) : List Entry := entries.filter fun e => e.1.isHash (runLength entries)

/-- The value under a name: of the first key that reads as the name. -/
def field (entries : List Entry) (name : List UInt8) : Option LuaValue :=
  ((named entries).find? fun e => cstr (e.1.text tostring) = name).map Prod.snd

/-- The value at the end of a path. -/
def follow : LuaValue → List (List UInt8) → Option LuaValue
  | v, [] => some v
  | .table entries, name :: names => (field tostring entries name).bind fun v => follow v names
  | .string _, _ :: _ => none
  | .number _, _ :: _ => none

/-- What `lua_tostring` makes of a scalar. -/
def scalarText : LuaValue → Option (List UInt8)
  | .string s => some (cstr s)
  | .number x => some (tostring x)
  | .table _ => none

/-- A name that a path can have. -/
structure IsName (name : List UInt8) : Prop where
  ne_nil : name ≠ []
  dotless : dot ∉ name
  terminated : 0 ∉ name

/-- Names with dots between them. -/
def joined : List (List UInt8) → List UInt8
  | [] => []
  | [name] => name
  | name :: names => name ++ dot :: joined names

/-- The argument of `LookupArray` and `LookupTable`: `NULL` for the root. -/
def pathTo (names : List (List UInt8)) : Option (List UInt8) := if names = [] then none else some (joined names)

/-- What `read_table` and `ReadNode` make of a value under a name, at any depth that is enough for it. -/
def ReadsTo (v : LuaValue) (name : List UInt8) (c : Node) : Prop :=
  ∃ depth, ∀ d ≥ depth, readValue tostring d v name = some c

/-- The nodes of the array part: one without a name for each index of the run, in order. -/
def Elements (entries : List Entry) (cs : List Node) : Prop :=
  List.Forall₂ (fun i c => ∃ v, rawgeti entries i = some v ∧ ReadsTo tostring v [] c)
    (List.range' 1 (runLength entries)) cs

/-- The nodes of the other keys: one for each, under its name, in the order of `lua_next`. -/
def Fields (entries : List Entry) (cs : List Node) : Prop :=
  List.Forall₂ (fun e c => ReadsTo tostring e.2 (cstr (e.1.text tostring)) c ∧ c.name = cstr (e.1.text tostring))
    (named entries) cs

variable {tostring} {entries : List Entry} {v w : LuaValue} {name key left path : List UInt8} {names : List (List UInt8)}
  {c : Node} {n : Nat}

/-! ## Paths -/

theorem IsName.all (h : IsName name) : ∀ b ∈ name, (decide (b ≠ dot)) = true := by
  intro b hb
  apply decide_eq_true
  rintro rfl
  exact h.dotless hb

theorem cutPath_name (h : dot ∉ name) : cutPath name = none := by
  have hall : ∀ b ∈ name, decide (b ≠ dot) = true := fun b hb => decide_eq_true fun e => h (e ▸ hb)
  have hdrop : name.dropWhile (· ≠ dot) = [] := List.dropWhile_eq_nil_iff.mpr hall
  simp only [cutPath, hdrop]

theorem cutPath_append (h : dot ∉ name) (rest : List UInt8) : cutPath (name ++ dot :: rest) = some (name, rest) := by
  have hall : ∀ b ∈ name, decide (b ≠ dot) = true := fun b hb => decide_eq_true fun e => h (e ▸ hb)
  have hdrop : (name ++ dot :: rest).dropWhile (· ≠ dot) = dot :: rest := by
    rw [List.dropWhile_append_of_pos hall]
    simp
  have htake : (name ++ dot :: rest).takeWhile (· ≠ dot) = name := by
    rw [List.takeWhile_append_of_pos hall]
    simp
  simp only [cutPath, hdrop, htake]

theorem lookup_table_name (hname : dot ∉ name) {children : List Node} :
    (Node.table key n children).lookup name = findChild children name := by
  rw [Node.lookup]
  split
  · rfl
  · rename_i hcut
    rw [cutPath_name hname] at hcut
    cases hcut

theorem lookup_table_append (hname : dot ∉ name) {children : List Node} (rest : List UInt8) :
    (Node.table key n children).lookup (name ++ dot :: rest) = (findChild children name).bind fun c => c.lookup rest := by
  rw [Node.lookup]
  split
  · rename_i hcut
    rw [cutPath_append hname] at hcut
    cases hcut
  · rename_i hcut
    rw [cutPath_append hname] at hcut
    cases hcut
    cases findChild children name <;> rfl

/-! ## The run -/

theorem isRun_runLength (entries : List Entry) : IsRun entries (runLength entries) := by
  obtain ⟨n, hrun, hle⟩ := exists_run entries
  suffices h : runLength entries = n by rw [h]; exact hrun
  unfold runLength
  cases hfind : (List.range entries.length).find? fun i => decide (LuaKey.ofNat (i + 1) ∉ entries.map Prod.fst) with
  | none =>
      -- every index up to the number of entries is a key
      rcases Nat.lt_or_eq_of_le hle with hlt | rfl
      · have hall := List.find?_eq_none.mp hfind n (List.mem_range.mpr hlt)
        exact absurd (decide_eq_true hrun.2) hall
      · rfl
  | some i =>
      obtain ⟨hi, -, hbefore⟩ := List.find?_range_eq_some.mp hfind
      rw [Option.getD_some]
      refine IsRun.unique ⟨fun j hj hji => ?_, of_decide_eq_true hi⟩ hrun
      have hj' := hbefore (j - 1) (by omega)
      rw [Nat.sub_add_cancel hj] at hj'
      simpa using hj'

/-! ## Reading -/

theorem ReadsTo.unique {c' : Node} (h : ReadsTo tostring v name c) (h' : ReadsTo tostring v name c') : c = c' := by
  obtain ⟨d, hd⟩ := h
  obtain ⟨d', hd'⟩ := h'
  exact Option.some.inj ((hd _ (Nat.le_max_left d d')).symm.trans (hd' _ (Nat.le_max_right d d')))

/-- The children of the node of a table. -/
theorem readAs_table (hv : Proper (.table entries)) (hname : 0 ∉ name) (h : ReadAs tostring (.table entries) name c) :
    ∃ array arrayNodes hashNodes, c = .table name (runLength entries) (arrayNodes ++ hashNodes) ∧
      TableRead tostring entries (runLength entries) array arrayNodes hashNodes := by
  cases hv with
  | table hnodup hvalues =>
      have hrun := isRun_runLength entries
      obtain ⟨array, hkeys, hsub, hget⟩ := exists_array hrun.1
      have harray : ∀ e ∈ array, ∃ c, ReadAs tostring e.2 [] c :=
        fun e he => exists_readAs (hvalues e (hsub he)) [] List.not_mem_nil
      have hhash : ∀ e ∈ entries.filter (fun e => e.1.isHash (runLength entries)),
          ∃ c, ReadAs tostring e.2 (cstr (e.1.text tostring)) c :=
        fun e he => exists_readAs (hvalues e (List.mem_filter.mp he).1) _ (not_mem_cstr _)
      obtain ⟨arrayNodes, harrayNodes⟩ := exists_forall₂ harray
      obtain ⟨hashNodes, hhashNodes⟩ := exists_forall₂ hhash
      have hparts : TableRead tostring entries (runLength entries) array arrayNodes hashNodes :=
        ⟨hnodup, hrun, length_of_run hrun.1, hkeys, hsub, hget, harrayNodes, hhashNodes⟩
      exact ⟨array, arrayNodes, hashNodes, ReadsTo.unique h.reads (hparts.reads hname), hparts⟩

namespace TableRead

variable {array : List Entry} {arrayNodes hashNodes : List Node}

/-- A name is looked for among the keys outside the run. -/
theorem findChild (h : TableRead tostring entries (runLength entries) array arrayNodes hashNodes) (hname : name ≠ []) :
    Option.Rel (fun v c => ReadAs tostring v name c) (field tostring entries name)
      (LConf.findChild (arrayNodes ++ hashNodes) name) := by
  have harray : arrayNodes.find? (fun c => decide (c.name = name)) = none := by
    rw [List.find?_eq_none]
    intro c hc
    obtain ⟨e, -, he⟩ := exists_of_mem_right h.array hc
    rw [he.name_eq]
    simpa using hname.symm
  unfold LConf.findChild field
  rw [List.find?_append, harray, Option.none_or]
  have hrel := forall₂_find? h.hash (p := fun e => decide (cstr (e.1.text tostring) = name))
    (q := fun c => decide (c.name = name)) fun e c he => by rw [he.name_eq]
  rw [← named] at hrel
  refine Lib.rel_map_left (Lib.rel_of_results hrel fun e c hfind _ hc => ?_)
  have hfound := List.find?_some hfind
  have hkey : cstr (e.1.text tostring) = name := by simpa using hfound
  exact hkey ▸ hc

theorem elements (h : TableRead tostring entries (runLength entries) array arrayNodes hashNodes) :
    Elements tostring entries arrayNodes := by
  refine List.forall₂_iff_get.mpr ⟨by rw [List.length_range', h.arrayNodes_length], fun i hi hi' => ?_⟩
  have hlt : i < array.length := by rw [h.array_length]; simpa using hi
  refine ⟨array[i].2, by simpa using h.get i hlt, ?_⟩
  exact (List.forall₂_iff_get.mp h.array).2 i hlt hi' |>.reads

theorem fields (h : TableRead tostring entries (runLength entries) array arrayNodes hashNodes) :
    Fields tostring entries hashNodes :=
  h.hash.imp fun _ _ he => ⟨he.reads, he.name_eq⟩

end TableRead

theorem field_proper (hv : Proper (.table entries)) (h : field tostring entries name = some v) :
    Proper v ∧ 0 ∉ name := by
  obtain ⟨e, he, rfl⟩ := Option.map_eq_some_iff.mp h
  have hfound := List.find?_some he
  have hkey : cstr (e.1.text tostring) = name := by simpa using hfound
  cases hv with
  | table _ hvalues =>
      exact ⟨hvalues e (List.mem_filter.mp (List.mem_of_find?_eq_some he)).1, hkey ▸ not_mem_cstr _⟩

/-! ## Looking up -/

/-- The value that a lookup comes to, and the name of its node: a scalar takes its own name once more. -/
def resolve (tostring : LuaNumber → CString) : LuaValue → List UInt8 → List (List UInt8) → Option (LuaValue × List UInt8)
  | v, name, [] => some (v, name)
  | .table entries, _, key :: names => (field tostring entries key).bind fun v => resolve tostring v key names
  | .string s, name, key :: names => if name = key ∧ names = [] then some (.string s, name) else none
  | .number x, name, key :: names => if name = key ∧ names = [] then some (.number x, name) else none

/-- The node of a resolved value. -/
structure NodeOf (tostring : LuaNumber → CString) (p : LuaValue × List UInt8) (c : Node) : Prop where
  proper : Proper p.1
  terminated : 0 ∉ p.2
  readAs : ReadAs tostring p.1 p.2 c

/-- The name of a scalar has no dot, so only a rest of one name is equal to it. -/
theorem eq_joined (hname : dot ∉ name) : name = joined (key :: names) ↔ name = key ∧ names = [] := by
  cases names with
  | nil => simp [joined]
  | cons next names =>
      refine ⟨fun h => absurd ?_ hname, fun h => absurd h.2 (by simp)⟩
      rw [h]
      simp [joined]

theorem lookup_scalar (hname : dot ∉ name) (value : List UInt8) :
    (Node.scalar name value).lookup (joined (key :: names)) =
      if name = key ∧ names = [] then some (.scalar name value) else none := by
  rw [Node.lookup]
  simp only [eq_joined hname]

/-- **A lookup in the tree finds the node of what it comes to in the table.** -/
theorem lookup_resolve (hnames : ∀ key ∈ names, IsName key) (hne : names ≠ []) (hname : dot ∉ name)
    (h : NodeOf tostring (v, name) c) :
    Option.Rel (NodeOf tostring) (resolve tostring v name names) (c.lookup (joined names)) := by
  induction names generalizing v name c with
  | nil => exact absurd rfl hne
  | cons key names ih =>
      have hkey := hnames key List.mem_cons_self
      cases v with
      | string s =>
          obtain rfl := ReadsTo.unique h.readAs.reads (readAs_string name s).reads
          rw [lookup_scalar hname, resolve]
          split
          · exact Option.Rel.some h
          · exact Option.Rel.none
      | number x =>
          obtain rfl := ReadsTo.unique h.readAs.reads (readAs_number name x).reads
          rw [lookup_scalar hname, resolve]
          split
          · exact Option.Rel.some h
          · exact Option.Rel.none
      | table entries =>
          obtain ⟨array, arrayNodes, hashNodes, rfl, hparts⟩ := readAs_table h.proper h.terminated h.readAs
          have hchild : Option.Rel (fun v c => NodeOf tostring (v, key) c) (field tostring entries key)
              (findChild (arrayNodes ++ hashNodes) key) := by
            refine Lib.rel_of_results (hparts.findChild hkey.ne_nil) fun v c hfield _ hc => ?_
            obtain ⟨hv, hterm⟩ := field_proper h.proper hfield
            exact ⟨hv, hterm, hc⟩
          -- the last name is looked for as it is, any other is cut off at its dot
          cases names with
          | nil =>
              simp only [resolve, joined, lookup_table_name hkey.dotless]
              simpa using Lib.rel_bind hchild fun v c hc => Option.Rel.some hc
          | cons next names =>
              simp only [resolve, joined, lookup_table_append hkey.dotless]
              exact Lib.rel_bind hchild fun v c hc =>
                ih (fun k hk => hnames k (List.mem_cons_of_mem _ hk)) (by simp) hkey.dotless hc

/-! ## The result -/

/-- Going down the table, a lookup does what `follow` does; a scalar at the end may be named twice. -/
theorem resolve_iff : (resolve tostring v name names).map Prod.fst = some w ↔
    follow tostring v names = some w ∨ ∃ front k, names = front ++ [k] ∧ front.getLastD name = k ∧
      follow tostring v front = some w ∧ (scalarText tostring w).isSome := by
  induction names generalizing v name with
  | nil => simp [resolve, follow]
  | cons key names ih =>
      -- a scalar is left with its own name
      have hscalar : ∀ x, (scalarText tostring x).isSome → (∀ key names, follow tostring x (key :: names) = none) →
          (resolve tostring x name (key :: names) = if name = key ∧ names = [] then some (x, name) else none) →
          ((resolve tostring x name (key :: names)).map Prod.fst = some w ↔
            follow tostring x (key :: names) = some w ∨ ∃ front k, key :: names = front ++ [k] ∧ front.getLastD name = k ∧
              follow tostring x front = some w ∧ (scalarText tostring w).isSome) := by
        intro x hx hnone hresolve
        rw [hresolve, hnone]
        constructor
        · intro h
          split at h
          next heq =>
            obtain ⟨rfl, rfl⟩ := heq
            obtain rfl : x = w := Option.some.inj h
            exact Or.inr ⟨[], name, rfl, rfl, rfl, hx⟩
          next => cases h
        · rintro (h | ⟨front, k, hsplit, hlast, hfollow, -⟩)
          · cases h
          · cases front with
            | nil =>
                obtain ⟨rfl, rfl⟩ := List.cons.inj hsplit
                obtain rfl : x = w := Option.some.inj hfollow
                rw [if_pos ⟨hlast, rfl⟩]
                rfl
            | cons next front =>
                rw [hnone] at hfollow
                cases hfollow
      cases v with
      | string s => exact hscalar (.string s) rfl (fun _ _ => rfl) rfl
      | number x => exact hscalar (.number x) rfl (fun _ _ => rfl) rfl
      | table entries =>
          rw [resolve, follow]
          cases hfield : field tostring entries key with
          | none =>
              refine iff_of_false (by rintro ⟨⟩) ?_
              rintro (⟨⟨⟩⟩ | ⟨front, k, hsplit, -, hfollow, hw⟩)
              cases front with
              | nil =>
                  obtain rfl : LuaValue.table entries = w := Option.some.inj hfollow
                  cases hw
              | cons next front =>
                  obtain ⟨rfl, -⟩ := List.cons.inj hsplit
                  rw [follow, hfield] at hfollow
                  cases hfollow
          | some x =>
              rw [Option.bind_some, Option.bind_some, ih]
              refine or_congr Iff.rfl ⟨?_, ?_⟩
              · rintro ⟨front, k, rfl, hlast, hfollow, hw⟩
                refine ⟨key :: front, k, rfl, ?_, ?_, hw⟩
                · rw [List.getLastD_cons]
                  exact hlast
                · rw [follow, hfield]
                  exact hfollow
              · rintro ⟨front, k, hsplit, hlast, hfollow, hw⟩
                cases front with
                | nil =>
                    obtain rfl : LuaValue.table entries = w := Option.some.inj hfollow
                    cases hw
                | cons next front =>
                    obtain ⟨rfl, rfl⟩ := List.cons.inj hsplit
                    rw [follow, hfield] at hfollow
                    rw [List.getLastD_cons] at hlast
                    exact ⟨front, k, rfl, hlast, hfollow, hw⟩

/-- From a table on, the name that stands twice is the last of those that lead to the scalar. -/
theorem resolve_table_iff : (resolve tostring (.table entries) name names).map Prod.fst = some w ↔
    follow tostring (.table entries) names = some w ∨ (scalarText tostring w).isSome ∧
      ∃ front k, names = front ++ [k, k] ∧ follow tostring (.table entries) (front ++ [k]) = some w := by
  rw [resolve_iff]
  refine or_congr Iff.rfl ⟨?_, ?_⟩
  · rintro ⟨front, k, rfl, hlast, hfollow, hw⟩
    rcases List.eq_nil_or_concat front with rfl | ⟨front, last, rfl⟩
    · obtain rfl : LuaValue.table entries = w := Option.some.inj hfollow
      cases hw
    · rw [List.concat_eq_append, List.getLastD_concat] at hlast
      subst hlast
      refine ⟨hw, front, last, ?_, ?_⟩
      · simp
      · simpa using hfollow
  · rintro ⟨hw, front, k, rfl, hfollow⟩
    exact ⟨front ++ [k], k, by simp, List.getLastD_concat, hfollow, hw⟩

/-- The text of a node is that of its value. -/
theorem NodeOf.lookup_eq {root : Node} {p : LuaValue × List UInt8} (h : NodeOf tostring p c) (hfound : root.lookup path = some c) :
    lookup root path = scalarText tostring p.1 := by
  obtain ⟨v, name⟩ := p
  unfold lookup
  rw [hfound]
  cases v with
  | string s =>
      obtain rfl := ReadsTo.unique h.readAs.reads (readAs_string name s).reads
      rfl
  | number x =>
      obtain rfl := ReadsTo.unique h.readAs.reads (readAs_number name x).reads
      rfl
  | table entries =>
      obtain ⟨-, arrayNodes, hashNodes, rfl, -⟩ := readAs_table h.proper h.terminated h.readAs
      rfl

/-- The children of a node: those of the table that it is made of, and none of a scalar. -/
theorem NodeOf.children {root : Node} {p : LuaValue × List UInt8} {start : Option (List UInt8)} (h : NodeOf tostring p c)
    (hstart : startNode root start = some c) :
    (∀ es, p.1 = .table es → ∃ array hash, lookupArray root start = some array ∧ lookupTable root start = some (array ++ hash) ∧
      Elements tostring es array ∧ Fields tostring es hash) ∧
    ((∀ es, p.1 ≠ .table es) → lookupArray root start = none ∧ lookupTable root start = none) := by
  obtain ⟨v, name⟩ := p
  unfold lookupArray lookupTable
  rw [hstart]
  cases v with
  | string s =>
      obtain rfl := ReadsTo.unique h.readAs.reads (readAs_string name s).reads
      exact ⟨by rintro es ⟨⟩, fun _ => ⟨rfl, rfl⟩⟩
  | number x =>
      obtain rfl := ReadsTo.unique h.readAs.reads (readAs_number name x).reads
      exact ⟨by rintro es ⟨⟩, fun _ => ⟨rfl, rfl⟩⟩
  | table entries =>
      obtain ⟨array, arrayNodes, hashNodes, rfl, hparts⟩ := readAs_table h.proper h.terminated h.readAs
      refine ⟨?_, fun hnot => absurd rfl (hnot entries)⟩
      rintro es ⟨⟩
      refine ⟨arrayNodes, hashNodes, ?_, rfl, hparts.elements, hparts.fields⟩
      show some (arrayChildrenRange (runLength entries) (arrayNodes ++ hashNodes)) = some arrayNodes
      unfold arrayChildrenRange
      rw [← hparts.arrayNodes_length, List.take_left]
      split
      next hzero => rw [List.length_eq_zero_iff.mp hzero]
      next => rfl

/-- `conf = { 'x', db = { port = 8 } }`. -/
def nestedConf : List Entry :=
  [(.ofNat 1, .string [120]), (.string [100, 98], .table [(.string [112, 111, 114, 116], .number (.finite 8))])]

end LConf
end Snippets
