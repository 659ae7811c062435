import Cat.Uri.Trie

/-!
# What a trie holds

A trie of `uri.rs` is nodes with children by character, and a node stands for the values at the
ends of the paths below it (`TrieNode.get`). That map is all that the tries are used for, and
each of the four loops is told by it: `insert` and `removeRecursive` change it at one path,
`search` reads it at the beginnings of the text, and `collect` comes upon every path it is
defined at.

Three of the loops carry a limit on depth, and two of them measure it differently.
`removeRecursive` counts the characters it has gone down and `collect` the bytes of the path it
has built, so a pattern of few characters and many bytes can be removed and is not listed. The
limit stands in the statements as it is in the code, and is not assumed away:
`removeRecursive_removed` and `Below` have it.

The invariant is `WellFormed`: each child has a character of its own, and a node is marked as an
end of a pattern exactly if it has a value. The first part is that of a hash map; the second one
the code keeps by setting both fields together. Removal keeps nodes that still hold something
and drops those that do not, which `get_of_bare` shows to lose nothing.

The loop of `collect` has an explicit stack. It finds every pattern below the nodes on it
(`mem_collect`), and finds it once: no path on the stack is a beginning of another one
(`Apart`), which is what each turn preserves.
-/

set_option autoImplicit false

namespace Cat

namespace TrieNode

/-- The value at the end of a path. -/
def get : List Char → TrieNode → Option String
  | [], node => node.value
  | ch :: chars, node => (node.children.dlookup ch).bind (get chars)

/-- Every child has its own character, and a value is exactly where a pattern ends. The predicate
    goes down to all nodes, which is why it is inductive. -/
inductive WellFormed : TrieNode → Prop where
  | intro {node : TrieNode} (keys : node.children.NodupKeys)
      (marked : node.isTerminal = node.value.isSome)
      (each : ∀ ch child, node.children.dlookup ch = some child → WellFormed child) :
      WellFormed node

variable {node child : TrieNode} {ch : Char} {chars path : List Char} {value : String}
  {index : Nat}

theorem WellFormed.keys (h : WellFormed node) : node.children.NodupKeys := by
  cases h
  assumption

theorem WellFormed.marked (h : WellFormed node) : node.isTerminal = node.value.isSome := by
  cases h
  assumption

theorem WellFormed.of_dlookup (h : WellFormed node) (hc : node.children.dlookup ch = some child) :
    WellFormed child := by
  cases h with
  | intro _ _ each => exact each ch child hc

theorem wellFormed_empty : WellFormed {} :=
  .intro List.nodupKeys_nil rfl fun _ _ h => by cases h

theorem get_empty (path : List Char) : get path {} = none := by
  cases path with
  | nil => rfl
  | cons ch chars => rfl

/-! ## Children

The entries of a node as a finite map: a child is replaced, added or taken out, and the others
stay.
-/

@[simp] theorem get_withChildren_nil (children : List (Σ _ : Char, TrieNode)) :
    get [] (node.withChildren children) = get [] node := rfl

@[simp] theorem get_withChildren_cons (children : List (Σ _ : Char, TrieNode)) :
    get (ch :: chars) (node.withChildren children) =
      (children.dlookup ch).bind (get chars) := rfl

theorem get_cons (h : node.children.dlookup ch = some child) :
    get (ch :: chars) node = get chars child := by rw [get, h, Option.bind_some]

theorem get_cons_none (h : node.children.dlookup ch = none) : get (ch :: chars) node = none := by
  rw [get, h, Option.bind_none]

/-- A child put in its place: one character leads elsewhere than before, the others where they did.
    -/
theorem get_kinsert (children : List (Σ _ : Char, TrieNode)) (c : Char) :
    get (c :: path) (node.withChildren (children.kinsert ch child)) =
      if c = ch then get path child else (children.dlookup c).bind (get path) := by
  rw [get_withChildren_cons]
  by_cases hc : c = ch
  · rw [if_pos hc, hc, List.dlookup_kinsert, Option.bind_some]
  · rw [if_neg hc, List.dlookup_kinsert_ne hc]

theorem WellFormed.kinsert (h : WellFormed node) (hchild : WellFormed child) :
    WellFormed (node.withChildren (node.children.kinsert ch child)) := by
  refine .intro (List.kinsert_nodupKeys _ _ h.keys) h.marked fun c next hnext => ?_
  by_cases hc : c = ch
  · subst hc
    have heq : some child = some next := (List.dlookup_kinsert _).symm.trans hnext
    exact Option.some.inj heq ▸ hchild
  · exact h.of_dlookup ((List.dlookup_kinsert_ne hc).symm.trans hnext)

theorem WellFormed.kerase (h : WellFormed node) (ch : Char) :
    WellFormed (node.withChildren (node.children.kerase ch)) := by
  refine .intro (h.keys.kerase ch) h.marked fun c next hnext => ?_
  by_cases hc : c = ch
  · subst hc
    exact absurd ((List.dlookup_kerase c h.keys).symm.trans hnext) nofun
  · exact h.of_dlookup ((List.dlookup_kerase_ne hc).symm.trans hnext)

theorem WellFormed.passing (h : WellFormed node) : WellFormed node.passing :=
  .intro h.keys rfl fun _ _ hc => h.of_dlookup hc

/-! ## Insertion

One path gets a value, and no other path changes its own.
-/

theorem WellFormed.insert (h : WellFormed node) (value : String) (path : List Char) :
    WellFormed (node.insert value path).1 := by
  induction path generalizing node with
  | nil => exact .intro h.keys rfl fun _ _ hc => h.of_dlookup hc
  | cons ch path ih =>
    refine h.kinsert (ih ?_)
    cases hc : node.children.dlookup ch with
    | none => exact wellFormed_empty
    | some child => exact h.of_dlookup hc

/-- **Insertion sets the value of its path.** By induction on the path, for every node: a child that
    is missing is an empty node. -/
theorem get_insert (value : String) (path p : List Char) :
    get p (node.insert value path).1 = if p = path then some value else get p node := by
  induction path generalizing node p with
  | nil =>
    cases p with
    | nil => rfl
    | cons c p => rfl
  | cons ch path ih =>
    rw [TrieNode.insert]
    cases p with
    | nil => rfl
    | cons c p =>
      rw [get_kinsert, ih]
      by_cases hc : c = ch
      · subst hc
        rw [if_pos rfl]
        refine if_congr ⟨fun heq => heq ▸ rfl, List.tail_eq_of_cons_eq⟩ rfl ?_
        cases hchild : node.children.dlookup c with
        | none => rw [Option.getD_none, get_empty, get_cons_none hchild]
        | some child => rw [Option.getD_some, get_cons hchild]
      · rw [if_neg hc, if_neg fun heq => hc (List.head_eq_of_cons_eq heq)]
        rfl

/-- It tells whether there was none. -/
theorem insert_new (h : WellFormed node) (value : String) (path : List Char) :
    (node.insert value path).2 = (get path node).isNone := by
  induction path generalizing node with
  | nil =>
    show (!node.isTerminal) = node.value.isNone
    rw [h.marked, Option.not_isSome]
  | cons ch path ih =>
    rw [TrieNode.insert]
    cases hchild : node.children.dlookup ch with
    | none =>
      rw [Option.getD_none, ih wellFormed_empty, get_empty, get_cons_none hchild]
    | some child => rw [Option.getD_some, ih (h.of_dlookup hchild), get_cons hchild]

/-! ## Search

A search goes down as long as there is a child for the next character, and collects the values
it passes.
-/

/-- What is found where a child is entered. -/
theorem terminal_values (h : WellFormed node) :
    (if node.isTerminal then node.value.toList else []) = (get [] node).toList := by
  rw [h.marked, get]
  cases node.value with
  | none => rfl
  | some value => rfl

theorem search_cons (h : WellFormed node) (hnext : node.children.dlookup ch = some child) :
    node.search (ch :: chars) = (get [] child).toList ++ child.search chars := by
  rw [TrieNode.search, hnext, ← terminal_values (h.of_dlookup hnext)]

theorem search_cons_none (hnext : node.children.dlookup ch = none) :
    node.search (ch :: chars) = [] := by
  rw [TrieNode.search, hnext]

/-- **Search finds the values of the non-empty beginnings of the text**, the shortest first. -/
theorem search_eq (h : WellFormed node) (text : List Char) :
    node.search text = text.inits.tail.filterMap fun p => get p node := by
  induction text generalizing node with
  | nil => rfl
  | cons ch text ih =>
    rw [List.inits_cons, List.tail_cons, List.filterMap_map]
    cases hnext : node.children.dlookup ch with
    | none =>
      rw [search_cons_none hnext, eq_comm, List.filterMap_eq_nil_iff]
      exact fun p _ => get_cons_none hnext
    | some next =>
      have hget : ((fun p => get p node) ∘ fun p => ch :: p) = fun p => get p next :=
        funext fun p => get_cons hnext
      have hinits : text.inits = [] :: text.inits.tail := by cases text <;> rfl
      rw [search_cons h hnext, ih (h.of_dlookup hnext), hget, hinits, List.filterMap_cons,
        List.tail_cons]
      cases get [] next with
      | none => rfl
      | some value => rfl

theorem contains_cons (h : WellFormed node) (hnext : node.children.dlookup ch = some child) :
    node.contains (ch :: chars) = ((get [] child).isSome || child.contains chars) := by
  rw [TrieNode.contains, hnext, get, ← (h.of_dlookup hnext).marked]
  show (if child.isTerminal then true else contains chars child) = _
  cases child.isTerminal with
  | false => rfl
  | true => rfl

/-- The membership test of a text is whether the search finds something, or the empty pattern ends
the walk at once: it is asked for by the empty text only. -/
theorem contains_eq (h : WellFormed node) (text : List Char) :
    node.contains text =
      (!(node.search text).isEmpty || (text.isEmpty && (get [] node).isSome)) := by
  induction text generalizing node with
  | nil => exact h.marked
  | cons ch text ih =>
    cases hnext : node.children.dlookup ch with
    | none =>
      rw [search_cons_none hnext, TrieNode.contains, hnext]
      rfl
    | some next =>
      rw [contains_cons h hnext, search_cons h hnext, ih (h.of_dlookup hnext)]
      cases get [] next with
      | none => simp
      | some value => simp

/-! ## Removal

Children that hold nothing any more are taken out on the way back. The node of the pattern is
found at most `maxTrieDepth` characters down.
-/

theorem removeRecursive_deep (h : maxTrieDepth < index) :
    removeRecursive chars index node = (node, false) := by
  cases chars with
  | nil => rw [removeRecursive, if_pos h]
  | cons ch chars => rw [removeRecursive, if_pos h]

theorem removeRecursive_nil (h : index ≤ maxTrieDepth) :
    removeRecursive [] index node =
      if node.isTerminal then (node.passing, true) else (node, false) := by
  rw [removeRecursive, if_neg (Nat.not_lt.mpr h)]

theorem removeRecursive_cons_none (h : node.children.dlookup ch = none) :
    removeRecursive (ch :: chars) index node = (node, false) := by
  rw [removeRecursive, h]
  exact ite_self _

/-- The child is changed in its place, or is dropped once it holds nothing. The source takes the
    child out of the map before it goes down and puts it back after, so in both cases the map is the
    one without it. -/
theorem removeRecursive_cons (hindex : index ≤ maxTrieDepth)
    (hchild : node.children.dlookup ch = some child) {next : TrieNode} {removed : Bool}
    (hnext : removeRecursive chars (index + 1) child = (next, removed)) :
    (removeRecursive (ch :: chars) index node =
        (node.withChildren (node.children.kerase ch), true) ∧
      removed = true ∧ next.isTerminal = false ∧ next.children = []) ∨
    removeRecursive (ch :: chars) index node =
      (node.withChildren ((node.children.kerase ch).kinsert ch next), removed) := by
  rw [removeRecursive, if_neg (Nat.not_lt.mpr hindex), hchild]
  simp only [hnext]
  cases removed with
  | false => exact .inr rfl
  | true =>
    rw [if_pos rfl]
    split
    · rename_i hempty
      rw [Bool.and_eq_true, Bool.not_eq_true', List.isEmpty_iff] at hempty
      exact .inl ⟨rfl, rfl, hempty⟩
    · exact .inr rfl

/-- A node that no longer ends a pattern: the empty path has no value, the others keep theirs. -/
theorem get_passing (p : List Char) : get p node.passing = if p = [] then none else get p node := by
  cases p with
  | nil => rfl
  | cons c p => rfl

theorem get_erased (h : WellFormed node) (ch c : Char) (p : List Char) :
    get (c :: p) (node.withChildren (node.children.kerase ch)) =
      if c = ch then none else get (c :: p) node := by
  rw [get_withChildren_cons]
  by_cases hc : c = ch
  · rw [if_pos hc, hc, List.dlookup_kerase ch h.keys, Option.bind_none]
  · rw [if_neg hc, List.dlookup_kerase_ne hc]
    rfl

theorem get_replaced (ch c : Char) (p : List Char) :
    get (c :: p) (node.withChildren ((node.children.kerase ch).kinsert ch child)) =
      if c = ch then get p child else get (c :: p) node := by
  rw [get_kinsert]
  by_cases hc : c = ch
  · rw [if_pos hc, if_pos hc]
  · rw [if_neg hc, if_neg hc, List.dlookup_kerase_ne hc]
    rfl

/-- A node without patterns and children holds nothing. -/
theorem get_of_bare (h : WellFormed node) (hterminal : node.isTerminal = false)
    (hchildren : node.children = []) (p : List Char) : get p node = none := by
  cases p with
  | nil =>
    rw [h.marked, Option.isSome_eq_false_iff, Option.isNone_iff_eq_none] at hterminal
    exact hterminal
  | cons c p => rw [get, hchildren, List.dlookup_nil, Option.bind_none]

/-- **A pattern is removed if it is there and not too long.** The depth is counted in characters,
    and the count starts at `index`. -/
theorem removeRecursive_removed (h : WellFormed node) (path : List Char) (index : Nat) :
    (removeRecursive path index node).2 = true ↔
      index + path.length ≤ maxTrieDepth ∧ (get path node).isSome := by
  induction path generalizing node index with
  | nil =>
    by_cases hindex : maxTrieDepth < index
    · rw [removeRecursive_deep hindex, List.length_nil, Nat.add_zero]
      simp [Nat.not_le.mpr hindex]
    · rw [removeRecursive_nil (Nat.not_lt.mp hindex), get, ← h.marked]
      cases node.isTerminal with
      | false => simp
      | true => simpa using Nat.not_lt.mp hindex
  | cons ch path ih =>
    rw [List.length_cons]
    by_cases hindex : maxTrieDepth < index
    · rw [removeRecursive_deep hindex]
      simp
      omega
    · cases hchild : node.children.dlookup ch with
      | none =>
        rw [removeRecursive_cons_none hchild, get_cons_none hchild]
        simp
      | some child =>
        rw [get_cons hchild, Nat.add_comm path.length, ← Nat.add_assoc,
          ← ih (h.of_dlookup hchild) (index + 1)]
        cases hnext : TrieNode.removeRecursive path (index + 1) child with
        | mk next removed =>
          rcases removeRecursive_cons (Nat.not_lt.mp hindex) hchild hnext with
            ⟨hstep, hremoved, -⟩ | hstep
          · rw [hstep, hremoved]
          · rw [hstep]

theorem WellFormed.removeRecursive (h : WellFormed node) (path : List Char) (index : Nat) :
    WellFormed (removeRecursive path index node).1 := by
  induction path generalizing node index with
  | nil =>
    by_cases hindex : maxTrieDepth < index
    · rw [removeRecursive_deep hindex]
      exact h
    · rw [removeRecursive_nil (Nat.not_lt.mp hindex)]
      split
      · exact h.passing
      · exact h
  | cons ch path ih =>
    by_cases hindex : maxTrieDepth < index
    · rw [removeRecursive_deep hindex]
      exact h
    · cases hchild : node.children.dlookup ch with
      | none =>
        rw [removeRecursive_cons_none hchild]
        exact h
      | some child =>
        have hwf := ih (h.of_dlookup hchild) (index + 1)
        cases hnext : TrieNode.removeRecursive path (index + 1) child with
        | mk next removed =>
          rw [hnext] at hwf
          rcases removeRecursive_cons (Nat.not_lt.mp hindex) hchild hnext with
            ⟨hstep, -⟩ | hstep
          · rw [hstep]
            exact h.kerase ch
          · rw [hstep]
            exact (h.kerase ch).kinsert hwf

/-- **Then, and only then, its value is gone**; no other value changes. -/
theorem get_removeRecursive (h : WellFormed node) (path p : List Char) (index : Nat) :
    get p (removeRecursive path index node).1 =
      if (removeRecursive path index node).2 ∧ p = path then none else get p node := by
  have hpath {path : List Char} {P : Prop} (c : Char) (p : List Char) :
      (P ∧ p = path ↔ P ∧ c :: p = c :: path) := by
    rw [List.cons_eq_cons, and_iff_right rfl]
  induction path generalizing node index p with
  | nil =>
    by_cases hindex : maxTrieDepth < index
    · rw [removeRecursive_deep hindex, if_neg (by simp)]
    · rw [removeRecursive_nil (Nat.not_lt.mp hindex)]
      split
      · rw [get_passing]
        simp
      · simp
  | cons ch path ih =>
    by_cases hindex : maxTrieDepth < index
    · rw [removeRecursive_deep hindex, if_neg (by simp)]
    · cases hchild : node.children.dlookup ch with
      | none => rw [removeRecursive_cons_none hchild, if_neg (by simp)]
      | some child =>
        -- The recursion is into the child, so what its removal did is known for every path below
        -- it.
        have hwf := (h.of_dlookup hchild).removeRecursive path (index + 1)
        have hrest := fun p => ih (h.of_dlookup hchild) p (index + 1)
        cases hnext : TrieNode.removeRecursive path (index + 1) child with
        | mk next removed =>
          rw [hnext] at hwf hrest
          cases p with
          | nil =>
            have hroot : get [] (TrieNode.removeRecursive (ch :: path) index node).1 =
                get [] node := by
              rcases removeRecursive_cons (Nat.not_lt.mp hindex) hchild hnext with
                ⟨hstep, -⟩ | hstep
              · rw [hstep, get_withChildren_nil]
              · rw [hstep, get_withChildren_nil]
            rw [hroot, if_neg fun heq => List.cons_ne_nil _ _ heq.2.symm]
          | cons c p =>
            rcases removeRecursive_cons (Nat.not_lt.mp hindex) hchild hnext with
              ⟨hstep, hremoved, hterminal, hchildren⟩ | hstep
            · rw [hstep, get_erased h]
              by_cases hc : c = ch
              · -- The child holds nothing any more, so it held nothing else before.
                subst hc
                have hbare := get_of_bare hwf hterminal hchildren p
                rw [hrest, hremoved] at hbare
                rw [if_pos rfl, get_cons hchild]
                exact hbare.symm.trans (if_congr (hpath c p) rfl rfl)
              · rw [if_neg hc, if_neg fun h => hc (List.head_eq_of_cons_eq h.2)]
            · rw [hstep, get_replaced, hrest]
              by_cases hc : c = ch
              · subst hc
                rw [if_pos rfl, get_cons hchild]
                exact if_congr (hpath c p) rfl rfl
              · rw [if_neg hc, if_neg fun h => hc (List.head_eq_of_cons_eq h.2)]

end TrieNode

/-! ## All patterns

The loop has a stack of nodes with the paths that lead to them. What it will still come upon is
what lies below them, and nothing is found twice since they are apart from each other.
-/

/-- The length that `collect` limits: bytes, and not characters. -/
def byteSize (path : List Char) : Nat := (String.ofList path).utf8ByteSize

theorem byteSize_append (path rest : List Char) :
    byteSize (path ++ rest) = byteSize path + byteSize rest := by
  rw [byteSize, String.ofList_append, String.utf8ByteSize_append]
  rfl

section
variable {visit : Visit} {node child : TrieNode} {path k : List Char}
  {stack : List (TrieNode × List Char)} {patterns : List (List Char)}

theorem mem_pushed (h : node.WellFormed) {e : TrieNode × List Char} :
    e ∈ visit.pushed node path ↔
      ∃ ch child, node.children.dlookup ch = some child ∧ e = (child, path ++ [ch]) := by
  rw [Visit.pushed, List.mem_reverse, List.mem_map]
  constructor
  · rintro ⟨⟨ch, child⟩, hmem, rfl⟩
    exact ⟨ch, child, List.mem_dlookup h.keys ((visit.perm _ _).mem_iff.mp hmem), rfl⟩
  · rintro ⟨ch, child, hchild, rfl⟩
    exact ⟨⟨ch, child⟩, (visit.perm _ _).mem_iff.mpr (List.of_mem_dlookup hchild), rfl⟩

/-- The patterns below a node, those that are too long left out. -/
def Below (node : TrieNode) (path k : List Char) : Prop :=
  ∃ rest, k = path ++ rest ∧ (node.get rest).isSome ∧ byteSize k ≤ maxTrieDepth

variable (visit) in
/-- What is below a node is at the node, or below one of its children, and no child is looked at
    from a path that is too long. -/
theorem below_iff (h : node.WellFormed) (hpath : byteSize path ≤ maxTrieDepth) :
    Below node path k ↔ (node.isTerminal ∧ k = path) ∨
      ∃ e ∈ visit.pushed node path, Below e.1 e.2 k := by
  constructor
  · rintro ⟨rest, rfl, hget, hle⟩
    cases rest with
    | nil => exact .inl ⟨h.marked.trans hget, List.append_nil path⟩
    | cons ch rest =>
      cases hchild : node.children.dlookup ch with
      | none =>
        rw [TrieNode.get_cons_none hchild] at hget
        cases hget
      | some child =>
        rw [TrieNode.get_cons hchild] at hget
        refine .inr ⟨_, (mem_pushed h).mpr ⟨ch, child, hchild, rfl⟩, rest, ?_, hget, hle⟩
        simp
  · rintro (⟨hterminal, rfl⟩ | ⟨e, he, rest, rfl, hget, hle⟩)
    · exact ⟨[], (List.append_nil _).symm, h.marked.symm.trans hterminal, hpath⟩
    · obtain ⟨ch, child, hchild, rfl⟩ := (mem_pushed h).mp he
      refine ⟨ch :: rest, by simp, ?_, hle⟩
      rwa [TrieNode.get_cons hchild]

/-- A path that is too long has nothing below it: longer paths are longer still. -/
theorem not_below (hpath : maxTrieDepth < byteSize path) : ¬Below node path k := by
  rintro ⟨rest, rfl, -, hle⟩
  rw [byteSize_append] at hle
  omega

theorem wellFormed_pushed (h : ∀ e ∈ (node, path) :: stack, e.1.WellFormed) :
    ∀ e ∈ visit.pushed node path ++ stack, e.1.WellFormed := by
  have hnode : node.WellFormed := h (node, path) List.mem_cons_self
  intro e he
  rcases List.mem_append.mp he with he | he
  · obtain ⟨ch, child, hchild, rfl⟩ := (mem_pushed hnode).mp he
    exact hnode.of_dlookup hchild
  · exact h e (List.mem_cons_of_mem _ he)

/-- **The loop comes upon every pattern below the nodes on its stack.** -/
theorem mem_collect (h : ∀ e ∈ stack, e.1.WellFormed) :
    k ∈ collect visit stack patterns ↔ k ∈ patterns ∨ ∃ e ∈ stack, Below e.1 e.2 k := by
  induction stack, patterns using collect.induct visit with
  | case1 patterns => simp [collect]
  | case2 node path stack patterns hpath ih =>
    rw [collect, if_pos hpath, ih fun e he => h e (List.mem_cons_of_mem _ he)]
    simp [not_below hpath]
  | case3 node path stack patterns hpath ih =>
    have hnode : node.WellFormed := h (node, path) List.mem_cons_self
    have hpatterns : k ∈ (if node.isTerminal then patterns ++ [path] else patterns) ↔
        k ∈ patterns ∨ (node.isTerminal ∧ k = path) := by
      split
      · rename_i hterminal
        simp [hterminal]
      · rename_i hterminal
        simp [hterminal]
    rw [collect, if_neg hpath, ← dite_eq_ite, ih (wellFormed_pushed h), dite_eq_ite, hpatterns,
      List.exists_mem_cons_iff, below_iff visit hnode (Nat.not_lt.mp hpath)]
    simp only [List.mem_append, or_and_right, exists_or, or_assoc]

/-- No path on the stack leads to another one, nor to a pattern that is there already. -/
structure Apart (stack : List (TrieNode × List Char)) (patterns : List (List Char)) : Prop where
  nodup : patterns.Nodup
  apart : stack.Pairwise fun e e' => ¬e.2 <+: e'.2 ∧ ¬e'.2 <+: e.2
  ahead : ∀ k ∈ patterns, ∀ e ∈ stack, ¬e.2 <+: k

theorem pairwise_pushed (h : node.WellFormed) :
    (visit.pushed node path).Pairwise fun e e' => ¬e.2 <+: e'.2 ∧ ¬e'.2 <+: e.2 := by
  have hkeys : (visit.order path node.children).NodupKeys :=
    (List.perm_nodupKeys (visit.perm _ _)).mpr h.keys
  rw [Visit.pushed, List.pairwise_reverse, List.pairwise_map]
  refine (List.nodupKeys_iff_pairwise.mp hkeys).imp fun hne => ?_
  rw [List.prefix_append_right_inj, List.prefix_append_right_inj]
  simp only [List.cons_prefix_cons, List.prefix_rfl, and_true]
  exact ⟨Ne.symm hne, hne⟩

/-- One turn keeps the paths apart. The node's own path is a beginning of those of its children and
    is taken off the stack when they are put on it. -/
theorem Apart.step (h : node.WellFormed) (hapart : Apart ((node, path) :: stack) patterns) :
    Apart (visit.pushed node path ++ stack)
      (if node.isTerminal then patterns ++ [path] else patterns) := by
  obtain ⟨hnodup, hstack, hahead⟩ := hapart
  obtain ⟨hpath, hrest⟩ := List.pairwise_cons.mp hstack
  have hchild : ∀ e ∈ visit.pushed node path, ∃ ch, e.2 = path ++ [ch] := by
    intro e he
    obtain ⟨ch, child, -, rfl⟩ := (mem_pushed h).mp he
    exact ⟨ch, rfl⟩
  constructor
  · split
    · refine List.nodup_append.mpr ⟨hnodup, List.nodup_singleton _, fun k hk k' hk' => ?_⟩
      rw [List.mem_singleton] at hk'
      rintro rfl
      exact hahead k hk _ List.mem_cons_self (hk' ▸ List.prefix_rfl)
    · exact hnodup
  · refine List.pairwise_append.mpr ⟨pairwise_pushed h, hrest, fun e he e' he' => ?_⟩
    obtain ⟨ch, hch⟩ := hchild e he
    obtain ⟨hnot, hnot'⟩ := hpath e' he'
    rw [hch]
    refine ⟨fun hpre => hnot ((List.prefix_append path [ch]).trans hpre), fun hpre => ?_⟩
    rcases List.prefix_concat_iff.mp hpre with heq | hpre
    · exact hnot (heq ▸ List.prefix_append path [ch])
    · exact hnot' hpre
  · have hold : ∀ k ∈ patterns, ∀ e ∈ visit.pushed node path ++ stack, ¬e.2 <+: k := by
      intro k hk e he hpre
      rcases List.mem_append.mp he with he | he
      · obtain ⟨ch, hch⟩ := hchild e he
        rw [hch] at hpre
        exact hahead k hk _ List.mem_cons_self ((List.prefix_append path [ch]).trans hpre)
      · exact hahead k hk e (List.mem_cons_of_mem _ he) hpre
    have hself : ∀ e ∈ visit.pushed node path ++ stack, ¬e.2 <+: path := by
      intro e he hpre
      rcases List.mem_append.mp he with he | he
      · obtain ⟨ch, hch⟩ := hchild e he
        have hle := hpre.length_le
        rw [hch, List.length_append, List.length_singleton] at hle
        omega
      · exact (hpath e he).2 hpre
    intro k hk
    split at hk
    · rcases List.mem_append.mp hk with hk | hk
      · exact hold k hk
      · exact List.mem_singleton.mp hk ▸ hself
    · exact hold k hk

theorem nodup_collect (h : ∀ e ∈ stack, e.1.WellFormed) (hapart : Apart stack patterns) :
    (collect visit stack patterns).Nodup := by
  induction stack, patterns using collect.induct visit with
  | case1 patterns =>
    rw [collect]
    exact hapart.nodup
  | case2 node path stack patterns hpath ih =>
    rw [collect, if_pos hpath]
    refine ih (fun e he => h e (List.mem_cons_of_mem _ he)) ⟨hapart.nodup,
      (List.pairwise_cons.mp hapart.apart).2, fun k hk e he => ?_⟩
    exact hapart.ahead k hk e (List.mem_cons_of_mem _ he)
  | case3 node path stack patterns hpath ih =>
    have hnode : node.WellFormed := h (node, path) List.mem_cons_self
    rw [collect, if_neg hpath, ← dite_eq_ite]
    refine ih (wellFormed_pushed h) ?_
    rw [dite_eq_ite]
    exact hapart.step hnode

end

end Cat
