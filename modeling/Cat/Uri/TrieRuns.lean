import Cat.Uri.TrieNodes

/-!
# Tries as finite maps

Insertions and removals stand for a finite map (`stored`). A trie holds nearly that map: what it
holds (`kept`) still has the patterns of more than `maxTrieDepth` characters that were removed,
because `remove` returns `false` for them and leaves them there. What is lost on the way out is
the empty pattern, to a search, and a pattern of more than `maxTrieDepth` bytes, to
`get_all_patterns`. The two theorems at the end say that nothing else goes wrong.

`kept` is a function of the operations and mentions no trie, so each theorem can be read as one
about two lists of operations: the log with all its removals and the log without those of long
patterns. That a trie holds `kept` is the invariant, one lemma for each operation and an
induction over the run.

Characters and bytes part company at the limit. `remove` counts characters on its way down,
`get_all_patterns` looks at the length of what it has collected, in bytes. A pattern of few
characters and many bytes can be removed but not listed, and both conditions have to be stated
in their own unit.
-/

set_option autoImplicit false

namespace Cat

/-! ## Operations

The same list of operations is run on a trie, on the map that it stands for and on the map that
a trie really holds. The two maps differ by removals that are refused.
-/

inductive TrieOp where
  | insert (pattern value : String)
  | remove (pattern : String)

/-- Values by their patterns. -/
abbrev PatternMap := Finmap fun _ : String => String

def PatternMap.after (m : PatternMap) : TrieOp → PatternMap
  | .insert pattern value => m.insert pattern value
  | .remove pattern => m.erase pattern

/-- The map that the operations stand for. -/
def stored (ops : List TrieOp) : PatternMap := ops.foldl PatternMap.after ∅

def Trie.after (d : Direction) (t : Trie) : TrieOp → Trie
  | .insert pattern value => t.insert d pattern value
  | .remove pattern => (t.remove d pattern).1

def Trie.run (d : Direction) (ops : List TrieOp) : Trie := ops.foldl (Trie.after d) {}

def PrefixTrie.run (ops : List TrieOp) : PrefixTrie := Trie.run .forward ops

def SuffixTrie.run (ops : List TrieOp) : SuffixTrie := Trie.run .backward ops

/-- A removal of a pattern that is too deep does nothing. -/
def PatternMap.keptAfter (m : PatternMap) : TrieOp → PatternMap
  | .insert pattern value => m.insert pattern value
  | .remove pattern => if pattern.length ≤ maxTrieDepth then m.erase pattern else m

/-- What a trie holds after the operations. -/
def kept (ops : List TrieOp) : PatternMap := ops.foldl PatternMap.keptAfter ∅

section
variable {ops : List TrieOp} {op : TrieOp} {pattern value : String}

theorem stored_concat (ops : List TrieOp) (op : TrieOp) :
    stored (ops ++ [op]) = (stored ops).after op := List.foldl_concat ..

theorem kept_concat (ops : List TrieOp) (op : TrieOp) :
    kept (ops ++ [op]) = (kept ops).keptAfter op := List.foldl_concat ..

theorem lookup_insert (m : PatternMap) (pattern value p : String) :
    (m.insert pattern value).lookup p = if p = pattern then some value else m.lookup p := by
  by_cases hp : p = pattern
  · rw [if_pos hp, hp, Finmap.lookup_insert]
  · rw [if_neg hp, Finmap.lookup_insert_of_ne _ hp]

theorem lookup_erase (m : PatternMap) (pattern p : String) :
    (m.erase pattern).lookup p = if p = pattern then none else m.lookup p := by
  by_cases hp : p = pattern
  · rw [if_pos hp, hp, Finmap.lookup_erase]
  · rw [if_neg hp, Finmap.lookup_erase_ne hp]

/-- A removal that is refused is the only thing that the two maps do not share. -/
theorem kept_of_length_le (h : pattern.length ≤ maxTrieDepth) :
    (kept ops).lookup pattern = (stored ops).lookup pattern := by
  induction ops using List.reverseRecOn with
  | nil => rfl
  | append_singleton ops op ih =>
    rw [stored_concat, kept_concat]
    cases op with
    | insert p v =>
      rw [PatternMap.after, PatternMap.keptAfter, lookup_insert, lookup_insert, ih]
    | remove p =>
      rw [PatternMap.after, PatternMap.keptAfter, lookup_erase]
      split
      · rw [lookup_erase, ih]
      · rename_i hp
        have hne : pattern ≠ p := fun heq => hp (heq ▸ h)
        rw [if_neg hne, ih]

theorem kept_of_stored (h : (stored ops).lookup pattern = some value) :
    (kept ops).lookup pattern = some value := by
  induction ops using List.reverseRecOn with
  | nil => cases h
  | append_singleton ops op ih =>
    rw [stored_concat] at h
    rw [kept_concat]
    cases op with
    | insert p v =>
      rw [PatternMap.after, lookup_insert] at h
      rw [PatternMap.keptAfter, lookup_insert]
      split at h
      · rename_i hp
        rw [if_pos hp, h]
      · rename_i hp
        rw [if_neg hp, ih h]
    | remove p =>
      rw [PatternMap.after, lookup_erase] at h
      split at h
      · cases h
      · rename_i hp
        rw [PatternMap.keptAfter]
        split
        · rw [lookup_erase, if_neg hp, ih h]
        · exact ih h

theorem inserted_of_kept (h : pattern ∈ kept ops) : ∃ value, .insert pattern value ∈ ops := by
  induction ops using List.reverseRecOn with
  | nil => exact absurd h Finmap.notMem_empty
  | append_singleton ops op ih =>
    have hold : pattern ∈ kept ops → ∃ value, .insert pattern value ∈ ops ++ [op] := fun h =>
      (ih h).imp fun _ hmem => List.mem_append_left _ hmem
    rw [kept_concat] at h
    cases op with
    | insert p v =>
      rcases Finmap.mem_insert.mp h with rfl | h
      · exact ⟨v, List.mem_append_right _ List.mem_cons_self⟩
      · exact hold h
    | remove p =>
      rw [PatternMap.keptAfter] at h
      split at h
      · exact hold (Finmap.mem_erase.mp h).2
      · exact hold h

/-- A pattern that is too long to be removed stays. -/
theorem kept_of_inserted (h : maxTrieDepth < pattern.length) (hops : .insert pattern value ∈ ops) :
    pattern ∈ kept ops := by
  induction ops using List.reverseRecOn with
  | nil => cases hops
  | append_singleton ops op ih =>
    rw [kept_concat]
    rcases List.mem_append.mp hops with hold | hops
    · cases op with
      | insert p v => exact Finmap.mem_insert.mpr (.inr (ih hold))
      | remove p =>
        rw [PatternMap.keptAfter]
        split
        · rename_i hp
          have hne : pattern ≠ p := fun heq => absurd (heq ▸ hp) (Nat.not_le.mpr h)
          exact Finmap.mem_erase.mpr ⟨hne, ih hold⟩
        · exact ih hold
    · obtain rfl := List.mem_singleton.mp hops
      exact Finmap.mem_insert.mpr (.inl rfl)

theorem kept_eq_stored_iff :
    kept ops = stored ops ↔ ∀ pattern value, .insert pattern value ∈ ops →
      maxTrieDepth < pattern.length → pattern ∈ stored ops := by
  constructor
  · intro h pattern value hops hlen
    exact h ▸ kept_of_inserted hlen hops
  · intro h
    refine Finmap.ext_lookup fun pattern => ?_
    by_cases hlen : pattern.length ≤ maxTrieDepth
    · exact kept_of_length_le hlen
    · cases hstored : (stored ops).lookup pattern with
      | some value => exact kept_of_stored hstored
      | none =>
        rw [Finmap.lookup_eq_none] at hstored ⊢
        intro hkept
        obtain ⟨value, hops⟩ := inserted_of_kept hkept
        exact hstored (h pattern value hops (Nat.not_le.mp hlen))

end

/-! ## Runs

The invariant is that the trie holds a map and counts its entries. An insertion and a removal
each keep it, with the map moved on as `keptAfter` says.
-/

/-- The trie holds this map, and counts its entries. -/
structure Represents (d : Direction) (t : Trie) (m : PatternMap) : Prop where
  wellFormed : t.root.WellFormed
  get : ∀ pattern, t.root.get (d.key pattern) = m.lookup pattern
  size : t.size = m.keys.card

section
variable {d : Direction} {t : Trie} {m : PatternMap}

theorem Direction.key_inj (d : Direction) {p q : String} : d.key p = d.key q ↔ p = q :=
  ⟨fun h => by rw [← d.whole_key p, h, d.whole_key], fun h => h ▸ rfl⟩

theorem Direction.length_key (d : Direction) (pattern : String) :
    (d.key pattern).length = pattern.length :=
  (d.perm pattern).length_eq.trans String.length_toList

theorem Direction.key_eq_nil (d : Direction) {pattern : String} :
    d.key pattern = [] ↔ pattern = "" := by
  rw [← List.length_eq_zero_iff, d.length_key, ← String.length_toList, List.length_eq_zero_iff,
    String.toList_eq_nil_iff]

theorem represents_empty (d : Direction) : Represents d {} ∅ :=
  ⟨TrieNode.wellFormed_empty, fun _ => TrieNode.get_empty _, rfl⟩

theorem Represents.insert (h : Represents d t m) (pattern value : String) :
    Represents d (t.insert d pattern value) (m.insert pattern value) := by
  refine ⟨h.wellFormed.insert value _, fun p => ?_, ?_⟩
  · rw [Trie.insert, TrieNode.get_insert, lookup_insert, h.get]
    exact if_congr d.key_inj rfl rfl
  · have hkeys : (m.insert pattern value).keys = Insert.insert pattern m.keys := by
      ext p
      rw [Finmap.mem_keys, Finmap.mem_insert, Finset.mem_insert, Finmap.mem_keys]
    rw [hkeys, Finset.card_insert_eq_ite, Trie.insert, TrieNode.insert_new h.wellFormed, h.get,
      h.size]
    by_cases hmem : pattern ∈ m
    · rw [if_pos (Finmap.mem_keys.mpr hmem), if_neg]
      rw [Option.isNone_iff_eq_none, Finmap.lookup_eq_none]
      exact fun hnot => hnot hmem
    · rw [if_neg fun hmem' => hmem (Finmap.mem_keys.mp hmem'), if_pos]
      rw [Option.isNone_iff_eq_none, Finmap.lookup_eq_none]
      exact hmem

theorem Represents.removed (h : Represents d t m) (pattern : String) :
    (t.remove d pattern).2 = true ↔ pattern.length ≤ maxTrieDepth ∧ pattern ∈ m := by
  rw [Trie.remove, TrieNode.removeRecursive_removed h.wellFormed, h.get, Nat.zero_add,
    d.length_key, Finmap.lookup_isSome]

theorem keptAfter_of_not {pattern : String} (h : ¬(pattern.length ≤ maxTrieDepth ∧ pattern ∈ m)) :
    m.keptAfter (.remove pattern) = m := by
  rw [PatternMap.keptAfter]
  split
  · rename_i hlen
    refine Finmap.ext_lookup fun p => ?_
    rw [lookup_erase]
    split
    · rename_i hp
      rw [hp, eq_comm, Finmap.lookup_eq_none]
      exact fun hmem => h ⟨hlen, hmem⟩
    · rfl
  · rfl

theorem Represents.remove (h : Represents d t m) (pattern : String) :
    Represents d (t.remove d pattern).1 (m.keptAfter (.remove pattern)) := by
  have hget := fun p => TrieNode.get_removeRecursive h.wellFormed (d.key pattern) (d.key p) 0
  by_cases hthere : pattern.length ≤ maxTrieDepth ∧ pattern ∈ m
  · have hremoved := (h.removed pattern).mpr hthere
    rw [Trie.remove] at hremoved
    simp only at hremoved
    refine ⟨h.wellFormed.removeRecursive _ _, fun p => ?_, ?_⟩
    · rw [Trie.remove, hget, hremoved, PatternMap.keptAfter, if_pos hthere.1, lookup_erase, h.get]
      exact if_congr ((and_iff_right rfl).trans d.key_inj) rfl rfl
    · rw [Trie.remove, PatternMap.keptAfter, if_pos hthere.1, Finmap.keys_erase,
        Finset.card_erase_of_mem (Finmap.mem_keys.mpr hthere.2), ← h.size]
      simp only [hremoved, if_pos]
  · have hremoved := mt (h.removed pattern).mp hthere
    rw [Trie.remove] at hremoved
    simp only at hremoved
    rw [keptAfter_of_not hthere]
    refine ⟨h.wellFormed.removeRecursive _ _, fun p => ?_, ?_⟩
    · rw [Trie.remove, hget, if_neg fun heq => hremoved heq.1, h.get]
    · rw [Trie.remove]
      simp only [if_neg hremoved, h.size]

theorem represents_run (d : Direction) (ops : List TrieOp) :
    Represents d (Trie.run d ops) (kept ops) := by
  induction ops using List.reverseRecOn with
  | nil => exact represents_empty d
  | append_singleton ops op ih =>
    rw [kept_concat, Trie.run, List.foldl_concat]
    cases op with
    | insert pattern value => exact ih.insert pattern value
    | remove pattern => exact ih.remove pattern

end

/-! ## Search

A search answers with the values of the patterns along one path, the shortest first. It starts
below the root, so the empty pattern is never among them.
-/

/-- The beginnings of a text, the empty one first. -/
def prefixesOf (text : String) : List String := text.toList.inits.map String.ofList

/-- The ends of a text, the empty one first. -/
def suffixesOf (text : String) : List String := (text.toList.tails.map String.ofList).reverse

/-- The search finds the values of the patterns in the map that are parts of the text, the shortest
first, and the membership test is whether there is one. -/
structure SearchesExactly (search : String → List String) (contains : String → Bool)
    (parts : String → List String) (m : PatternMap) : Prop where
  searches : ∀ text, search text = (parts text).filterMap fun p => m.lookup p
  contains : ∀ text, contains text = true ↔ search text ≠ []

/-- The beginnings of a text, read in the direction of the trie. -/
def Direction.parts (d : Direction) (text : String) : List String := (d.key text).inits.map d.whole

theorem parts_backward : Direction.backward.parts = suffixesOf := by
  funext text
  rw [Direction.parts, suffixesOf]
  show (text.toList.reverse.inits).map (fun chars => String.ofList chars.reverse) = _
  rw [List.inits_reverse, List.map_reverse, List.map_map]
  congr 2
  funext chars
  rw [Function.comp, List.reverse_reverse]

section
variable {d : Direction} {t : Trie} {m : PatternMap} {text : String}

theorem parts_eq_cons (d : Direction) (text : String) :
    d.parts text = "" :: (d.parts text).tail := by
  have hinits : (d.key text).inits = [] :: (d.key text).inits.tail := by
    cases d.key text with
    | nil => rfl
    | cons ch chars => rfl
  have hempty : d.whole [] = "" := by rw [← d.key_eq_nil, d.key_whole]
  rw [Direction.parts, hinits, List.map_cons, hempty, List.tail_cons]

theorem self_mem_parts (d : Direction) (h : text ≠ "") : text ∈ (d.parts text).tail := by
  have hmem : text ∈ d.parts text :=
    List.mem_map.mpr ⟨d.key text, List.mem_inits _ _ |>.mpr List.prefix_rfl, d.whole_key text⟩
  rw [parts_eq_cons] at hmem
  exact (List.mem_cons.mp hmem).resolve_left h

theorem Represents.search (h : Represents d t m) (text : String) :
    t.search d text = (d.parts text).tail.filterMap fun p => m.lookup p := by
  rw [Trie.search, TrieNode.search_eq h.wellFormed, Direction.parts, ← List.map_tail,
    List.filterMap_map]
  congr 1
  funext chars
  rw [Function.comp, ← h.get, d.key_whole]

theorem Represents.contains (h : Represents d t m) (text : String) :
    t.contains d text = true ↔ t.search d text ≠ [] ∨ (text = "" ∧ "" ∈ m) := by
  have hempty : t.root.get [] = m.lookup "" := by rw [← d.key_eq_nil.mpr rfl, h.get]
  rw [Trie.contains, Trie.search, TrieNode.contains_eq h.wellFormed, hempty, Bool.or_eq_true,
    Bool.and_eq_true, List.isEmpty_iff, d.key_eq_nil, Finmap.lookup_isSome]
  simp

/-- Where one partial map extends another one, and they give a list of keys the same values, they
agree on it. -/
theorem eq_of_filterMap_eq {α β : Type} {f g : α → Option β} {l : List α}
    (hle : ∀ a b, f a = some b → g a = some b) (h : l.filterMap g = l.filterMap f) :
    ∀ a ∈ l, g a = f a := by
  induction l with
  | nil => exact fun _ h => absurd h List.not_mem_nil
  | cons a l ih =>
    have hlen : (l.filterMap f).length ≤ (l.filterMap g).length := by
      rw [List.length_filterMap_eq_countP, List.length_filterMap_eq_countP]
      refine List.countP_mono_left fun a _ ha => ?_
      obtain ⟨b, hb⟩ := Option.isSome_iff_exists.mp ha
      rw [hle a b hb]
      rfl
    rw [List.filterMap_cons, List.filterMap_cons] at h
    rw [List.forall_mem_cons]
    cases hf : f a with
    | some b =>
      rw [hf, hle a b hf] at h
      exact ⟨hle a b hf, ih (List.tail_eq_of_cons_eq h)⟩
    | none =>
      cases hg : g a with
      | none =>
        rw [hf, hg] at h
        exact ⟨rfl, ih h⟩
      | some b =>
        rw [hf, hg] at h
        have hlonger : (b :: l.filterMap g).length = (l.filterMap f).length := congrArg _ h
        rw [List.length_cons] at hlonger
        omega

theorem searchesExactly_iff (d : Direction) (ops : List TrieOp) :
    SearchesExactly ((Trie.run d ops).search d) ((Trie.run d ops).contains d) d.parts
        (stored ops) ↔
      "" ∉ stored ops ∧ ∀ pattern value, .insert pattern value ∈ ops →
        maxTrieDepth < pattern.length → pattern ∈ stored ops := by
  have hrun := represents_run d ops
  rw [← kept_eq_stored_iff]
  constructor
  · intro h
    have hempty : "" ∉ stored ops := by
      intro hmem
      obtain ⟨value, hvalue⟩ := Finmap.mem_iff.mp hmem
      have hnil : (Trie.run d ops).search d "" = [] := by
        rw [Trie.search, d.key_eq_nil.mpr rfl, TrieNode.search]
      have hsearch := h.searches ""
      rw [hnil, parts_eq_cons, List.filterMap_cons, hvalue] at hsearch
      cases hsearch
    refine ⟨hempty, Finmap.ext_lookup fun p => ?_⟩
    by_cases hp : p = ""
    · exact kept_of_length_le (hp ▸ Nat.zero_le _)
    · -- The pattern itself, as a text, tells the two maps apart.
      have hsearch := h.searches p
      rw [hrun.search, parts_eq_cons, List.filterMap_cons, Finmap.lookup_eq_none.mpr hempty,
        List.tail_cons] at hsearch
      exact eq_of_filterMap_eq (fun _ _ => kept_of_stored) hsearch p (self_mem_parts d hp)
  · rintro ⟨hempty, hkept⟩
    rw [hkept] at hrun
    constructor
    · intro text
      rw [hrun.search, parts_eq_cons, List.filterMap_cons, Finmap.lookup_eq_none.mpr hempty,
        List.tail_cons]
    · intro text
      rw [hrun.contains, or_iff_left fun h => hempty h.2]

end

/-- **Search and membership test are right, for every text, exactly if** the empty pattern is not
stored, and no pattern of more than `maxTrieDepth` characters was removed for good.

A search looks at a node when it has read a character, so never at the root, which is where the
empty pattern ends. A removal gives up at a depth that insertion does not know of, so what is stored
below it stays. -/
theorem trieSearch_iff (ops : List TrieOp) :
    (SearchesExactly (PrefixTrie.searchPrefix (PrefixTrie.run ops))
        (PrefixTrie.containsPrefix (PrefixTrie.run ops)) prefixesOf (stored ops) ↔
      "" ∉ stored ops ∧ ∀ pattern value, .insert pattern value ∈ ops →
        maxTrieDepth < pattern.length → pattern ∈ stored ops) ∧
    (SearchesExactly (SuffixTrie.searchSuffix (SuffixTrie.run ops))
        (SuffixTrie.containsSuffix (SuffixTrie.run ops)) suffixesOf (stored ops) ↔
      "" ∉ stored ops ∧ ∀ pattern value, .insert pattern value ∈ ops →
        maxTrieDepth < pattern.length → pattern ∈ stored ops) := by
  constructor
  · exact searchesExactly_iff .forward ops
  · rw [← parts_backward]
    exact searchesExactly_iff .backward ops

theorem trieSearch_empty_pattern :
    ¬SearchesExactly (PrefixTrie.searchPrefix (PrefixTrie.run [.insert "" "any"]))
      (PrefixTrie.containsPrefix (PrefixTrie.run [.insert "" "any"])) prefixesOf
      (stored [.insert "" "any"]) := by
  intro h
  have hsearch : PrefixTrie.searchPrefix (PrefixTrie.run [.insert "" "any"]) "" = [] := by decide
  exact (h.contains "").mp (by decide) hsearch

/-! ## The map

What a trie tells about its contents, besides searching: its patterns, how many, what is under
each of them, and whether a removal found its pattern.
-/

/-- What the trie tells about its content is the map: its patterns, their number, and the values
that a search finds. The empty pattern, that no search finds, is left aside here. -/
structure ActsAs (patterns : List String) (size : Nat) (search : String → List String)
    (parts : String → List String) (m : PatternMap) : Prop where
  nodup : patterns.Nodup
  patterns : ∀ p, p ∈ patterns ↔ p ∈ m
  size : size = m.keys.card
  values : ∀ text, search text = ((parts text).filter (· ≠ "")).filterMap fun p => m.lookup p

/-- After the operations the trie acts as the map; a removal tells whether the pattern was there,
and afterwards the trie acts as the map without it. -/
structure IsFiniteMap {τ : Type} (run : List TrieOp → τ) (getAllPatterns : Visit → τ → List String)
    (size : τ → Nat) (search : τ → String → List String) (remove : String → τ → τ × Bool)
    (parts : String → List String) (ops : List TrieOp) : Prop where
  now : ∀ visit, ActsAs (getAllPatterns visit (run ops)) (size (run ops)) (search (run ops)) parts
    (stored ops)
  told : ∀ pattern, (remove pattern (run ops)).2 = true ↔ pattern ∈ stored ops
  after : ∀ pattern visit, ActsAs (getAllPatterns visit (remove pattern (run ops)).1)
    (size (remove pattern (run ops)).1) (search (remove pattern (run ops)).1) parts
    ((stored ops).erase pattern)

section
variable {d : Direction} {t : Trie} {m : PatternMap} {ops : List TrieOp} {pattern : String}

theorem byteSize_eq_sum (chars : List Char) :
    byteSize chars = (chars.map fun ch => byteSize [ch]).sum := by
  induction chars with
  | nil => rfl
  | cons ch chars ih =>
    rw [List.map_cons, List.sum_cons, ← ih]
    exact byteSize_append [ch] chars

theorem Direction.byteSize_key (d : Direction) (pattern : String) :
    byteSize (d.key pattern) = pattern.utf8ByteSize := by
  rw [byteSize_eq_sum, ((d.perm pattern).map _).sum_eq, ← byteSize_eq_sum, byteSize,
    String.ofList_toList]

theorem length_le_byteSize (pattern : String) : pattern.length ≤ pattern.utf8ByteSize := by
  have hchars : ∀ chars : List Char, chars.length ≤ byteSize chars := by
    intro chars
    induction chars with
    | nil => exact Nat.zero_le _
    | cons ch chars ih =>
      have hone : byteSize [ch] = ch.utf8Size := by
        rw [byteSize, ← String.singleton_eq_ofList, String.utf8ByteSize_singleton]
      have hcons : byteSize (ch :: chars) = ch.utf8Size + byteSize chars :=
        hone ▸ byteSize_append [ch] chars
      have hpos := ch.utf8Size_pos
      rw [List.length_cons, hcons]
      omega
  have hle := hchars pattern.toList
  rwa [byteSize, String.ofList_toList, String.length_toList] at hle

theorem Represents.nodup_patterns (h : Represents d t m) (visit : Visit) :
    (t.getAllPatterns d visit).Nodup := by
  have hinj : Function.Injective d.whole := fun k k' heq => by
    rw [← d.key_whole k, heq, d.key_whole]
  refine (nodup_collect ?_ ⟨List.nodup_nil, List.pairwise_singleton _ _, nofun⟩).map hinj
  simpa using h.wellFormed

theorem Represents.mem_patterns (h : Represents d t m) (visit : Visit) :
    pattern ∈ t.getAllPatterns d visit ↔ pattern ∈ m ∧ pattern.utf8ByteSize ≤ maxTrieDepth := by
  have hkey : pattern ∈ t.getAllPatterns d visit ↔
      d.key pattern ∈ collect visit [(t.root, [])] [] := by
    rw [Trie.getAllPatterns, List.mem_map]
    constructor
    · rintro ⟨k, hk, rfl⟩
      rwa [d.key_whole]
    · exact fun hk => ⟨_, hk, d.whole_key pattern⟩
  rw [hkey, mem_collect (by simpa using h.wellFormed), ← d.byteSize_key, ← Finmap.lookup_isSome,
    ← h.get]
  simp [Below]

theorem filter_parts (d : Direction) (text : String) :
    (d.parts text).filter (· ≠ "") = (d.parts text).tail := by
  have htail : ∀ p ∈ (d.parts text).tail, p ≠ "" := by
    intro p hp
    rw [Direction.parts, ← List.map_tail] at hp
    obtain ⟨k, hk, rfl⟩ := List.mem_map.mp hp
    rw [ne_eq, ← d.key_eq_nil, d.key_whole]
    rintro rfl
    cases hchars : d.key text with
    | nil =>
      rw [hchars] at hk
      cases hk
    | cons ch chars =>
      rw [hchars] at hk
      simp at hk
  rw [parts_eq_cons, List.filter_cons, if_neg (by simp), List.tail_cons]
  exact List.filter_eq_self.mpr fun p hp => decide_eq_true (htail p hp)

/-- A trie acts as the map that it holds, if none of the patterns there is too long. -/
theorem Represents.actsAs (h : Represents d t m) (visit : Visit)
    (hlen : ∀ pattern ∈ m, pattern.utf8ByteSize ≤ maxTrieDepth) :
    ActsAs (t.getAllPatterns d visit) t.size (t.search d) d.parts m := by
  refine ⟨h.nodup_patterns visit, fun p => ?_, h.size, fun text => ?_⟩
  · rw [h.mem_patterns, and_iff_left_of_imp (hlen p)]
  · rw [filter_parts, h.search]

/-- What the condition below says of the map: it is what the trie holds, and nothing in it is too
long. -/
theorem kept_of_condition
    (h : ∀ pattern value, .insert pattern value ∈ ops → maxTrieDepth < pattern.utf8ByteSize →
      pattern.length ≤ maxTrieDepth ∧ pattern ∉ stored ops) :
    kept ops = stored ops ∧ ∀ pattern ∈ stored ops, pattern.utf8ByteSize ≤ maxTrieDepth := by
  have hkept : kept ops = stored ops := by
    refine kept_eq_stored_iff.mpr fun p v hops hlong => ?_
    have hbytes := length_le_byteSize p
    have := (h p v hops (by omega)).1
    omega
  refine ⟨hkept, fun p hp => Nat.not_lt.mp fun hlong => ?_⟩
  obtain ⟨v, hops⟩ := inserted_of_kept (hkept ▸ hp)
  exact (h p v hops hlong).2 hp

theorem isFiniteMap_iff (d : Direction) (ops : List TrieOp) :
    IsFiniteMap (Trie.run d) (Trie.getAllPatterns d) Trie.size (Trie.search d) (Trie.remove d)
        d.parts ops ↔
      ∀ pattern value, .insert pattern value ∈ ops → maxTrieDepth < pattern.utf8ByteSize →
        pattern.length ≤ maxTrieDepth ∧ pattern ∉ stored ops := by
  have hrun := represents_run d ops
  constructor
  · intro h p v hops hlong
    have hnow := h.now ⟨fun _ children => children, fun _ _ => .refl _⟩
    have hpatterns : ∀ p, p ∈ stored ops ↔ p ∈ kept ops ∧ p.utf8ByteSize ≤ maxTrieDepth :=
      fun p => (hnow.patterns p).symm.trans (hrun.mem_patterns _)
    -- As many patterns, and all of them there: the trie holds no other one.
    have hkeys : (stored ops).keys = (kept ops).keys := by
      refine Finset.eq_of_subset_of_card_le (fun q hq => ?_) ?_
      · exact Finmap.mem_keys.mpr ((hpatterns q).mp (Finmap.mem_keys.mp hq)).1
      · rw [← hrun.size, ← hnow.size]
    have hgone : p ∉ stored ops := fun hp => absurd ((hpatterns p).mp hp).2 (Nat.not_le.mpr hlong)
    refine ⟨Nat.not_lt.mp fun hdeep => hgone ?_, hgone⟩
    rw [← Finmap.mem_keys, hkeys, Finmap.mem_keys]
    exact kept_of_inserted hdeep hops
  · intro h
    obtain ⟨hkept, hlen⟩ := kept_of_condition h
    rw [hkept] at hrun
    refine ⟨fun visit => hrun.actsAs visit hlen, fun p => ?_, fun p visit => ?_⟩
    · rw [hrun.removed]
      exact and_iff_right_of_imp fun hp => (length_le_byteSize p).trans (hlen p hp)
    · have hnext : ∀ q v, .insert q v ∈ ops ++ [.remove p] → maxTrieDepth < q.utf8ByteSize →
          q.length ≤ maxTrieDepth ∧ q ∉ stored (ops ++ [.remove p]) := by
        intro q v hops hlong
        have hold : .insert q v ∈ ops := by simpa using hops
        rw [stored_concat]
        refine (h q v hold hlong).imp_right fun hgone hq => hgone ?_
        exact (Finmap.mem_erase.mp hq).2
      obtain ⟨hkept', hlen'⟩ := kept_of_condition hnext
      have hrun' := represents_run d (ops ++ [.remove p])
      rw [hkept', stored_concat, Trie.run, List.foldl_concat] at hrun'
      rw [stored_concat] at hlen'
      exact hrun'.actsAs visit hlen'

end

/-- **A trie is the finite map of its operations exactly if** every pattern of more than
`maxTrieDepth` bytes that was inserted could be removed, and was.

Listing leaves patterns out by their length in bytes, removal gives up by their length in
characters, and insertion takes all of them. A long pattern is therefore stored and not listed, and
one that is long in characters can never be removed. -/
theorem trieMap_iff (ops : List TrieOp) :
    (IsFiniteMap PrefixTrie.run PrefixTrie.getAllPatterns Trie.size PrefixTrie.searchPrefix
        PrefixTrie.remove prefixesOf ops ↔
      ∀ pattern value, .insert pattern value ∈ ops → maxTrieDepth < pattern.utf8ByteSize →
        pattern.length ≤ maxTrieDepth ∧ pattern ∉ stored ops) ∧
    (IsFiniteMap SuffixTrie.run SuffixTrie.getAllPatterns Trie.size SuffixTrie.searchSuffix
        SuffixTrie.remove suffixesOf ops ↔
      ∀ pattern value, .insert pattern value ∈ ops → maxTrieDepth < pattern.utf8ByteSize →
        pattern.length ≤ maxTrieDepth ∧ pattern ∉ stored ops) := by
  constructor
  · exact isFiniteMap_iff .forward ops
  · rw [← parts_backward]
    exact isFiniteMap_iff .backward ops

/-- 501 letters of two bytes. -/
def accents : String := String.ofList (List.replicate 501 'é')

theorem trieMap_long_pattern :
    ¬IsFiniteMap PrefixTrie.run PrefixTrie.getAllPatterns Trie.size PrefixTrie.searchPrefix
      PrefixTrie.remove prefixesOf [.insert accents "any"] := by
  intro h
  have hbytes : accents.utf8ByteSize = 1002 := by
    have htwo : byteSize ['é'] = 2 := by decide
    show byteSize (List.replicate 501 'é') = 1002
    rw [byteSize_eq_sum, List.map_replicate, htwo, List.sum_replicate]
    rfl
  have hstored : accents ∈ stored [.insert accents "any"] := Finmap.mem_insert.mpr (.inl rfl)
  have hmem := ((h.now ⟨fun _ children => children, fun _ _ => .refl _⟩).patterns _).mpr hstored
  have hle := ((represents_run .forward [.insert accents "any"]).mem_patterns _).mp hmem
  rw [hbytes] at hle
  exact absurd hle.2 (by decide)

end Cat
