import Cat.Uri.Matchers

/-!
# The tries by bytes, over whole runs

`trie_qp.rs` keeps the same tries in a map of the `qp_trie` crate. Nothing is walked there but
the lookups of a search, so no length of a pattern is too much for it: after any operations its
tries are the finite map of these (`qpTries_exact`), with no condition on what was inserted.
What `trieSearch_iff` and `trieMap_iff` ask of the operations for the built-in tries is
therefore just what the two kinds need in order to tell the same.

The map of the crate is a parameter with the laws of a finite map under byte strings, which is
what its documentation promises. On it a search tries every beginning of the text, or every end,
and takes what it finds.
-/

set_option autoImplicit false

open Cbor

namespace Cat

/-- The rest of the crate's map, as far as the tries use it. -/
structure QpCrate extends QpMap where
  remove : Map → Bytes → Map × Option String
  keys : Map → List Bytes
  get_remove : ∀ map key k, get (remove map key).1 k = if k = key then none else get map k
  removed : ∀ map key, (remove map key).2 = get map key
  nodup_keys : ∀ map, (keys map).Nodup
  mem_keys : ∀ map key, key ∈ keys map ↔ (get map key).isSome

/-- This contract can be kept, too. -/
def QpCrate.reference : QpCrate where
  toQpMap := .reference
  remove map key := (AList.erase key map, AList.lookup key map)
  keys map := AList.keys map
  get_remove map key k := by
    by_cases hk : k = key
    · rw [if_pos hk, hk]
      exact AList.lookup_erase key map
    · rw [if_neg hk]
      exact AList.lookup_erase_ne hk
  removed _ _ := rfl
  nodup_keys map := AList.keys_nodup map
  mem_keys _ _ := AList.lookup_isSome.symm

/-- How the bytes of a text are walked along in a direction. -/
structure Direction.Bytewise (d : Direction) (key : Bytes → Bytes) : Prop where
  involutive : Function.Involutive key
  nil : key [] = []
  inits : ∀ text, (key (utf8 text)).inits.filterMap (fun b => ofUtf8? (key b)) = d.parts text

theorem bytewise_forward : Direction.forward.Bytewise id :=
  ⟨fun _ => rfl, rfl, filterMap_inits⟩

theorem bytewise_backward : Direction.backward.Bytewise List.reverse := by
  refine ⟨List.reverse_reverse, rfl, fun text => ?_⟩
  rw [parts_backward, suffixesOf, ← filterMap_tails, List.inits_reverse, List.filterMap_reverse,
    List.filterMap_map]
  congr 2
  funext b
  rw [Function.comp, List.reverse_reverse]

namespace QpTrie

variable {Q : QpCrate}

def remove (key : Bytes) (t : QpTrie Q.toQpMap) : QpTrie Q.toQpMap × Bool :=
  let next := Q.remove t.trie key
  if next.2.isSome then (⟨next.1, t.size - 1⟩, true) else (⟨next.1, t.size⟩, false)

/-- `key` puts the bytes of a stored pattern together again. -/
def getAllPatterns (key : Bytes → Bytes) (t : QpTrie Q.toQpMap) : List String :=
  (Q.keys t.trie).filterMap fun b => ofUtf8? (key b)

def removePrefix (pattern : String) (t : QpTrie Q.toQpMap) : QpTrie Q.toQpMap × Bool :=
  t.remove (utf8 pattern)

def getAllPrefixPatterns (t : QpTrie Q.toQpMap) : List String := t.getAllPatterns id

def removeSuffix (pattern : String) (t : QpTrie Q.toQpMap) : QpTrie Q.toQpMap × Bool :=
  t.remove (utf8 pattern).reverse

def getAllSuffixPatterns (t : QpTrie Q.toQpMap) : List String := t.getAllPatterns List.reverse

variable (Q) in
def after (key : Bytes → Bytes) (t : QpTrie Q.toQpMap) : TrieOp → QpTrie Q.toQpMap
  | .insert pattern value => t.insert (key (utf8 pattern)) value
  | .remove pattern => (t.remove (key (utf8 pattern))).1

variable (Q) in
def run (key : Bytes → Bytes) (ops : List TrieOp) : QpTrie Q.toQpMap :=
  ops.foldl (after Q key) {}

variable (Q) in
def runPrefix (ops : List TrieOp) : QpTrie Q.toQpMap := run Q id ops

variable (Q) in
def runSuffix (ops : List TrieOp) : QpTrie Q.toQpMap := run Q List.reverse ops

/-! ## The map in a trie

Under each pattern as bytes stands its value, as after the operations. Insertion and removal of
the crate's map are those of a finite map, so there is no invariant of a tree to keep.
-/

/-- The trie holds the map, and counts its entries. -/
structure Mirrors (key : Bytes → Bytes) (t : QpTrie Q.toQpMap) (m : PatternMap) : Prop where
  holds : Holds key t m
  size : t.size = m.keys.card

variable {d : Direction} {key : Bytes → Bytes} {t : QpTrie Q.toQpMap} {m : PatternMap}

theorem mirrors_new (key : Bytes → Bytes) : Mirrors key ({} : QpTrie Q.toQpMap) ∅ :=
  ⟨holds_new key, rfl⟩

theorem Holds.get (hkey : Function.Involutive key) (h : Holds key t m) (pattern : String) :
    Q.get t.trie (key (utf8 pattern)) = m.lookup pattern := by
  rw [h, hkey, ofUtf8?_utf8, Option.bind_some]

theorem Mirrors.insert (hkey : Function.Involutive key) (h : Mirrors key t m)
    (pattern value : String) :
    Mirrors key (t.insert (key (utf8 pattern)) value) (m.insert pattern value) := by
  refine ⟨h.holds.insert hkey pattern value, ?_⟩
  have hkeys : (m.insert pattern value).keys = Insert.insert pattern m.keys := by
    ext p
    rw [Finmap.mem_keys, Finmap.mem_insert, Finset.mem_insert, Finmap.mem_keys]
  rw [hkeys, Finset.card_insert_eq_ite, QpTrie.insert, Q.containsKey_eq, h.holds.get hkey, h.size]
  exact if_congr (Finmap.lookup_isSome.trans Finmap.mem_keys.symm) rfl rfl

theorem Mirrors.removed (hkey : Function.Involutive key) (h : Mirrors key t m) (pattern : String) :
    (t.remove (key (utf8 pattern))).2 = true ↔ pattern ∈ m := by
  rw [← Finmap.lookup_isSome, ← h.holds.get hkey, ← Q.removed, remove]
  split
  · rename_i hsome
    exact iff_of_true rfl hsome
  · rename_i hnone
    exact iff_of_false Bool.false_ne_true hnone

theorem Mirrors.remove (hkey : Function.Involutive key) (h : Mirrors key t m) (pattern : String) :
    Mirrors key (t.remove (key (utf8 pattern))).1 (m.erase pattern) := by
  have htrie : (t.remove (key (utf8 pattern))).1.trie =
      (Q.remove t.trie (key (utf8 pattern))).1 := by
    rw [QpTrie.remove]
    split <;> rfl
  refine ⟨fun b => ?_, ?_⟩
  · rw [htrie, Q.get_remove, h.holds b]
    by_cases hb : b = key (utf8 pattern)
    · rw [if_pos hb, hb, hkey, ofUtf8?_utf8, Option.bind_some, lookup_erase, if_pos rfl]
    · rw [if_neg hb]
      cases hdecode : ofUtf8? (key b) with
      | none => rfl
      | some p =>
        have hp : p ≠ pattern := by
          rintro rfl
          exact hb (by rw [← ofUtf8?_eq_some.mp hdecode, hkey])
        rw [Option.bind_some, Option.bind_some, lookup_erase, if_neg hp]
  · have htold := h.removed hkey pattern
    rw [Finmap.keys_erase, QpTrie.remove] at *
    split at htold
    · rename_i hsome
      have hmem := htold.mp rfl
      rw [if_pos hsome, Finset.card_erase_of_mem (Finmap.mem_keys.mpr hmem), ← h.size]
    · rename_i hnone
      have hnot : pattern ∉ m := fun hmem => Bool.false_ne_true (htold.mpr hmem)
      rw [if_neg hnone, Finset.erase_eq_of_notMem (mt Finmap.mem_keys.mp hnot), ← h.size]

theorem mirrors_run (hkey : Function.Involutive key) (ops : List TrieOp) :
    Mirrors key (run Q key ops) (stored ops) := by
  induction ops using List.reverseRecOn with
  | nil => exact mirrors_new key
  | append_singleton ops op ih =>
    rw [stored_concat, run, List.foldl_concat]
    cases op with
    | insert pattern value => exact ih.insert hkey pattern value
    | remove pattern => exact ih.remove hkey pattern

/-! ## What is told of it

A search looks every beginning of the text up but the empty one, the shortest first. All of them
are looked up, so no pattern is missed for its length.
-/

theorem Mirrors.mem_patterns (hkey : Function.Involutive key) (h : Mirrors key t m) {p : String} :
    p ∈ t.getAllPatterns key ↔ p ∈ m := by
  rw [getAllPatterns, List.mem_filterMap, ← Finmap.lookup_isSome, ← h.holds.get hkey, ← Q.mem_keys]
  constructor
  · rintro ⟨b, hb, hdecode⟩
    rw [← ofUtf8?_eq_some.mp hdecode, hkey]
    exact hb
  · exact fun hp => ⟨_, hp, by rw [hkey, ofUtf8?_utf8]⟩

theorem contains_iff (t : QpTrie Q.toQpMap) (bytes : Bytes) :
    t.contains bytes = true ↔ t.search bytes ≠ [] := by
  rw [contains_eq, Bool.not_eq_true', List.isEmpty_eq_false_iff]

theorem nodup_patterns (hkey : Function.Involutive key) (t : QpTrie Q.toQpMap) :
    (t.getAllPatterns key).Nodup := by
  refine List.Nodup.filterMap ?_ (Q.nodup_keys t.trie)
  intro b b' p hb hb'
  exact hkey.injective ((ofUtf8?_eq_some.mp hb).trans (ofUtf8?_eq_some.mp hb').symm)

theorem Mirrors.search (hd : d.Bytewise key) (h : Mirrors key t m) (text : String) :
    t.search (key (utf8 text)) = (d.parts text).tail.filterMap fun p => m.lookup p :=
  h.holds.search hd.nil (by rw [hd.inits, ← parts_eq_cons])

theorem Mirrors.actsAs (hd : d.Bytewise key) (h : Mirrors key t m) :
    ActsAs (t.getAllPatterns key) t.size (fun text => t.search (key (utf8 text))) d.parts m := by
  refine ⟨nodup_patterns hd.involutive t, fun p => h.mem_patterns hd.involutive, h.size, ?_⟩
  intro text
  rw [filter_parts, h.search hd]

/-- A trie by bytes is the finite map of its operations, whatever they are. -/
theorem isFiniteMap (hd : d.Bytewise key) (ops : List TrieOp) :
    IsFiniteMap (run Q key) (fun _ => getAllPatterns key) QpTrie.size
      (fun t text => t.search (key (utf8 text))) (fun p t => t.remove (key (utf8 p))) d.parts ops :=
  ⟨fun _ => (mirrors_run hd.involutive ops).actsAs hd,
    (mirrors_run hd.involutive ops).removed hd.involutive,
    fun p _ => ((mirrors_run hd.involutive ops).remove hd.involutive p).actsAs hd⟩

end QpTrie

/-! ## The two kinds of tries

Where the built-in tries are exact too, both kinds tell the same.
-/

/-- What can be told of a trie: its patterns, their number, the values that a search finds, whether
a text has a pattern, and whether a removal takes one away. -/
structure Observed where
  patterns : List String
  size : Nat
  search : String → List String
  contains : String → Bool
  removes : String → Bool

/-- The patterns come in any order. -/
structure Observed.Same (o o' : Observed) : Prop where
  patterns : o.patterns.Perm o'.patterns
  size : o.size = o'.size
  search : ∀ text, o.search text = o'.search text
  contains : ∀ text, o.contains text = o'.contains text
  removes : ∀ pattern, o.removes pattern = o'.removes pattern

def Trie.observed (d : Direction) (visit : Visit) (t : Trie) : Observed where
  patterns := t.getAllPatterns d visit
  size := t.size
  search := t.search d
  contains := t.contains d
  removes pattern := (t.remove d pattern).2

def QpTrie.observed {Q : QpCrate} (key : Bytes → Bytes) (t : QpTrie Q.toQpMap) : Observed where
  patterns := t.getAllPatterns key
  size := t.size
  search text := t.search (key (utf8 text))
  contains text := t.contains (key (utf8 text))
  removes pattern := (t.remove (key (utf8 pattern))).2

section
variable {Q : QpCrate} {d : Direction} {key : Bytes → Bytes} {visit : Visit} {ops : List TrieOp}

/-- Told the same, the built-in trie acts as the map, since the other one does. -/
theorem condition_of_same (hd : d.Bytewise key)
    (h : ((Trie.run d ops).observed d visit).Same ((QpTrie.run Q key ops).observed key)) :
    ∀ pattern value, .insert pattern value ∈ ops → maxTrieDepth < pattern.utf8ByteSize →
      pattern.length ≤ maxTrieDepth ∧ pattern ∉ stored ops := by
  intro p v hops hlong
  have hrun := represents_run d ops
  have hmirrors := QpTrie.mirrors_run (Q := Q) hd.involutive ops
  have hpatterns (p : String) : p ∈ stored ops ↔ p ∈ kept ops ∧ p.utf8ByteSize ≤ maxTrieDepth := by
    rw [← hmirrors.mem_patterns hd.involutive, ← hrun.mem_patterns visit]
    exact h.patterns.mem_iff.symm
  have hkeys : (stored ops).keys = (kept ops).keys := by
    refine Finset.eq_of_subset_of_card_le (fun q hq => ?_) ?_
    · exact Finmap.mem_keys.mpr ((hpatterns q).mp (Finmap.mem_keys.mp hq)).1
    · rw [← hrun.size, ← hmirrors.size]
      exact h.size.le
  have hgone : p ∉ stored ops := fun hp => absurd ((hpatterns p).mp hp).2 (Nat.not_le.mpr hlong)
  refine ⟨Nat.not_lt.mp fun hdeep => hgone ?_, hgone⟩
  rw [← Finmap.mem_keys, hkeys, Finmap.mem_keys]
  exact kept_of_inserted hdeep hops

theorem same_iff (hd : d.Bytewise key) :
    ((Trie.run d ops).observed d visit).Same ((QpTrie.run Q key ops).observed key) ↔
      "" ∉ stored ops ∧
      ∀ pattern value, .insert pattern value ∈ ops → maxTrieDepth < pattern.utf8ByteSize →
        pattern.length ≤ maxTrieDepth ∧ pattern ∉ stored ops := by
  have hrun := represents_run d ops
  have hmirrors := QpTrie.mirrors_run (Q := Q) hd.involutive ops
  constructor
  · intro h
    have hlong := condition_of_same hd h
    refine ⟨fun hempty => ?_, hlong⟩
    rw [(kept_of_condition hlong).1] at hrun
    have hbuiltin := (hrun.contains "").mpr (.inr ⟨rfl, hempty⟩)
    have hqp : (QpTrie.run Q key ops).contains (key (utf8 "")) = true :=
      (h.contains "").symm.trans hbuiltin
    have hnil : key (utf8 "") = [] := hd.nil
    rw [hnil] at hqp
    exact absurd hqp Bool.false_ne_true
  · rintro ⟨hempty, hlong⟩
    obtain ⟨hkept, hlen⟩ := kept_of_condition hlong
    rw [hkept] at hrun
    have hsearch (text : String) : (Trie.run d ops).search d text =
        (QpTrie.run Q key ops).search (key (utf8 text)) := by
      rw [hrun.search, hmirrors.search hd]
    refine ⟨?_, hrun.size.trans hmirrors.size.symm, hsearch, fun text => ?_, fun p => ?_⟩
    · refine (List.perm_ext_iff_of_nodup (hrun.nodup_patterns visit)
        (QpTrie.nodup_patterns hd.involutive _)).mpr fun p => ?_
      rw [hrun.mem_patterns, hmirrors.mem_patterns hd.involutive, and_iff_left_of_imp (hlen p)]
    · have hqp := QpTrie.contains_iff (QpTrie.run Q key ops) (key (utf8 text))
      rw [← hsearch] at hqp
      exact Bool.eq_iff_iff.mpr
        ((hrun.contains text).trans ((or_iff_left fun h => hempty h.2).trans hqp.symm))
    · refine Bool.eq_iff_iff.mpr
        ((hrun.removed p).trans (.trans ?_ (hmirrors.removed hd.involutive p).symm))
      exact and_iff_right_of_imp fun hp => (length_le_byteSize p).trans (hlen p hp)

end

namespace PrefixTrie

def observed (visit : Visit) (t : PrefixTrie) : Observed := Trie.observed .forward visit t

end PrefixTrie

namespace SuffixTrie

def observed (visit : Visit) (t : SuffixTrie) : Observed := Trie.observed .backward visit t

end SuffixTrie

namespace QpTrie

variable {Q : QpCrate}

def observedPrefix (t : QpTrie Q.toQpMap) : Observed := t.observed id

def observedSuffix (t : QpTrie Q.toQpMap) : Observed := t.observed List.reverse

end QpTrie

/-- **The tries by bytes are exact.** After any operations each is the finite map of these, and has
a pattern for a text exactly if it finds a value for it; and the built-in trie tells the same if
and only if no empty pattern is stored and every pattern of more than `maxTrieDepth` bytes that was
inserted could be removed, and was.

The two implementations stand for one another behind a build option. What is compared is therefore
what a program can see of them, and the condition says for which programs the option matters. -/
theorem qpTries_exact (Q : QpCrate) (visit : Visit) (ops : List TrieOp) :
    (IsFiniteMap (QpTrie.runPrefix Q) (fun _ => QpTrie.getAllPrefixPatterns) QpTrie.size
        QpTrie.searchPrefix QpTrie.removePrefix prefixesOf ops ∧
      ∀ text, (QpTrie.runPrefix Q ops).containsPrefix text = true ↔
        (QpTrie.runPrefix Q ops).searchPrefix text ≠ []) ∧
    (IsFiniteMap (QpTrie.runSuffix Q) (fun _ => QpTrie.getAllSuffixPatterns) QpTrie.size
        QpTrie.searchSuffix QpTrie.removeSuffix suffixesOf ops ∧
      ∀ text, (QpTrie.runSuffix Q ops).containsSuffix text = true ↔
        (QpTrie.runSuffix Q ops).searchSuffix text ≠ []) ∧
    (((PrefixTrie.run ops).observed visit).Same (QpTrie.runPrefix Q ops).observedPrefix ↔
      "" ∉ stored ops ∧ ∀ pattern value, .insert pattern value ∈ ops →
        maxTrieDepth < pattern.utf8ByteSize →
          pattern.length ≤ maxTrieDepth ∧ pattern ∉ stored ops) ∧
    (((SuffixTrie.run ops).observed visit).Same (QpTrie.runSuffix Q ops).observedSuffix ↔
      "" ∉ stored ops ∧ ∀ pattern value, .insert pattern value ∈ ops →
        maxTrieDepth < pattern.utf8ByteSize →
          pattern.length ≤ maxTrieDepth ∧ pattern ∉ stored ops) := by
  have hsuffix := QpTrie.isFiniteMap (Q := Q) bytewise_backward ops
  rw [parts_backward] at hsuffix
  exact ⟨⟨QpTrie.isFiniteMap bytewise_forward ops, fun _ => QpTrie.contains_iff _ _⟩,
    ⟨hsuffix, fun _ => QpTrie.contains_iff _ _⟩,
    same_iff bytewise_forward, same_iff bytewise_backward⟩

end Cat
