import Cat.Host
import Cat.Lib.Utf8Pieces
import Cat.Uri.TrieRuns

/-!
# The two URI matchers

A build takes `UriMatcher` from `trie.rs` or from `trie_qp.rs`. Both have the same fields and
code around a pair of tries (`TrieBackend`): the built-in ones go by characters, the other ones
by bytes and keep them in a map of the `qp_trie` crate. `matchers_agree` says that it cannot be
told which one is there.

The matcher is written once, over a backend, since its code in the two files is the same.
Backends that cannot be told apart are in a relation that every operation keeps and under which
every answer is the same, and the matchers over them inherit it, whatever is added and whichever
patterns are refused.

That the two backends of the crate are in such a relation is where characters and bytes come in:
a pattern is a prefix of a text by its characters exactly if it is one by its bytes, and
likewise at the end, because a text's UTF-8 can be cut only between characters
(`Lib/Utf8Pieces`).
-/

set_option autoImplicit false

open Cbor

namespace Cat

inductive UriPattern where
  | exact (uri : String)
  | pre (pattern : String)
  | suf (pattern : String)
  | regex (pattern : String)
  | hash (hex : String)

structure UriMatcherLimits where
  maxRegexPatternLength : Nat := 4 * 1024
  maxRegexPatterns : Nat := 100

/-! ## Tries by bytes -/

/-- The crate's map from byte strings to values, and what is relied on. -/
structure QpMap where
  Map : Type
  new : Map
  get : Map → Bytes → Option String
  containsKey : Map → Bytes → Bool
  insert : Map → Bytes → String → Map
  get_new : ∀ key, get new key = none
  get_insert : ∀ map key value k,
    get (insert map key value) k = if k = key then some value else get map k
  containsKey_eq : ∀ map key, containsKey map key = (get map key).isSome

/-- The crate's contract can be kept: a list of entries does. -/
def QpMap.reference : QpMap where
  Map := AList fun _ : Bytes => String
  new := ∅
  get map key := map.lookup key
  containsKey map key := (map.lookup key).isSome
  insert map key value := map.insert key value
  get_new _ := rfl
  get_insert map key value k := by
    by_cases hk : k = key
    · rw [if_pos hk, hk, AList.lookup_insert]
    · rw [if_neg hk, AList.lookup_insert_ne hk]
  containsKey_eq _ _ := rfl

structure QpTrie (Q : QpMap) where
  trie : Q.Map := Q.new
  size : Nat := 0

namespace QpTrie

variable {Q : QpMap}

def insert (key : Bytes) (value : String) (t : QpTrie Q) : QpTrie Q :=
  ⟨Q.insert t.trie key value, if Q.containsKey t.trie key then t.size else t.size + 1⟩

/-- The loop over `1..=bytes.len()`. -/
def search (t : QpTrie Q) (bytes : Bytes) : List String :=
  (List.range' 1 bytes.length).filterMap fun i => Q.get t.trie (bytes.take i)

def contains (t : QpTrie Q) (bytes : Bytes) : Bool :=
  (List.range' 1 bytes.length).any fun i => Q.containsKey t.trie (bytes.take i)

def insertPrefix (pattern value : String) (t : QpTrie Q) : QpTrie Q :=
  t.insert (utf8 pattern) value

def searchPrefix (t : QpTrie Q) (text : String) : List String := t.search (utf8 text)

def containsPrefix (t : QpTrie Q) (text : String) : Bool := t.contains (utf8 text)

def insertSuffix (pattern value : String) (t : QpTrie Q) : QpTrie Q :=
  t.insert (utf8 pattern).reverse value

def searchSuffix (t : QpTrie Q) (text : String) : List String := t.search (utf8 text).reverse

def containsSuffix (t : QpTrie Q) (text : String) : Bool := t.contains (utf8 text).reverse

end QpTrie

/-! ## Matchers -/

/-- What a matcher does with its tries. `hitsPrefix` and `hitsSuffix` are the tests in
`matches`. -/
structure TrieBackend (τ : Type) where
  new : τ
  insertPrefix : String → String → τ → τ
  insertSuffix : String → String → τ → τ
  searchPrefix : τ → String → List String
  searchSuffix : τ → String → List String
  hitsPrefix : τ → String → Bool
  hitsSuffix : τ → String → Bool

def builtinBackend : TrieBackend Trie where
  new := {}
  insertPrefix := PrefixTrie.insert
  insertSuffix := SuffixTrie.insert
  searchPrefix := PrefixTrie.searchPrefix
  searchSuffix := SuffixTrie.searchSuffix
  hitsPrefix t uri := !(PrefixTrie.searchPrefix t uri).isEmpty
  hitsSuffix t uri := !(SuffixTrie.searchSuffix t uri).isEmpty

def qpBackend (Q : QpMap) : TrieBackend (QpTrie Q) where
  new := {}
  insertPrefix := QpTrie.insertPrefix
  insertSuffix := QpTrie.insertSuffix
  searchPrefix := QpTrie.searchPrefix
  searchSuffix := QpTrie.searchSuffix
  hitsPrefix := QpTrie.containsPrefix
  hitsSuffix := QpTrie.containsSuffix

/-- The `regex` and `hex` crates. -/
structure PatternLibraries where
  /-- A regular expression within the size limits. -/
  regex : String → Except String (String → Bool)
  hexDecode : String → Except String Bytes

structure UriMatcher (τ : Type) where
  prefixTrie : τ
  suffixTrie : τ
  exactPatterns : AList fun _ : String => String := ∅
  regexPatterns : List ((String → Bool) × String) := []
  hashPatterns : AList fun _ : Bytes => String := ∅
  limits : UriMatcherLimits

namespace UriMatcher

variable {τ : Type} (B : TrieBackend τ) (H : Host) (L : PatternLibraries)

def withLimits (limits : UriMatcherLimits) : UriMatcher τ :=
  { prefixTrie := B.new, suffixTrie := B.new, limits }

def addPattern (m : UriMatcher τ) : UriPattern → Except String (UriMatcher τ)
  | .exact uri => .ok { m with exactPatterns := m.exactPatterns.insert uri uri }
  | .pre pattern => .ok { m with prefixTrie := B.insertPrefix pattern pattern m.prefixTrie }
  | .suf pattern => .ok { m with suffixTrie := B.insertSuffix pattern pattern m.suffixTrie }
  | .regex pattern =>
    if m.regexPatterns.length ≥ m.limits.maxRegexPatterns then
      .error (s!"Too many regex patterns: {m.regexPatterns.length + 1} " ++
        s!"(max {m.limits.maxRegexPatterns})")
    else if (utf8 pattern).length > m.limits.maxRegexPatternLength then
      .error (s!"Regex pattern too long: {(utf8 pattern).length} bytes " ++
        s!"(max {m.limits.maxRegexPatternLength} bytes)")
    else
      (L.regex pattern).map fun regex =>
        { m with regexPatterns := m.regexPatterns ++ [(regex, pattern)] }
  | .hash hex =>
    match L.hexDecode hex with
    | .error e => .error s!"Invalid hash hex: {e}"
    | .ok bytes =>
      if bytes.length ≠ 32 then .error "Hash must be 32 bytes (SHA-256)"
      else .ok { m with hashPatterns := m.hashPatterns.insert bytes hex }

/-- SHA-256 has 32 bytes, so its conversion to an array does not fail. -/
def matchesUri (m : UriMatcher τ) (uri : String) : Bool :=
  if (m.exactPatterns.lookup uri).isSome then true
  else if B.hitsPrefix m.prefixTrie uri then true
  else if B.hitsSuffix m.suffixTrie uri then true
  else if m.regexPatterns.any fun p => p.1 uri then true
  else (m.hashPatterns.lookup (H.sha256 (utf8 uri))).isSome

def getMatchingPatterns (m : UriMatcher τ) (uri : String) : List String :=
  (m.exactPatterns.lookup uri).toList.map (fun p => s!"exact:{p}") ++
    (B.searchPrefix m.prefixTrie uri).map (fun p => s!"prefix:{p}") ++
    (B.searchSuffix m.suffixTrie uri).map (fun p => s!"suffix:{p}") ++
    (m.regexPatterns.filter fun p => p.1 uri).map (fun p => s!"regex:{p.2}") ++
    (m.hashPatterns.lookup (H.sha256 (utf8 uri))).toList.map (fun p => s!"hash:{p}")

/-- A pattern that is refused leaves the matcher as it was. -/
def addAll (m : UriMatcher τ) (patterns : List UriPattern) : UriMatcher τ :=
  patterns.foldl (fun m pattern => ((m.addPattern B L pattern).toOption).getD m) m

end UriMatcher

/-! ## Backends that cannot be told apart -/

/-- The test in `matches` is whether the search finds something. -/
structure TrieBackend.Honest {τ : Type} (B : TrieBackend τ) : Prop where
  hitsPrefix : ∀ t text, B.hitsPrefix t text = !(B.searchPrefix t text).isEmpty
  hitsSuffix : ∀ t text, B.hitsSuffix t text = !(B.searchSuffix t text).isEmpty

/-- Tries that insertions keep alike, and that find the same values. -/
structure AlikeTries {τ σ : Type} (B : TrieBackend τ) (C : TrieBackend σ) where
  Pre : τ → σ → Prop
  Suf : τ → σ → Prop
  new_pre : Pre B.new C.new
  new_suf : Suf B.new C.new
  insert_pre : ∀ {t u}, Pre t u → ∀ pattern value,
    Pre (B.insertPrefix pattern value t) (C.insertPrefix pattern value u)
  insert_suf : ∀ {t u}, Suf t u → ∀ pattern value,
    Suf (B.insertSuffix pattern value t) (C.insertSuffix pattern value u)
  search_pre : ∀ {t u}, Pre t u → ∀ text, B.searchPrefix t text = C.searchPrefix u text
  search_suf : ∀ {t u}, Suf t u → ∀ text, B.searchSuffix t text = C.searchSuffix u text

section
variable {τ σ : Type} {B : TrieBackend τ} {C : TrieBackend σ} {H : Host} {L : PatternLibraries}
  {m : UriMatcher τ} {m' : UriMatcher σ}

/-- **A URI matches exactly if it has a label.** -/
theorem matchesUri_eq (h : B.Honest) (m : UriMatcher τ) (uri : String) :
    m.matchesUri B H uri = !(m.getMatchingPatterns B H uri).isEmpty := by
  have hlookup : ∀ o : Option String, o.toList.isEmpty = !o.isSome := fun o => by cases o <;> rfl
  have happend : ∀ l l' : List String, (l ++ l').isEmpty = (l.isEmpty && l'.isEmpty) :=
    fun l l' => by cases l <;> rfl
  have hregex : (m.regexPatterns.filter fun p => p.1 uri).isEmpty =
      !m.regexPatterns.any fun p => p.1 uri := by
    rw [Bool.eq_iff_iff, List.isEmpty_iff, List.filter_eq_nil_iff, Bool.not_eq_true',
      List.any_eq_false]
  unfold UriMatcher.matchesUri UriMatcher.getMatchingPatterns
  rw [h.hitsPrefix, h.hitsSuffix]
  simp only [happend, List.isEmpty_map, hlookup, hregex, Bool.not_and, Bool.not_not,
    Bool.if_true_left, Bool.decide_eq_true, Bool.or_assoc]

/-- Matchers that differ in nothing but their tries, and these are alike. -/
structure UriMatcher.Alike (A : AlikeTries B C) (m : UriMatcher τ) (m' : UriMatcher σ) : Prop where
  pre : A.Pre m.prefixTrie m'.prefixTrie
  suf : A.Suf m.suffixTrie m'.suffixTrie
  exactPatterns : m.exactPatterns = m'.exactPatterns
  regexPatterns : m.regexPatterns = m'.regexPatterns
  hashPatterns : m.hashPatterns = m'.hashPatterns
  limits : m.limits = m'.limits

theorem UriMatcher.Alike.labels {A : AlikeTries B C} (h : m.Alike A m') (uri : String) :
    m.getMatchingPatterns B H uri = m'.getMatchingPatterns C H uri := by
  unfold getMatchingPatterns
  rw [h.exactPatterns, h.regexPatterns, h.hashPatterns, A.search_pre h.pre, A.search_suf h.suf]

/-- A pattern is refused by both, with the same error, or taken by both. -/
theorem UriMatcher.Alike.step {A : AlikeTries B C} (h : m.Alike A m') (pattern : UriPattern) :
    (∃ e, m.addPattern B L pattern = .error e ∧ m'.addPattern C L pattern = .error e) ∨
      ∃ n n', m.addPattern B L pattern = .ok n ∧ m'.addPattern C L pattern = .ok n' ∧
        n.Alike A n' := by
  cases pattern with
  | exact uri =>
    exact .inr ⟨_, _, rfl, rfl, h.pre, h.suf, congrArg (AList.insert uri uri) h.exactPatterns,
      h.regexPatterns,
      h.hashPatterns, h.limits⟩
  | pre pattern =>
    exact .inr ⟨_, _, rfl, rfl, A.insert_pre h.pre _ _, h.suf, h.exactPatterns, h.regexPatterns,
      h.hashPatterns, h.limits⟩
  | suf pattern =>
    exact .inr ⟨_, _, rfl, rfl, h.pre, A.insert_suf h.suf _ _, h.exactPatterns, h.regexPatterns,
      h.hashPatterns, h.limits⟩
  | regex pattern =>
    simp only [UriMatcher.addPattern, h.regexPatterns, h.limits]
    -- The limits are looked at before the pattern is compiled, on both sides.
    by_cases hmany : m'.regexPatterns.length ≥ m'.limits.maxRegexPatterns
    · left
      rw [if_pos hmany, if_pos hmany]
      exact ⟨_, rfl, rfl⟩
    rw [if_neg hmany, if_neg hmany]
    by_cases hlong : (utf8 pattern).length > m'.limits.maxRegexPatternLength
    · left
      rw [if_pos hlong, if_pos hlong]
      exact ⟨_, rfl, rfl⟩
    rw [if_neg hlong, if_neg hlong]
    cases L.regex pattern with
    | error e => exact .inl ⟨e, rfl, rfl⟩
    | ok regex =>
      exact .inr ⟨_, _, rfl, rfl, h.pre, h.suf, h.exactPatterns, rfl, h.hashPatterns, rfl⟩
  | hash hex =>
    simp only [UriMatcher.addPattern]
    cases L.hexDecode hex with
    | error e => exact .inl ⟨_, rfl, rfl⟩
    | ok bytes =>
      by_cases hlen : bytes.length ≠ 32
      · left
        simp only [if_pos hlen]
        exact ⟨_, rfl, rfl⟩
      · right
        simp only [if_neg hlen]
        exact ⟨_, _, rfl, rfl, h.pre, h.suf, h.exactPatterns, h.regexPatterns,
          congrArg (AList.insert bytes hex) h.hashPatterns, h.limits⟩

theorem UriMatcher.Alike.run {A : AlikeTries B C} (patterns : List UriPattern)
    (h : m.Alike A m') : (m.addAll B L patterns).Alike A (m'.addAll C L patterns) := by
  induction patterns generalizing m m' with
  | nil => exact h
  | cons pattern patterns ih =>
    rcases h.step (L := L) pattern with ⟨e, hm, hm'⟩ | ⟨n, n', hm, hm', hn⟩
    · rw [addAll, addAll, List.foldl_cons, List.foldl_cons, hm, hm']
      exact ih h
    · rw [addAll, addAll, List.foldl_cons, List.foldl_cons, hm, hm']
      exact ih hn

end

/-! ## Bytes and characters -/

theorem inits_eq_map_take {α : Type} (l : List α) :
    l.inits = (List.range (l.length + 1)).map l.take := by
  apply List.ext_getElem
  · simp
  · intro i hi hi'
    rw [List.getElem_inits, List.getElem_map, List.getElem_range]

namespace QpTrie

variable {Q : QpMap} {t : QpTrie Q} {m : PatternMap} {key : Bytes → Bytes}

theorem search_eq (t : QpTrie Q) (bytes : Bytes) :
    t.search bytes = bytes.inits.tail.filterMap (Q.get t.trie) := by
  rw [inits_eq_map_take, List.range_succ_eq_map, List.map_cons, List.tail_cons, List.filterMap_map,
    List.filterMap_map, search, List.range'_eq_map_range, List.filterMap_map]
  congr 1
  funext i
  rw [Function.comp, Function.comp, Function.comp, Nat.succ_eq_one_add]

theorem contains_eq (t : QpTrie Q) (bytes : Bytes) :
    t.contains bytes = !(t.search bytes).isEmpty := by
  rw [contains, search]
  induction List.range' 1 bytes.length with
  | nil => rfl
  | cons i is ih =>
    rw [List.any_cons, ih, Q.containsKey_eq, List.filterMap_cons]
    cases Q.get t.trie (bytes.take i) with
    | none => rfl
    | some value => rfl

/-- The trie holds the map: under the UTF-8 of a pattern, read by `key`, its value, and nothing
elsewhere. -/
def Holds (key : Bytes → Bytes) (t : QpTrie Q) (m : PatternMap) : Prop :=
  ∀ b, Q.get t.trie b = (ofUtf8? (key b)).bind fun p => m.lookup p

theorem holds_new (key : Bytes → Bytes) : Holds key ({} : QpTrie Q) ∅ := by
  intro b
  rw [Q.get_new]
  cases ofUtf8? (key b) with
  | none => rfl
  | some p => rfl

theorem Holds.insert (hkey : Function.Involutive key) (h : Holds key t m) (pattern value : String) :
    Holds key (t.insert (key (utf8 pattern)) value) (m.insert pattern value) := by
  intro b
  rw [QpTrie.insert, Q.get_insert, h b]
  by_cases hb : b = key (utf8 pattern)
  · rw [if_pos hb, hb, hkey, ofUtf8?_utf8, Option.bind_some, lookup_insert, if_pos rfl]
  · rw [if_neg hb]
    cases hdecode : ofUtf8? (key b) with
    | none => rfl
    | some p =>
      have hp : p ≠ pattern := by
        rintro rfl
        exact hb (by rw [← ofUtf8?_eq_some.mp hdecode, hkey])
      rw [Option.bind_some, Option.bind_some, lookup_insert, if_neg hp]

/-- What a search finds, where `parts` are the texts among the beginnings of the bytes. -/
theorem Holds.search (h : Holds key t m) {bytes : Bytes} {parts : List String}
    (hkey : key [] = [])
    (hparts : bytes.inits.filterMap (fun b => ofUtf8? (key b)) = "" :: parts) :
    t.search bytes = parts.filterMap fun p => m.lookup p := by
  have hget : Q.get t.trie = fun b => (ofUtf8? (key b)).bind fun p => m.lookup p := funext h
  rw [inits_eq_cons, List.filterMap_cons, hkey, ofUtf8?_nil] at hparts
  rw [search_eq, hget, ← List.tail_eq_of_cons_eq hparts, List.filterMap_filterMap]

end QpTrie

theorem builtinBackend_honest : builtinBackend.Honest := ⟨fun _ _ => rfl, fun _ _ => rfl⟩

theorem qpBackend_honest (Q : QpMap) : (qpBackend Q).Honest :=
  ⟨fun t _ => t.contains_eq _, fun t _ => t.contains_eq _⟩

/-- Tries of both kinds that hold the same map. -/
def alikeTries (Q : QpMap) : AlikeTries builtinBackend (qpBackend Q) where
  Pre t u := ∃ m, Represents .forward t m ∧ QpTrie.Holds id u m
  Suf t u := ∃ m, Represents .backward t m ∧ QpTrie.Holds List.reverse u m
  new_pre := ⟨∅, represents_empty _, QpTrie.holds_new _⟩
  new_suf := ⟨∅, represents_empty _, QpTrie.holds_new _⟩
  insert_pre h pattern value := by
    obtain ⟨m, hbuiltin, hqp⟩ := h
    exact ⟨_, hbuiltin.insert pattern value, hqp.insert (fun _ => rfl) pattern value⟩
  insert_suf h pattern value := by
    obtain ⟨m, hbuiltin, hqp⟩ := h
    exact ⟨_, hbuiltin.insert pattern value, hqp.insert List.reverse_reverse pattern value⟩
  search_pre h text := by
    obtain ⟨m, hbuiltin, hqp⟩ := h
    refine (hbuiltin.search text).trans (hqp.search rfl ?_).symm
    rw [← parts_eq_cons]
    exact filterMap_inits text
  search_suf h text := by
    obtain ⟨m, hbuiltin, hqp⟩ := h
    refine (hbuiltin.search text).trans (hqp.search rfl ?_).symm
    rw [← parts_eq_cons, parts_backward, suffixesOf, ← filterMap_tails, List.inits_reverse,
      List.filterMap_reverse, List.filterMap_map]
    congr 2
    funext b
    rw [Function.comp, List.reverse_reverse]

/-- **Whatever patterns are added, and whichever are refused, the two matchers agree** on every URI:
on whether it matches and on its labels, and there is a label exactly if it matches.

The two differ in their tries alone, so it is enough to relate the tries and to see that adding a
pattern asks nothing of them: the limits are counted outside, and what is refused on one side is
refused on the other. -/
theorem matchers_agree (Q : QpMap) (H : Host) (L : PatternLibraries) (limits : UriMatcherLimits)
    (patterns : List UriPattern) (uri : String) :
    let builtin := (UriMatcher.withLimits builtinBackend limits).addAll builtinBackend L patterns
    let qp := (UriMatcher.withLimits (qpBackend Q) limits).addAll (qpBackend Q) L patterns
    builtin.matchesUri builtinBackend H uri = qp.matchesUri (qpBackend Q) H uri ∧
      builtin.getMatchingPatterns builtinBackend H uri =
        qp.getMatchingPatterns (qpBackend Q) H uri ∧
      (builtin.getMatchingPatterns builtinBackend H uri ≠ [] ↔
        builtin.matchesUri builtinBackend H uri = true) := by
  intro builtin qp
  have halike : builtin.Alike (alikeTries Q) qp := UriMatcher.Alike.run patterns
    ⟨(alikeTries Q).new_pre, (alikeTries Q).new_suf, rfl, rfl, rfl, rfl⟩
  have hlabels := halike.labels (H := H) uri
  rw [matchesUri_eq builtinBackend_honest, matchesUri_eq (qpBackend_honest Q), hlabels]
  refine ⟨rfl, rfl, ?_⟩
  rw [Bool.not_eq_true', List.isEmpty_eq_false_iff]

end Cat
