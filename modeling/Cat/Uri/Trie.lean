import Mathlib.Data.Finmap
import Mathlib.Algebra.BigOperators.Group.List.Basic
import Mathlib.Algebra.GroupWithZero.Nat

/-!
# Tries of patterns

A node has its children by the next character. `PrefixTrie` walks along the characters of a
pattern, `SuffixTrie` along the reversed ones; everything else is the same code twice, and here
it is one definition with a `Direction`.

A node's hash map is the list of its entries, each key once. The order in which it is iterated
over is not fixed by the source, and `Visit` stands for any. Nothing bounds the length of a
pattern that is inserted, yet `remove` and `get_all_patterns` stop at `MAX_TRIE_DEPTH`.

Insertion makes the nodes it needs and removal drops those that lead nowhere any more, so the
tree that stands after some operations depends on their order, and equality of trees would be
the wrong thing to compare. What a trie means is which patterns it holds with which labels
(`TrieNodes`), and the operations are described by what they do to that.
-/

set_option autoImplicit false

namespace Cat

/-- The bound of removal and of listing. Insertion has none. -/
def maxTrieDepth : Nat := 1000

/-- A terminal node is where a pattern ends, and has the pattern's value. -/
structure TrieNode where
  children : List (Σ _ : Char, TrieNode) := []
  isTerminal : Bool := false
  value : Option String := none

namespace TrieNode

/-- A pattern ends here. -/
def ending (node : TrieNode) (value : String) : TrieNode :=
  { node with isTerminal := true, value := some value }

/-- No pattern ends here. -/
def passing (node : TrieNode) : TrieNode := { node with isTerminal := false, value := none }

def withChildren (node : TrieNode) (children : List (Σ _ : Char, TrieNode)) : TrieNode :=
  { node with children := children }

/-- The loop of `insert`, and whether no pattern ended there before. -/
def insert (value : String) : List Char → TrieNode → TrieNode × Bool
  | [], node => (node.ending value, !node.isTerminal)
  | ch :: chars, node =>
    let next := ((node.children.dlookup ch).getD {}).insert value chars
    (node.withChildren (node.children.kinsert ch next.1), next.2)

/-- The values met on the way. -/
def search : List Char → TrieNode → List String
  | [], _ => []
  | ch :: chars, node =>
    match node.children.dlookup ch with
    | some next => (if next.isTerminal then next.value.toList else []) ++ search chars next
    | none => []

def contains : List Char → TrieNode → Bool
  | [], node => node.isTerminal
  | ch :: chars, node =>
    match node.children.dlookup ch with
    | some next => if next.isTerminal then true else contains chars next
    | none => false

/-- `chars` is what is left of the pattern at `index`. -/
def removeRecursive : List Char → Nat → TrieNode → TrieNode × Bool
  | [], index, node =>
    if maxTrieDepth < index then (node, false)
    else if node.isTerminal then (node.passing, true)
    else (node, false)
  | ch :: chars, index, node =>
    if maxTrieDepth < index then (node, false)
    else
      match node.children.dlookup ch with
      | some child =>
        let next := removeRecursive chars (index + 1) child
        if next.2 then
          if !next.1.isTerminal && next.1.children.isEmpty then
            (node.withChildren (node.children.kerase ch), true)
          else (node.withChildren ((node.children.kerase ch).kinsert ch next.1), true)
        else (node.withChildren ((node.children.kerase ch).kinsert ch next.1), false)
      | none => (node, false)

end TrieNode

/-- An order of iteration over the children of the node at a path. -/
structure Visit where
  order : List Char → List (Σ _ : Char, TrieNode) → List (Σ _ : Char, TrieNode)
  perm : ∀ path children, (order path children).Perm children

namespace Visit

/-- What is pushed for a node, the last child on top. -/
def pushed (visit : Visit) (node : TrieNode) (path : List Char) : List (TrieNode × List Char) :=
  ((visit.order path node.children).map fun child => (child.2, path ++ [child.1])).reverse

end Visit

theorem sizeOf_children (l : List (Σ _ : Char, TrieNode)) :
    (l.map fun child => sizeOf child.2).sum ≤ sizeOf l := by
  induction l with
  | nil => simp
  | cons child l ih =>
    obtain ⟨ch, node⟩ := child
    simp only [List.map_cons, List.sum_cons, List.cons.sizeOf_spec, Sigma.mk.sizeOf_spec]
    omega

theorem sum_pushed (visit : Visit) (node : TrieNode) (path : List Char) :
    ((visit.pushed node path).map fun e => sizeOf e.1).sum < sizeOf node := by
  have hperm : ((visit.pushed node path).map fun e => sizeOf e.1).Perm
      (node.children.map fun child => sizeOf child.2) := by
    unfold Visit.pushed
    rw [List.map_reverse, List.map_map]
    exact (List.reverse_perm _).trans ((visit.perm path node.children).map _)
  rw [hperm.sum_eq]
  have hle := sizeOf_children node.children
  obtain ⟨children, isTerminal, value⟩ := node
  simp only [TrieNode.mk.sizeOf_spec] at hle ⊢
  omega

/-- The loop of `get_all_patterns`. -/
def collect (visit : Visit) : List (TrieNode × List Char) → List (List Char) → List (List Char)
  | [], patterns => patterns
  | (node, path) :: stack, patterns =>
    if maxTrieDepth < (String.ofList path).utf8ByteSize then collect visit stack patterns
    else
      collect visit (visit.pushed node path ++ stack)
        (if node.isTerminal then patterns ++ [path] else patterns)
termination_by stack => (stack.map fun e => sizeOf e.1).sum
decreasing_by
  · have : 0 < sizeOf node := by
      cases node
      simp only [TrieNode.mk.sizeOf_spec]
      omega
    simp only [List.map_cons, List.sum_cons]
    omega
  · have := sum_pushed visit node path
    simp only [List.map_append, List.map_cons, List.sum_append, List.sum_cons]
    omega

/-! ## Both tries -/

/-- How a trie reads a pattern: `key` is what its loops run along, `whole` puts it together
again. -/
structure Direction where
  key : String → List Char
  whole : List Char → String
  whole_key : ∀ pattern, whole (key pattern) = pattern
  key_whole : ∀ chars, key (whole chars) = chars
  perm : ∀ pattern, (key pattern).Perm pattern.toList

def Direction.forward : Direction where
  key := String.toList
  whole := String.ofList
  whole_key := fun _ => String.ofList_toList
  key_whole := fun _ => String.toList_ofList
  perm := fun _ => .refl _

/-- A suffix is a prefix of the text read backwards. -/
def Direction.backward : Direction where
  key pattern := pattern.toList.reverse
  whole chars := String.ofList chars.reverse
  whole_key pattern := by rw [List.reverse_reverse, String.ofList_toList]
  key_whole chars := by rw [String.toList_ofList, List.reverse_reverse]
  perm pattern := pattern.toList.reverse_perm

/-- The size is kept beside the nodes and counted up and down. -/
structure Trie where
  root : TrieNode := {}
  size : Nat := 0

namespace Trie

def insert (d : Direction) (pattern value : String) (t : Trie) : Trie :=
  let next := t.root.insert value (d.key pattern)
  ⟨next.1, if next.2 then t.size + 1 else t.size⟩

def search (d : Direction) (t : Trie) (text : String) : List String :=
  t.root.search (d.key text)

def contains (d : Direction) (t : Trie) (text : String) : Bool :=
  t.root.contains (d.key text)

def getAllPatterns (d : Direction) (visit : Visit) (t : Trie) : List String :=
  (collect visit [(t.root, [])] []).map d.whole

def remove (d : Direction) (pattern : String) (t : Trie) : Trie × Bool :=
  let next := TrieNode.removeRecursive (d.key pattern) 0 t.root
  (⟨next.1, if next.2 then t.size - 1 else t.size⟩, next.2)

end Trie

abbrev PrefixTrie := Trie

namespace PrefixTrie

def insert (pattern value : String) (t : PrefixTrie) : PrefixTrie :=
  Trie.insert .forward pattern value t

def searchPrefix (t : PrefixTrie) (text : String) : List String := Trie.search .forward t text

def containsPrefix (t : PrefixTrie) (text : String) : Bool := Trie.contains .forward t text

def getAllPatterns (visit : Visit) (t : PrefixTrie) : List String :=
  Trie.getAllPatterns .forward visit t

def remove (pattern : String) (t : PrefixTrie) : PrefixTrie × Bool :=
  Trie.remove .forward pattern t

end PrefixTrie

abbrev SuffixTrie := Trie

namespace SuffixTrie

def insert (pattern value : String) (t : SuffixTrie) : SuffixTrie :=
  Trie.insert .backward pattern value t

def searchSuffix (t : SuffixTrie) (text : String) : List String := Trie.search .backward t text

def containsSuffix (t : SuffixTrie) (text : String) : Bool := Trie.contains .backward t text

def getAllPatterns (visit : Visit) (t : SuffixTrie) : List String :=
  Trie.getAllPatterns .backward visit t

def remove (pattern : String) (t : SuffixTrie) : SuffixTrie × Bool :=
  Trie.remove .backward pattern t

end SuffixTrie

end Cat
