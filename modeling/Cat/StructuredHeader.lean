import Cat.Error
import Cat.Lib.Base64
import Cat.Lib.Cbor.Value
import Cat.Lib.StructuredFields.Fuel
import Cat.Lib.StructuredFields.Lists
import Mathlib.Data.List.Induction

/-!
# Structured headers

Header values are read as structured fields and their bare items written out again. The crate
puts strings between quotes as they are, where RFC 8941 escapes quotes and backslashes in them.
What is written for a list of items is read as that list exactly if no string in it has either.

The parser of the crate is a library, and of it is asked that it follows the RFC (`Sfv.Lawful`):
its results are those of the algorithms in `Lib/StructuredFields`, wherever it has one. What it
says of inputs that are no fields is left open. Decimals and base64 are leaves of the grammar,
given with the property that they are read as they were written.

A quote inside a string ends it for the reader, and what follows may be read as a parameter, as
another member or as nothing at all. So the converse takes a look at every string of the list,
and `serializeBareItem_faithful_iff` is proved along its members: a string without either
character is read up to its closing quote, and one with either is read as something else or not
to its end, whatever stands behind it. The same of one item is `parseSfItem_serialize_iff`.
-/

set_option autoImplicit false

namespace Cat

open Cbor
open StructuredFields (Leaves BareItem ListEntry bareEntry isOws)

/-- The crates for structured fields, for decimals and for base64. -/
structure Sfv (δ : Type) where
  leaves : Leaves δ
  parseItem : Bytes → Except String (StructuredFields.Item δ)
  parseList : Bytes → Except String (List (ListEntry δ))

/-- The parser follows RFC 8941. -/
structure Sfv.Lawful {δ : Type} (S : Sfv δ) : Prop where
  leaves : S.leaves.Lawful
  item : ∀ input : String, (S.parseItem (utf8 input)).toOption =
    StructuredFields.parseItemField S.leaves input.toList
  list : ∀ input : String, (S.parseList (utf8 input)).toOption =
    StructuredFields.parseListField S.leaves input.toList

section
variable {δ : Type} (L : Leaves δ)

def serializeBareItem : BareItem δ → String
  | .integer i => toString i
  | .decimal d => String.ofList (L.showDecimal d)
  | .string s => "\"" ++ s ++ "\""
  | .token t => t
  | .byteSeq b => ":" ++ String.ofList (L.encodeBase64 b) ++ ":"
  | .boolean b => if b then "?1" else "?0"

/-- A member as `parse_sf_list` returns it. -/
def serializeEntry : ListEntry δ → String
  | .item item => serializeBareItem L item.bareItem
  | .innerList inner =>
    "(" ++ String.intercalate " " (inner.items.map fun i => serializeBareItem L i.bareItem) ++ ")"

/-- The items after one another, with a comma and so many blanks between them. -/
def joined (spaces : Nat) (items : List (BareItem δ)) : String :=
  String.intercalate ("," ++ String.ofList (List.replicate spaces ' '))
    (items.map (serializeBareItem L))

end

section
variable {δ : Type} (S : Sfv δ)

def parseSfItem (input : String) : Except CatError String :=
  match S.parseItem (utf8 input) with
  | .ok item => .ok (serializeBareItem S.leaves item.bareItem)
  | .error _ => .error (.invalidClaimValue "Not a valid SF-Item")

def parseSfList (input : String) : Except CatError (List String) :=
  match S.parseList (utf8 input) with
  | .ok list => .ok (list.map (serializeEntry S.leaves))
  | .error _ => .error (.invalidClaimValue "Not a valid SF-List")

/-- A bare item of an item or of a list that the parser returns for some input. -/
def Sfv.Produces (i : BareItem δ) : Prop :=
  (∃ input item, S.parseItem (utf8 input) = .ok item ∧ item.bareItem = i) ∨
    ∃ input entries, S.parseList (utf8 input) = .ok entries ∧ ∃ e ∈ entries, i ∈ e.bareItems

/-- What is written for the items is read as the same list, in the texts and in the values. -/
structure Sfv.Faithful (spaces : Nat) (items : List (BareItem δ)) : Prop where
  texts : parseSfList S (joined S.leaves spaces items) =
    .ok (items.map (serializeBareItem S.leaves))
  values : S.parseList (utf8 (joined S.leaves spaces items)) = .ok (items.map bareEntry)

end

/-- A string that is the same with and without escapes. -/
def Unescaped {δ : Type} : BareItem δ → Prop
  | .string s => '"' ∉ s.toList ∧ '\\' ∉ s.toList
  | _ => True

variable {δ : Type} {L : Leaves δ} {i : BareItem δ} {rest : List Char}

/-! ## Escapes

The writer of the RFC escapes and the crate does not. A string has the same text in both exactly
if there is nothing to escape.
-/

theorem length_le_escape (cs : List Char) : cs.length ≤ (StructuredFields.escape cs).length := by
  induction cs with
  | nil => exact Nat.le_refl _
  | cons c cs ih =>
    rw [StructuredFields.escape]
    split <;> simp <;> omega

theorem escape_eq_self {cs : List Char} :
    StructuredFields.escape cs = cs ↔ '"' ∉ cs ∧ '\\' ∉ cs := by
  induction cs with
  | nil => simp [StructuredFields.escape]
  | cons c cs ih =>
    rw [StructuredFields.escape]
    split
    · rename_i hspecial
      refine iff_of_false ?_ ?_
      · intro heq
        -- the text has become longer
        have hlength := congrArg List.length heq
        have hle := length_le_escape cs
        simp only [List.length_cons] at hlength
        omega
      · rintro ⟨hquote, hslash⟩
        rcases hspecial with rfl | rfl
        · exact hquote List.mem_cons_self
        · exact hslash List.mem_cons_self
    · rename_i hplain
      rw [List.cons_inj_right, ih, List.mem_cons, List.mem_cons, not_or, not_or]
      have hquote : '"' ≠ c := fun h => hplain (.inl h.symm)
      have hslash : '\\' ≠ c := fun h => hplain (.inr h.symm)
      simp [hquote, hslash]

/-- The crate writes an item as RFC 8941 does, exactly if there is nothing to escape. -/
theorem serializeBareItem_eq_iff :
    (serializeBareItem L i).toList = StructuredFields.writeBareItem L i ↔ Unescaped i := by
  cases i with
  | string s =>
    show ("\"" ++ s ++ "\"").toList = '"' :: (StructuredFields.escape s.toList ++ ['"']) ↔ _
    rw [String.toList_append, String.toList_append]
    show '"' :: (s.toList ++ ['"']) = _ ↔ _
    rw [List.cons_inj_right, List.append_cancel_right_eq, eq_comm, escape_eq_self]
    rfl
  | byteSeq b => simp [serializeBareItem, StructuredFields.writeBareItem, Unescaped]
  | boolean b => cases b <;> simp [serializeBareItem, StructuredFields.writeBareItem, Unescaped]
  | integer n => simp [serializeBareItem, StructuredFields.writeBareItem, Unescaped]
  | decimal d => simp [serializeBareItem, StructuredFields.writeBareItem, Unescaped]
  | token t => simp [serializeBareItem, StructuredFields.writeBareItem, Unescaped]

theorem unescaped_of_not_string (h : ¬∃ s, i = .string s) : Unescaped i := by
  cases i with
  | string s => exact absurd ⟨s, rfl⟩ h
  | integer n => trivial
  | decimal d => trivial
  | token t => trivial
  | byteSeq b => trivial
  | boolean b => trivial

theorem toList_serializeString (s : String) :
    (serializeBareItem L (.string s)).toList = '"' :: (s.toList ++ ['"']) := by
  simp [serializeBareItem]

/-! ## Strings without their escapes

Read back, such a string ends at its first quote, and a backslash takes the character after it
along or makes the string invalid. Either way it is not what was written.
-/

theorem replicate_append_cons {k : Nat} {c : Char} {cs : List Char} :
    List.replicate k c ++ c :: cs = c :: (List.replicate k c ++ cs) := by
  induction k with
  | zero => rfl
  | succ k ih => rw [List.replicate_succ, List.cons_append, ih, List.cons_append]

/-- Between quotes and without escapes, a text is read as itself only if it has no quote or
    backslash, and with more backslashes before it never. -/
theorem parseString_raw {cs rest' : List Char} {k : Nat}
    (h : StructuredFields.parseString (cs ++ '"' :: rest) =
      some (List.replicate k '\\' ++ cs, rest')) :
    k = 0 ∧ ('"' ∉ cs ∧ '\\' ∉ cs) ∧ rest' = rest := by
  -- an escape takes two characters, so the induction is on the length
  induction hn : cs.length using Nat.strong_induction_on generalizing cs k with
  | _ n ih =>
    cases cs with
    | nil =>
      rw [List.nil_append, StructuredFields.parseString_quote] at h
      obtain ⟨hnil, rfl⟩ := Prod.mk.inj (Option.some.inj h)
      refine ⟨?_, by simp, rfl⟩
      simpa using hnil
    | cons c cs =>
      rw [List.length_cons] at hn
      rcases StructuredFields.parseString_cases h with ⟨-, hnil, -⟩ |
        ⟨rfl, d, input, cs', heq, hd, hcs, hread⟩ | ⟨hquote, hslash, -, cs', hcs, hread⟩
      · exact absurd hnil (by simp)
      · -- the backslash is gone from what is read, so there must be one for it further on
        rw [replicate_append_cons] at hcs
        obtain ⟨rfl, rfl⟩ := List.cons.inj hcs
        cases cs with
        | nil => exact absurd (List.cons.inj heq).1 (by decide)
        | cons d cs =>
          obtain ⟨rfl, rfl⟩ := List.cons.inj heq
          rw [List.length_cons] at hn
          rw [replicate_append_cons] at hread
          exact absurd (@ih cs.length (by omega) cs (k + 1) hread rfl).1 (Nat.succ_ne_zero k)
      · cases k with
        | zero =>
          obtain ⟨-, rfl⟩ := List.cons.inj hcs
          obtain ⟨-, ⟨hquotes, hslashes⟩, hrest⟩ := @ih cs.length (by omega) cs 0 hread rfl
          exact ⟨rfl, by simp [Ne.symm hquote, Ne.symm hslash, hquotes, hslashes], hrest⟩
        | succ k => exact absurd (List.cons.inj hcs).1.symm hslash

/-! ## Members

What one member is read as, and what is left of the input for the next.
-/

section
variable (hL : L.Lawful)
include hL

theorem parseBareItem_unescaped (hi : i.WellFormed L) (hplain : Unescaped i) :
    StructuredFields.parseBareItem L (serializeBareItem L i).toList = some (i, []) := by
  rw [serializeBareItem_eq_iff.mpr hplain]
  have hread := @StructuredFields.parseBareItem_write _ _ [] hL i hi
    fun c hc => absurd hc (Option.not_mem_none c)
  rwa [List.append_nil] at hread

theorem parseEntry_unescaped (hi : i.WellFormed L) (hplain : Unescaped i)
    (hrest : StructuredFields.EndsMember rest) :
    StructuredFields.parseEntry L ((serializeBareItem L i).toList ++ rest) =
      some (bareEntry i, rest) := by
  rw [serializeBareItem_eq_iff.mpr hplain]
  exact StructuredFields.parseEntry_bareItem
    (StructuredFields.parseBareItem_write hL hi hrest.ends) hrest

/-- The text of an item is neither empty nor does it start with a blank. -/
theorem head_of_serializeBareItem (hi : i.WellFormed L) :
    ∃ c cs, (serializeBareItem L i).toList = c :: cs ∧ c ≠ '(' ∧ isOws c = false := by
  by_cases hstring : ∃ s, i = .string s
  · obtain ⟨s, rfl⟩ := hstring
    exact ⟨'"', s.toList ++ ['"'], toList_serializeString s, by decide, by decide⟩
  · exact StructuredFields.head_of_parseBareItem
      (parseBareItem_unescaped hL hi (unescaped_of_not_string hstring))

end

/-- An item whose text is read as a member with the same text needs no escapes. -/
theorem unescaped_of_parseEntry {entry : ListEntry δ} {rest' : List Char}
    (h : StructuredFields.parseEntry L ((serializeBareItem L i).toList ++ rest) =
      some (entry, rest'))
    (htext : serializeEntry L entry = serializeBareItem L i) : Unescaped i := by
  by_cases hstring : ∃ s, i = .string s
  · obtain ⟨s, rfl⟩ := hstring
    rw [toList_serializeString, List.cons_append, List.append_assoc, List.singleton_append,
      StructuredFields.parseEntry_eq (by decide)] at h
    obtain ⟨⟨item, _⟩, hitem, heq⟩ := Option.map_eq_some_iff.mp h
    obtain ⟨rfl, -⟩ := Prod.mk.inj heq
    obtain ⟨mid, hbare, -⟩ := StructuredFields.parseItem_eq_some hitem
    rw [StructuredFields.parseBareItem_quote] at hbare
    obtain ⟨⟨cs, _⟩, hcs, hbare⟩ := Option.map_eq_some_iff.mp hbare
    -- the quotes around both texts are the same, so the texts are
    have hsame : cs = s.toList := by
      have hchars := congrArg String.toList htext
      rw [serializeEntry, ← (Prod.mk.inj hbare).1] at hchars
      simpa [serializeBareItem] using hchars
    rw [hsame] at hcs
    exact (@parseString_raw rest s.toList _ 0 hcs).2.1
  · exact unescaped_of_not_string hstring

/-! ## Lists

By induction on the members. The converse looks at the first member whose string has a quote or
a backslash, and follows what the reader makes of the input from there on.
-/

variable {spaces : Nat} {items : List (BareItem δ)}

/-- What follows the first of the items. -/
def joinedRest (L : Leaves δ) (spaces : Nat) (items : List (BareItem δ)) : List Char :=
  if items = [] then [] else ',' :: (List.replicate spaces ' ' ++ (joined L spaces items).toList)

theorem joined_cons : (joined L spaces (i :: items)).toList =
    (serializeBareItem L i).toList ++ joinedRest L spaces items := by
  unfold joinedRest joined
  rw [String.toList_intercalate, String.toList_intercalate]
  cases items with
  | nil => simp
  | cons j items => simp [List.intercalate_cons_cons]

theorem endsMember_joinedRest : StructuredFields.EndsMember (joinedRest L spaces items) := by
  intro c hc
  cases items with
  | nil => cases hc
  | cons j items => exact (Option.some.inj hc).symm

section
variable (hL : L.Lawful)
include hL

/-- An item without escapes is read, and then the items after it are. -/
theorem parseMembers_cons {fuel : Nat} (hi : i.WellFormed L) (hplain : Unescaped i)
    (hitems : ∀ j ∈ items, j.WellFormed L) (hne : items ≠ []) :
    StructuredFields.parseMembers L (fuel + 1) (joined L spaces (i :: items)).toList =
      (StructuredFields.parseMembers L fuel (joined L spaces items).toList).map
        fun entries => bareEntry i :: entries := by
  have hread := parseEntry_unescaped hL hi hplain
    (@endsMember_joinedRest _ L spaces items)
  obtain ⟨j, more, rfl⟩ := List.exists_cons_of_ne_nil hne
  obtain ⟨c, cs, htext, -, hc⟩ := head_of_serializeBareItem hL (hitems j List.mem_cons_self)
  have hjoined : (joined L spaces (j :: more)).toList = c :: (cs ++ joinedRest L spaces more) := by
    rw [joined_cons, htext, List.cons_append]
  rw [joinedRest, if_neg hne, hjoined] at hread
  rw [joined_cons, joinedRest, if_neg hne, hjoined]
  exact StructuredFields.parseMembers_comma hread hc

theorem parseMembers_single {fuel : Nat} (hi : i.WellFormed L) (hplain : Unescaped i) :
    StructuredFields.parseMembers L (fuel + 1) (joined L spaces [i]).toList =
      some [bareEntry i] := by
  rw [joined_cons]
  exact StructuredFields.parseMembers_last
    (parseEntry_unescaped hL hi hplain (@endsMember_joinedRest _ L spaces []))

/-- Items without escapes are read one after the other. -/
theorem parseMembers_joined {fuel : Nat} (hitems : ∀ j ∈ items, j.WellFormed L)
    (hplain : ∀ j ∈ items, Unescaped j) (hne : items ≠ []) (hfuel : items.length ≤ fuel) :
    StructuredFields.parseMembers L fuel (joined L spaces items).toList =
      some (items.map bareEntry) := by
  induction items generalizing fuel with
  | nil => exact absurd rfl hne
  | cons i items ih =>
    obtain ⟨fuel, rfl⟩ := Nat.exists_eq_add_one.mpr (Nat.lt_of_lt_of_le (Nat.succ_pos _) hfuel)
    obtain ⟨hi, hitems⟩ := List.forall_mem_cons.mp hitems
    obtain ⟨hiplain, hplain⟩ := List.forall_mem_cons.mp hplain
    by_cases hnil : items = []
    · subst hnil
      exact parseMembers_single hL hi hiplain
    · rw [parseMembers_cons hL hi hiplain hitems hnil,
        ih hitems hplain hnil (Nat.le_of_succ_le_succ hfuel)]
      rfl

/-- If the members that are read have the texts of the items, no item needs escapes. -/
theorem unescaped_of_parseMembers {fuel : Nat} {entries : List (ListEntry δ)}
    (hitems : ∀ j ∈ items, j.WellFormed L)
    (h : StructuredFields.parseMembers L fuel (joined L spaces items).toList = some entries)
    (htexts : entries.map (serializeEntry L) = items.map (serializeBareItem L)) :
    ∀ j ∈ items, Unescaped j := by
  induction items generalizing fuel entries with
  | nil => exact fun j hj => absurd hj List.not_mem_nil
  | cons i items ih =>
    obtain ⟨hi, hitems⟩ := List.forall_mem_cons.mp hitems
    obtain ⟨n, entry, rest, more, rfl, hentry, rfl, -⟩ :=
      StructuredFields.parseMembers_eq_some h
    rw [joined_cons] at hentry
    -- the text of the first member is that of the first item, which is read as it is then
    have hplain := unescaped_of_parseEntry hentry (List.cons.inj htexts).1
    refine List.forall_mem_cons.mpr ⟨hplain, ?_⟩
    by_cases hnil : items = []
    · rw [hnil]
      exact fun j hj => absurd hj List.not_mem_nil
    · rw [parseMembers_cons hL hi hplain hitems hnil] at h
      obtain ⟨entries, hentries, heq⟩ := Option.map_eq_some_iff.mp h
      obtain ⟨-, rfl⟩ := List.cons.inj heq
      exact ih hitems hentries (List.cons.inj htexts).2

end

/-! ## Fields

From members to the field, with its blanks and its end.
-/

theorem parseListField_joined (hne : items ≠ []) (hL : L.Lawful)
    (hitems : ∀ j ∈ items, j.WellFormed L) :
    StructuredFields.parseListField L (joined L spaces items).toList =
      if StructuredFields.isAscii (joined L spaces items).toList then
        StructuredFields.parseMembers L (joined L spaces items).toList.length
          (joined L spaces items).toList
      else none := by
  obtain ⟨j, more, rfl⟩ := List.exists_cons_of_ne_nil hne
  obtain ⟨c, cs, htext, -, hc⟩ := head_of_serializeBareItem hL (hitems j List.mem_cons_self)
  have hblank : (c == ' ') = false := (Bool.or_eq_false_iff.mp hc).1
  unfold StructuredFields.parseListField
  rw [joined_cons, htext, List.cons_append,
    @StructuredFields.dropWhile_head (· == ' ') _ _ hblank]
  dsimp only
  rw [if_neg (List.cons_ne_nil _ _)]

theorem joined_ascii (hL : L.Lawful) (hitems : ∀ j ∈ items, j.WellFormed L)
    (hplain : ∀ j ∈ items, Unescaped j) :
    StructuredFields.isAscii (joined L spaces items).toList = true := by
  apply List.all_eq_true.mpr
  intro c hc
  apply decide_eq_true
  induction items with
  | nil => simp [joined] at hc
  | cons i items ih =>
    obtain ⟨hi, hitems⟩ := List.forall_mem_cons.mp hitems
    obtain ⟨hiplain, hplain⟩ := List.forall_mem_cons.mp hplain
    rw [joined_cons, serializeBareItem_eq_iff.mpr hiplain] at hc
    cases List.mem_append.mp hc with
    | inl hitem =>
      exact StructuredFields.isPrintable_ascii
        (StructuredFields.writeBareItem_printable hL hi c hitem)
    | inr hrest =>
      unfold joinedRest at hrest
      split at hrest
      · cases hrest
      · rcases List.mem_cons.mp hrest with rfl | hrest
        · decide
        · cases List.mem_append.mp hrest with
          | inl hblank =>
            rw [List.eq_of_mem_replicate hblank]
            decide
          | inr hmore => exact ih hitems hplain hmore

theorem toOption_eq_some {α : Type} {x : Except String α} {a : α} :
    x.toOption = some a ↔ x = .ok a := by
  cases x <;> simp [Except.toOption]

theorem parseSfList_eq_ok {S : Sfv δ} {input : String} {texts : List String} :
    parseSfList S input = .ok texts ↔
      ∃ entries, S.parseList (utf8 input) = .ok entries ∧
        entries.map (serializeEntry S.leaves) = texts := by
  unfold parseSfList
  cases S.parseList (utf8 input) <;> simp

theorem Sfv.Produces.wellFormed {S : Sfv δ} (hS : S.Lawful) (h : S.Produces i) :
    i.WellFormed S.leaves := by
  cases h with
  | inl hitem =>
    obtain ⟨input, item, hread, rfl⟩ := hitem
    have hfield := hS.item input
    rw [hread] at hfield
    exact StructuredFields.parseItemField_wellFormed hfield.symm
  | inr hlist =>
    obtain ⟨input, entries, hread, e, he, hi⟩ := hlist
    have hfield := hS.list input
    rw [hread] at hfield
    exact StructuredFields.parseListField_wellFormed hfield.symm e he i hi

/-- The parser returns all bare items that are well formed, and no other. -/
theorem Sfv.produces_iff {S : Sfv δ} (hS : S.Lawful) : S.Produces i ↔ i.WellFormed S.leaves := by
  constructor
  · exact Sfv.Produces.wellFormed hS
  · intro hi
    have hfield := hS.item (String.ofList (StructuredFields.writeBareItem S.leaves i))
    rw [String.toList_ofList, StructuredFields.parseItemField_write hS.leaves hi] at hfield
    exact .inl ⟨_, _, toOption_eq_some.mp hfield, rfl⟩

/-- **What is written for a list of items is read as that list, exactly if no string in it has
    a quote or a backslash.**

    A string is put between quotes as it is, so a quote in it ends it early, and a backslash is read
    together with what follows. All other items have texts in which nothing needs to be escaped. -/
theorem serializeBareItem_faithful_iff {S : Sfv δ} (hS : S.Lawful) (spaces : Nat)
    (items : List (BareItem δ)) (h : ∀ i ∈ items, S.Produces i) :
    S.Faithful spaces items ↔
      ∀ s, BareItem.string s ∈ items → '"' ∉ s.toList ∧ '\\' ∉ s.toList := by
  have hwellFormed : ∀ i ∈ items, i.WellFormed S.leaves :=
    fun i hi => (Sfv.produces_iff hS).mp (h i hi)
  have hstrings : (∀ s, BareItem.string s ∈ items → '"' ∉ s.toList ∧ '\\' ∉ s.toList) ↔
      ∀ i ∈ items, Unescaped i := by
    constructor
    · intro hs i hi
      by_cases hstring : ∃ s, i = .string s
      · obtain ⟨s, rfl⟩ := hstring
        exact hs s hi
      · exact unescaped_of_not_string hstring
    · exact fun hplain s hs => hplain _ hs
  have hlist := hS.list (joined S.leaves spaces items)
  rw [hstrings]
  by_cases hnil : items = []
  · subst hnil
    have hread : S.parseList (utf8 (joined S.leaves spaces [])) = .ok [] :=
      toOption_eq_some.mp hlist
    refine iff_of_true ⟨?_, hread⟩ fun i hi => absurd hi List.not_mem_nil
    exact parseSfList_eq_ok.mpr ⟨[], hread, rfl⟩
  rw [parseListField_joined hnil hS.leaves hwellFormed] at hlist
  constructor
  · intro hfaithful
    obtain ⟨entries, hread, htexts⟩ := parseSfList_eq_ok.mp hfaithful.texts
    rw [toOption_eq_some.mpr hread] at hlist
    split at hlist
    · exact unescaped_of_parseMembers hS.leaves hwellFormed hlist.symm htexts
    · cases hlist
  · intro hplain
    rw [if_pos (joined_ascii hS.leaves hwellFormed hplain),
      StructuredFields.parseMembers_fuel (Nat.le_refl _) (Nat.le_add_right _ items.length),
      parseMembers_joined hS.leaves hwellFormed hplain hnil (Nat.le_add_left _ _)] at hlist
    have hread := toOption_eq_some.mp hlist
    refine ⟨parseSfList_eq_ok.mpr ⟨_, hread, ?_⟩, hread⟩
    rw [List.map_map]
    rfl

/-! ## Items with one text

No two items have one text. So what is written for an item alone tells which one it was, also
where it is not read back as that.
-/

/-- What starts with a quote is read as a string. -/
theorem string_of_quote {input : List Char}
    (h : StructuredFields.parseBareItem L ('"' :: input) = some (i, rest)) :
    ∃ s, i = .string s := by
  rw [StructuredFields.parseBareItem_quote] at h
  obtain ⟨p, -, heq⟩ := Option.map_eq_some_iff.mp h
  exact ⟨_, (Prod.mk.inj heq).1.symm⟩

section
variable (hL : L.Lawful)
include hL

/-- The text of a string is that of no other item, even if it would be read as another string. -/
theorem eq_of_serializeString {s : String} (hi : i.WellFormed L)
    (h : serializeBareItem L i = serializeBareItem L (.string s)) : i = .string s := by
  by_cases hstring : ∃ t, i = .string t
  · obtain ⟨t, rfl⟩ := hstring
    have hchars := congrArg String.toList h
    rw [toList_serializeString, toList_serializeString, List.cons_inj_right,
      List.append_cancel_right_eq, String.toList_inj] at hchars
    rw [hchars]
  · have hread := parseBareItem_unescaped hL hi (unescaped_of_not_string hstring)
    rw [h, toList_serializeString] at hread
    exact absurd (string_of_quote hread) hstring

/-- No two items have one text, with or without escapes: it is in lists that they pass for
    one another. -/
theorem serializeBareItem_inj {j : BareItem δ} (hi : i.WellFormed L) (hj : j.WellFormed L) :
    serializeBareItem L i = serializeBareItem L j ↔ i = j := by
  constructor
  · intro heq
    by_cases histring : ∃ s, i = .string s
    · obtain ⟨s, rfl⟩ := histring
      exact (eq_of_serializeString hL hj heq.symm).symm
    by_cases hjstring : ∃ s, j = .string s
    · obtain ⟨s, rfl⟩ := hjstring
      exact eq_of_serializeString hL hi heq
    -- neither needs escapes, so both texts are read back
    have hread := parseBareItem_unescaped hL hi (unescaped_of_not_string histring)
    rw [heq, parseBareItem_unescaped hL hj (unescaped_of_not_string hjstring)] at hread
    exact (Prod.mk.inj (Option.some.inj hread)).1.symm
  · exact congrArg _

end

/-- An item that is read from the text of a string, as that string, shows that it needs no
escapes. -/
theorem unescaped_of_parseItemField {s : String} {item : StructuredFields.Item δ}
    (h : StructuredFields.parseItemField L (serializeBareItem L (.string s)).toList = some item)
    (hitem : item.bareItem = .string s) : '"' ∉ s.toList ∧ '\\' ∉ s.toList := by
  have hquote : ('"' == ' ') = false := by decide
  unfold StructuredFields.parseItemField at h
  rw [toList_serializeString, @StructuredFields.dropWhile_head (· == ' ') _ _ hquote] at h
  split at h
  · obtain ⟨⟨item', _⟩, hread, h⟩ := Option.bind_eq_some_iff.mp h
    dsimp only at h
    split at h
    · obtain rfl := Option.some.inj h
      obtain ⟨_, hbare, -⟩ := StructuredFields.parseItem_eq_some hread
      rw [hitem, StructuredFields.parseBareItem_quote] at hbare
      obtain ⟨⟨cs, _⟩, hcs, hbare⟩ := Option.map_eq_some_iff.mp hbare
      have hsame : cs = s.toList := by
        have htext := BareItem.string.inj (Prod.mk.inj hbare).1
        rw [← htext, String.toList_ofList]
      rw [hsame] at hcs
      exact (@parseString_raw [] s.toList _ 0 hcs).2.1
    · cases h
  · cases h

/-- **Normalizing an item again** changes nothing exactly if it needs no escapes: for the text of
one item, as for a list of them, only strings are in question. -/
theorem parseSfItem_serialize_iff {S : Sfv δ} (hS : S.Lawful) (h : S.Produces i) :
    parseSfItem S (serializeBareItem S.leaves i) = .ok (serializeBareItem S.leaves i) ↔
      Unescaped i := by
  have hi := (Sfv.produces_iff hS).mp h
  have hfield := hS.item (serializeBareItem S.leaves i)
  constructor
  · intro hsame
    unfold parseSfItem at hsame
    split at hsame
    · rename_i item hread
      rw [hread] at hfield
      have htexts := Except.ok.inj hsame
      have hitem := StructuredFields.parseItemField_wellFormed hfield.symm
      have hback : item.bareItem = i := (serializeBareItem_inj hS.leaves hitem hi).mp htexts
      by_cases hstring : ∃ s, i = .string s
      · obtain ⟨s, rfl⟩ := hstring
        exact unescaped_of_parseItemField hfield.symm hback
      · exact unescaped_of_not_string hstring
    · cases hsame
  · intro hplain
    rw [serializeBareItem_eq_iff.mpr hplain, StructuredFields.parseItemField_write hS.leaves hi,
      toOption_eq_some] at hfield
    unfold parseSfItem
    rw [hfield]

/-! ## A string with a comma between quotes -/

/-- The standard alphabet with padding, and decimals as they are spelt. -/
def Sfv.referenceLeaves : Leaves StructuredFields.DecimalLiteral where
  readDecimal l := l
  showDecimal l := l.text
  encodeBase64 := Base64.encodePadded
  decodeBase64 s := (Base64.decodePadded s).toOption

def Sfv.reference : Sfv StructuredFields.DecimalLiteral where
  leaves := referenceLeaves
  parseItem b :=
    match (ofUtf8? b).bind fun s => StructuredFields.parseItemField referenceLeaves s.toList with
    | some item => .ok item
    | none => .error "not an item"
  parseList b :=
    match (ofUtf8? b).bind fun s => StructuredFields.parseListField referenceLeaves s.toList with
    | some list => .ok list
    | none => .error "not a list"

theorem Sfv.reference_lawful : Sfv.reference.Lawful where
  leaves :=
    { show_read := fun l => ⟨l, rfl, rfl⟩
      alphabet := fun b c hc => Base64.mem_encodePadded hc
      decode_encode := fun b => congrArg Except.toOption (Base64.decodePadded_encodePadded b) }
  item input := by
    simp only [Sfv.reference, ofUtf8?_utf8, Option.bind_some]
    cases StructuredFields.parseItemField Sfv.referenceLeaves input.toList <;> rfl
  list input := by
    simp only [Sfv.reference, ofUtf8?_utf8, Option.bind_some]
    cases StructuredFields.parseListField Sfv.referenceLeaves input.toList <;> rfl

/-- A token, a number of each kind, bytes, a boolean and a string. -/
def plainItems : List (BareItem StructuredFields.DecimalLiteral) :=
  [.token "gzip", .integer (-42), .decimal ⟨false, ['1'], ['5', '0'], rfl, rfl⟩,
    .byteSeq [0xfb, 0xff], .boolean true, .string "a, b"]

def plainField : String := "gzip, -42, 1.50, :+/8=:, ?1, \"a, b\""

theorem plainField_read : Sfv.reference.parseList (utf8 plainField) =
    .ok (plainItems.map bareEntry) := by
  decide +kernel

theorem serializeBareItem_faithful_iff_plain :
    Sfv.reference.Faithful 1 plainItems ↔
      ∀ s, BareItem.string s ∈ plainItems → '"' ∉ s.toList ∧ '\\' ∉ s.toList := by
  apply serializeBareItem_faithful_iff Sfv.reference_lawful
  intro i hi
  exact .inr ⟨plainField, _, plainField_read, bareEntry i, List.mem_map_of_mem hi,
    List.mem_singleton_self i⟩

/-- One string that looks like two. -/
def quotedItems : List (BareItem StructuredFields.DecimalLiteral) := [.string "a\", \"b"]

/-- The parser returns the string, and what is written for it is read as a list of two. -/
theorem serializeBareItem_not_faithful :
    Sfv.reference.Lawful ∧ (∀ i ∈ quotedItems, Sfv.reference.Produces i) ∧
      parseSfList Sfv.reference (joined Sfv.referenceLeaves 1 quotedItems) =
        .ok ["\"a\"", "\"b\""] ∧
      joined Sfv.referenceLeaves 1 quotedItems =
        joined Sfv.referenceLeaves 1 [.string "a", .string "b"] ∧
      ¬Sfv.reference.Faithful 1 quotedItems := by
  have hread : Sfv.reference.parseItem (utf8 "\"a\\\", \\\"b\"") =
      .ok ⟨.string "a\", \"b", []⟩ := by
    decide +kernel
  have htexts : parseSfList Sfv.reference (joined Sfv.referenceLeaves 1 quotedItems) =
      .ok ["\"a\"", "\"b\""] := by
    decide +kernel
  refine ⟨Sfv.reference_lawful, ?_, htexts, by decide +kernel, ?_⟩
  · intro i hi
    rw [List.mem_singleton.mp hi]
    exact .inl ⟨_, _, hread, rfl⟩
  · intro hfaithful
    have htwo := hfaithful.texts.symm.trans htexts
    exact absurd (congrArg List.length (Except.ok.inj htwo)) (by decide)

end Cat
