import Cat.Lib.Ascii
import Mathlib.Data.List.Infix

/-!
# Pieces of UTF-8

Of the beginnings of a text's UTF-8, those that are UTF-8 themselves are the beginnings of the
text; so it is with the ends. A beginning that stops inside a character lacks bytes that the
first one announces, and an end that starts inside one has a first byte that starts no
character.

A program that cuts texts by bytes can therefore be told apart from one that cuts by characters,
or shown to be the same: a byte trie answers like a character trie on keys that are texts, for
as long as both keys and query are. Both facts are by induction on the characters, with one fact
about a single one: no character's bytes are the beginning of another one's.
-/

set_option autoImplicit false

namespace Cbor

variable {c c' : Char} {cs : List Char} {b rest rest' : Bytes} {s : String}

theorem utf8_nil : utf8 (String.ofList []) = [] := rfl

/-- **No character's bytes are the beginning of another one's.** -/
theorem encodeChar_inj (h : String.utf8EncodeChar c ++ rest = String.utf8EncodeChar c' ++ rest') :
    c = c' := by
  have harr := congrArg List.toByteArray h
  rw [List.toByteArray_append, List.toByteArray_append] at harr
  have hdecode := congrArg (ByteArray.utf8DecodeChar? · 0) harr
  simp only [ByteArray.utf8DecodeChar?_utf8EncodeChar_append, Option.some.injEq] at hdecode
  exact hdecode

theorem ofUtf8?_nil : ofUtf8? [] = some (String.ofList []) := ofUtf8?_eq_some.mpr rfl

/-- What is decoded after a character. -/
theorem ofUtf8?_encodeChar_append (c : Char) (b : Bytes) :
    ofUtf8? (String.utf8EncodeChar c ++ b) =
      (ofUtf8? b).map fun s => String.ofList (c :: s.toList) := by
  cases hb : ofUtf8? b with
  | some s =>
    rw [Option.map_some, ofUtf8?_eq_some, utf8_cons, String.ofList_toList,
      ofUtf8?_eq_some.mp hb]
  | none =>
    rw [Option.map_none]
    cases hall : ofUtf8? (String.utf8EncodeChar c ++ b) with
    | none => rfl
    | some s =>
      have heq := ofUtf8?_eq_some.mp hall
      cases hs : s.toList with
      | nil =>
        rw [← String.ofList_toList (s := s), hs, utf8_nil, List.append_eq_nil_iff] at heq
        exact absurd heq.1 String.utf8EncodeChar_ne_nil
      | cons c' cs =>
        rw [← String.ofList_toList (s := s), hs, utf8_cons] at heq
        obtain rfl := encodeChar_inj heq
        rw [ofUtf8?_eq_some.mpr (List.append_cancel_left heq)] at hb
        cases hb

/-- A proper part at the front of a character is no text. -/
theorem ofUtf8?_of_inside (hb : b ≠ []) (hrest : rest ≠ [])
    (h : b ++ rest = String.utf8EncodeChar c) : ofUtf8? b = none := by
  cases hall : ofUtf8? b with
  | none => rfl
  | some s =>
    have heq := ofUtf8?_eq_some.mp hall
    cases hs : s.toList with
    | nil =>
      rw [← String.ofList_toList (s := s), hs, utf8_nil] at heq
      exact absurd heq hb
    | cons c' cs =>
      rw [← String.ofList_toList (s := s), hs, utf8_cons] at heq
      subst heq
      have hchar : String.utf8EncodeChar c' ++ (utf8 (String.ofList cs) ++ rest) =
          String.utf8EncodeChar c ++ [] := by
        rw [← List.append_assoc, h, List.append_nil]
      obtain rfl := encodeChar_inj hchar
      have hnil := List.append_cancel_left hchar
      exact absurd (List.append_eq_nil_iff.mp hnil).2 hrest

/-- A text does not begin inside a character. -/
theorem ofUtf8?_of_after (hb : b ≠ []) (hrest : rest ≠ [])
    (h : rest ++ b = String.utf8EncodeChar c) (bytes : Bytes) : ofUtf8? (b ++ bytes) = none := by
  cases hall : ofUtf8? (b ++ bytes) with
  | none => rfl
  | some s =>
    have heq := ofUtf8?_eq_some.mp hall
    obtain ⟨x, b', rfl⟩ := List.exists_cons_of_ne_nil hb
    -- The byte is not the first one of its character.
    have hlater : ¬x.IsUTF8FirstByte := by
      have hlt : rest.length < (String.utf8EncodeChar c).length := by rw [← h]; simp
      have hx : (String.utf8EncodeChar c)[rest.length] = x := by
        have : (rest ++ x :: b')[rest.length]? = some x := by simp
        rw [h] at this
        exact (List.getElem?_eq_some_iff.mp this).2
      rw [← hx, UInt8.isUTF8FirstByte_getElem_utf8EncodeChar, List.length_eq_zero_iff]
      exact hrest
    cases hs : s.toList with
    | nil =>
      rw [← String.ofList_toList (s := s), hs, utf8_nil] at heq
      cases heq
    | cons c' cs =>
      rw [← String.ofList_toList (s := s), hs, utf8_cons] at heq
      have hpos : 0 < (String.utf8EncodeChar c').length :=
        List.length_pos_of_ne_nil String.utf8EncodeChar_ne_nil
      have hx : (String.utf8EncodeChar c')[0] = x := by
        have hget : (String.utf8EncodeChar c' ++ utf8 (String.ofList cs))[0]? = some x := by
          rw [← heq]
          rfl
        rw [List.getElem?_append_left hpos] at hget
        exact (List.getElem?_eq_some_iff.mp hget).2
      exact absurd (hx ▸ UInt8.isUTF8FirstByte_getElem_utf8EncodeChar.mpr rfl) hlater

theorem inits_eq_cons {α : Type} (l : List α) : l.inits = [] :: l.inits.tail := by
  cases l <;> rfl

theorem tails_eq_cons {α : Type} (l : List α) : l.tails = l :: l.tails.tail := by
  cases l <;> rfl

theorem mem_inits_tail {α : Type} {b l : List α} (h : b ∈ l.inits.tail) : b ≠ [] ∧ b <+: l := by
  refine ⟨?_, (List.mem_inits _ _).mp (List.mem_of_mem_tail h)⟩
  rintro rfl
  cases l with
  | nil => cases h
  | cons a l => simp at h

theorem filterMap_inits_encodeChar (c : Char) :
    (String.utf8EncodeChar c).inits.filterMap ofUtf8? = [String.ofList [], String.ofList [c]] := by
  have hchar : ofUtf8? (String.utf8EncodeChar c) = some (String.ofList [c]) := by
    rw [ofUtf8?_eq_some, utf8_cons, utf8_nil, List.append_nil]
  cases List.eq_nil_or_concat (String.utf8EncodeChar c) with
  | inl hnil => exact absurd hnil String.utf8EncodeChar_ne_nil
  | inr hconcat =>
    obtain ⟨front, y, hc⟩ := hconcat
    rw [List.concat_eq_append] at hc
    have hfront : front.inits.filterMap ofUtf8? = [String.ofList []] := by
      rw [inits_eq_cons, List.filterMap_cons, ofUtf8?_nil]
      refine congrArg _ (List.filterMap_eq_nil_iff.mpr fun b hb => ?_)
      obtain ⟨hne, rest, hrest⟩ := mem_inits_tail hb
      refine ofUtf8?_of_inside hne (List.append_ne_nil_of_right_ne_nil rest (List.cons_ne_nil y []))
        (?_ : _ = String.utf8EncodeChar c)
      rw [hc, ← hrest, List.append_assoc]
    have hlast : [y].inits.tail.map (front ++ ·) = [String.utf8EncodeChar c] := by rw [hc]; rfl
    rw [hc, List.inits_append, hlast, List.filterMap_append, hfront, List.filterMap_cons, hchar]
    rfl

/-- **The beginnings of a text are the beginnings of its UTF-8 that are UTF-8.** -/
theorem filterMap_inits (s : String) :
    (utf8 s).inits.filterMap ofUtf8? = s.toList.inits.map String.ofList := by
  have hchars : ∀ cs : List Char,
      (utf8 (String.ofList cs)).inits.filterMap ofUtf8? = cs.inits.map String.ofList := by
    intro cs
    induction cs with
    | nil =>
      rw [utf8_nil, inits_eq_cons, List.filterMap_cons, ofUtf8?_nil]
      rfl
    | cons c cs ih =>
      have htail : (utf8 (String.ofList cs)).inits.tail.filterMap ofUtf8? =
          cs.inits.tail.map String.ofList := by
        rw [inits_eq_cons (utf8 (String.ofList cs)), inits_eq_cons cs, List.filterMap_cons,
          ofUtf8?_nil, List.map_cons] at ih
        exact List.tail_eq_of_cons_eq ih
      have hnext : ofUtf8? ∘ (String.utf8EncodeChar c ++ ·) =
          fun b => (ofUtf8? b).map fun s => String.ofList (c :: s.toList) :=
        funext fun b => ofUtf8?_encodeChar_append c b
      rw [utf8_cons, List.inits_append, List.filterMap_append, filterMap_inits_encodeChar,
        List.filterMap_map, hnext, ← List.map_filterMap, htail, List.map_map, List.inits_cons,
        List.map_cons, List.map_map, inits_eq_cons cs, List.map_cons, List.tail_cons]
      simp [Function.comp_def]
  have h := hchars s.toList
  rwa [String.ofList_toList] at h

/-- Of the ends that start in a character, only the last one is a text, and it is behind it. -/
theorem filterMap_tails_inside (front back rest : Bytes) (hfront : front ≠ [])
    (h : front ++ back = String.utf8EncodeChar c) :
    (back.tails.map (· ++ rest)).filterMap ofUtf8? = (ofUtf8? rest).toList := by
  induction back generalizing front with
  | nil =>
    show [rest].filterMap ofUtf8? = _
    rw [List.filterMap_cons]
    cases ofUtf8? rest with
    | none => rfl
    | some s => rfl
  | cons x back ih =>
    have hinside := ofUtf8?_of_after (List.cons_ne_nil x back) hfront h rest
    rw [List.tails_cons, List.map_cons, List.filterMap_cons, hinside]
    exact ih (front ++ [x]) (by simp) (by rw [← h]; simp)

/-- **The ends of a text are the ends of its UTF-8 that are UTF-8.** -/
theorem filterMap_tails (s : String) :
    (utf8 s).tails.filterMap ofUtf8? = s.toList.tails.map String.ofList := by
  have hchars : ∀ cs : List Char,
      (utf8 (String.ofList cs)).tails.filterMap ofUtf8? = cs.tails.map String.ofList := by
    intro cs
    induction cs with
    | nil =>
      rw [utf8_nil, tails_eq_cons, List.filterMap_cons, ofUtf8?_nil]
      rfl
    | cons c cs ih =>
      obtain ⟨x, back, hc⟩ := List.exists_cons_of_ne_nil (String.utf8EncodeChar_ne_nil (c := c))
      have hwhole : ofUtf8? (x :: back ++ utf8 (String.ofList cs)) =
          some (String.ofList (c :: cs)) := by
        rw [ofUtf8?_eq_some, utf8_cons, hc]
      have hinside := filterMap_tails_inside [x] back (utf8 (String.ofList cs)) (by simp) hc.symm
      rw [ofUtf8?_utf8] at hinside
      have htail : (utf8 (String.ofList cs)).tails.tail.filterMap ofUtf8? =
          cs.tails.tail.map String.ofList := by
        rw [tails_eq_cons (utf8 (String.ofList cs)), tails_eq_cons cs, List.filterMap_cons,
          ofUtf8?_utf8, List.map_cons] at ih
        exact List.tail_eq_of_cons_eq ih
      rw [utf8_cons, hc, List.tails_append, List.tails_cons, List.map_cons, List.filterMap_append,
        List.filterMap_cons, hwhole, hinside, htail, List.tails_cons, List.map_cons,
        tails_eq_cons cs, List.map_cons, List.tail_cons]
      rfl
  have h := hchars s.toList
  rwa [String.ofList_toList] at h

end Cbor
