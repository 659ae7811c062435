import Cat.Lib.StructuredFields.Write

/-!
# Lists of structured fields

Members with commas between them are read one after the other, and all bare items of a list that
is read are well formed.

The two readings of a list that are wanted are the general one and the simple one. In general a
member is an item or an inner list, each with parameters, and what is known of a list that was
read is that every bare item in it is well formed, however deep. The simple lists are those a
program writes: bare items without parameters, with a comma and blanks between them; of these it
is said turn by turn what the parser makes (`parseMembers_last`, `parseMembers_comma`).
-/

set_option autoImplicit false

namespace StructuredFields

variable {δ : Type} {L : Leaves δ} {input rest : List Char}

/-- The bare items of a member, without its parameters. -/
def ListEntry.bareItems : ListEntry δ → List (BareItem δ)
  | .item i => [i.bareItem]
  | .innerList inner => inner.items.map Item.bareItem

/-- The list ends here, or goes on with a comma. -/
def EndsMember (rest : List Char) : Prop := ∀ c ∈ rest.head?, c = ','

theorem EndsMember.ends (h : EndsMember rest) : Ends rest := by
  intro c hc
  rw [h c hc]
  decide

/-- The member of a bare item without parameters. -/
abbrev bareEntry (i : BareItem δ) : ListEntry δ := .item ⟨i, []⟩

/-! ## Members

A member begins with what can begin a bare item or with a parenthesis, and these differ.
-/

/-- No bare item starts with a parenthesis or a blank. -/
theorem head_of_parseBareItem {i : BareItem δ} (h : parseBareItem L input = some (i, rest)) :
    ∃ c cs, input = c :: cs ∧ c ≠ '(' ∧ isOws c = false := by
  cases input with
  | nil => cases h
  | cons c cs =>
    refine ⟨c, cs, rfl, ?_, ?_⟩
    · rintro rfl
      cases h
    · rw [isOws, Bool.or_eq_false_iff, beq_eq_false_iff_ne, beq_eq_false_iff_ne]
      constructor
      · rintro rfl
        cases h
      · rintro rfl
        cases h

theorem parseEntry_eq {c : Char} (h : c ≠ '(') :
    parseEntry L (c :: input) = (parseItem L (c :: input)).map fun p => (.item p.1, p.2) := by
  unfold parseEntry
  split
  · rename_i heq
    exact absurd (List.cons.inj heq).1 h
  · cases parseItem L (c :: input) <;> rfl

/-- A bare item without parameters is a member. -/
theorem parseEntry_bareItem {i : BareItem δ} (h : parseBareItem L input = some (i, rest))
    (hrest : EndsMember rest) : parseEntry L input = some (bareEntry i, rest) := by
  obtain ⟨c, cs, rfl, hc, -⟩ := head_of_parseBareItem h
  have hparams : ∀ c ∈ rest.head?, c ≠ ';' := by
    intro c hc
    rw [hrest c hc]
    decide
  rw [parseEntry_eq hc, parseItem, h]
  simp only [Option.bind_eq_bind, Option.bind_some]
  rw [parseParameters_none hparams]
  rfl

theorem dropWhile_head {p : Char → Bool} {c : Char} {cs : List Char} (h : p c = false) :
    (c :: cs).dropWhile p = c :: cs := by
  rw [List.dropWhile_cons_of_neg (by simp [h])]

/-- The last member. -/
theorem parseMembers_last {fuel : Nat} {entry : ListEntry δ}
    (h : parseEntry L input = some (entry, [])) :
    parseMembers L (fuel + 1) input = some [entry] := by
  rw [parseMembers, h]
  rfl

/-- A member, a comma and blanks, and more members. -/
theorem parseMembers_comma {fuel spaces : Nat} {entry : ListEntry δ} {c : Char} {cs : List Char}
    (h : parseEntry L input = some (entry, ',' :: (List.replicate spaces ' ' ++ c :: cs)))
    (hc : isOws c = false) :
    parseMembers L (fuel + 1) input =
      (parseMembers L fuel (c :: cs)).map fun entries => entry :: entries := by
  have hcomma : (',' :: (List.replicate spaces ' ' ++ c :: cs)).dropWhile isOws =
      ',' :: (List.replicate spaces ' ' ++ c :: cs) := dropWhile_head (by decide)
  have hblanks : (List.replicate spaces ' ' ++ c :: cs).dropWhile isOws = c :: cs := by
    apply List.dropWhile_run
    · intro d hd
      rw [List.eq_of_mem_replicate hd]
      decide
    · intro d hd
      obtain rfl := Option.some.inj hd
      exact hc
  rw [parseMembers, h]
  simp only [Option.bind_eq_bind, Option.bind_some, hcomma, hblanks]
  rw [if_neg (List.cons_ne_nil c cs)]
  cases parseMembers L fuel (c :: cs) <;> rfl

/-- Where the members are read, the first one is. -/
theorem parseMembers_eq_some {fuel : Nat} {entries : List (ListEntry δ)}
    (h : parseMembers L fuel input = some entries) :
    ∃ n entry rest more, fuel = n + 1 ∧ parseEntry L input = some (entry, rest) ∧
      entries = entry :: more ∧ (more = [] ∨ ∃ rest', parseMembers L n rest' = some more) := by
  cases fuel with
  | zero => cases h
  | succ n =>
    rw [parseMembers] at h
    obtain ⟨⟨entry, rest⟩, hentry, h⟩ := Option.bind_eq_some_iff.mp h
    dsimp only at h
    split at h
    · exact ⟨n, entry, rest, [], rfl, hentry, (Option.some.inj h).symm, .inl rfl⟩
    · split at h
      · cases h
      · obtain ⟨more, hmore, heq⟩ := Option.bind_eq_some_iff.mp h
        exact ⟨n, entry, rest, more, rfl, hentry, (Option.some.inj heq).symm, .inr ⟨_, hmore⟩⟩
    · cases h

/-! ## What is read

Only the values of bare items are asked for, so parameters are read and dropped.
-/

/-- An item's parameters do not change what its bare item is. -/
theorem parseItem_wellFormed {item : Item δ} (h : parseItem L input = some (item, rest)) :
    item.bareItem.WellFormed L := by
  obtain ⟨mid, hbare, -⟩ := parseItem_eq_some h
  exact parseBareItem_wellFormed hbare

theorem parseInnerItems_wellFormed {fuel : Nat} {items : List (Item δ)}
    (h : parseInnerItems L fuel input = some (items, rest)) :
    ∀ item ∈ items, item.bareItem.WellFormed L := by
  induction fuel generalizing input items rest with
  | zero => cases h
  | succ fuel ih =>
    rw [parseInnerItems] at h
    split at h
    · obtain ⟨rfl, -⟩ := Prod.mk.inj (Option.some.inj h)
      exact fun item hitem => absurd hitem List.not_mem_nil
    · obtain ⟨⟨item, mid⟩, hitem, h⟩ := Option.bind_eq_some_iff.mp h
      dsimp only at h
      split at h
      · obtain ⟨⟨more, rest'⟩, hmore, h⟩ := Option.bind_eq_some_iff.mp h
        obtain ⟨rfl, -⟩ := Prod.mk.inj (Option.some.inj h)
        exact List.forall_mem_cons.mpr ⟨parseItem_wellFormed hitem, ih hmore⟩
      · cases h

theorem parseEntry_wellFormed {entry : ListEntry δ}
    (h : parseEntry L input = some (entry, rest)) :
    ∀ i ∈ entry.bareItems, i.WellFormed L := by
  unfold parseEntry at h
  split at h
  · obtain ⟨⟨items, mid⟩, hitems, h⟩ := Option.bind_eq_some_iff.mp h
    obtain ⟨⟨params, rest'⟩, -, h⟩ := Option.bind_eq_some_iff.mp h
    obtain ⟨rfl, -⟩ := Prod.mk.inj (Option.some.inj h)
    exact List.forall_mem_map.mpr (parseInnerItems_wellFormed hitems)
  · obtain ⟨⟨item, rest'⟩, hitem, h⟩ := Option.bind_eq_some_iff.mp h
    obtain ⟨rfl, -⟩ := Prod.mk.inj (Option.some.inj h)
    exact List.forall_mem_singleton.mpr (parseItem_wellFormed hitem)

theorem parseMembers_wellFormed {fuel : Nat} {entries : List (ListEntry δ)}
    (h : parseMembers L fuel input = some entries) :
    ∀ entry ∈ entries, ∀ i ∈ entry.bareItems, i.WellFormed L := by
  induction fuel generalizing input entries with
  | zero => cases h
  | succ fuel ih =>
    obtain ⟨n, entry, rest, more, hfuel, hentry, rfl, hmore⟩ := parseMembers_eq_some h
    obtain rfl := Nat.succ.inj hfuel
    refine List.forall_mem_cons.mpr ⟨parseEntry_wellFormed hentry, ?_⟩
    cases hmore with
    | inl hnil =>
      rw [hnil]
      exact fun entry hentry => absurd hentry List.not_mem_nil
    | inr hmore =>
      obtain ⟨rest', hmore⟩ := hmore
      exact ih hmore

theorem parseItemField_wellFormed {item : Item δ} (h : parseItemField L input = some item) :
    item.bareItem.WellFormed L := by
  unfold parseItemField at h
  split at h
  · obtain ⟨⟨item', rest⟩, hitem, h⟩ := Option.bind_eq_some_iff.mp h
    dsimp only at h
    split at h
    · obtain rfl := Option.some.inj h
      exact parseItem_wellFormed hitem
    · cases h
  · cases h

theorem parseListField_wellFormed {entries : List (ListEntry δ)}
    (h : parseListField L input = some entries) :
    ∀ entry ∈ entries, ∀ i ∈ entry.bareItems, i.WellFormed L := by
  unfold parseListField at h
  split at h
  · dsimp only at h
    split at h
    · obtain rfl := Option.some.inj h
      exact fun entry hentry => absurd hentry List.not_mem_nil
    · exact parseMembers_wellFormed h
  · cases h

/-! ## What is written

A text that is written for a bare item is one that a field may have, and can be read alone or in
a list.
-/

theorem isPrintable_ascii {c : Char} (h : isPrintable c = true) : c.toNat < 128 := by
  simp only [isPrintable, Bool.and_eq_true, decide_eq_true_eq] at h
  omega

/-- Escaping adds backslashes only. -/
theorem mem_escape {cs : List Char} {c : Char} (h : c ∈ escape cs) : c = '\\' ∨ c ∈ cs := by
  induction cs with
  | nil => cases h
  | cons d cs ih =>
    rw [escape] at h
    split at h
    · rcases List.mem_cons.mp h with rfl | h
      · exact .inl rfl
      rcases List.mem_cons.mp h with rfl | h
      · exact .inr List.mem_cons_self
      · exact (ih h).imp_right (List.mem_cons_of_mem d)
    · rcases List.mem_cons.mp h with rfl | h
      · exact .inr List.mem_cons_self
      · exact (ih h).imp_right (List.mem_cons_of_mem d)

theorem printable_of_digits {max : Nat} {cs : List Char} (h : isDigits max cs = true) :
    ∀ c ∈ cs, isPrintable c = true := by
  intro c hc
  exact isPrintable_of_isTokenChar (isTokenChar_of_isDigit ((isDigits_iff.mp h).2.2 c hc))

/-- What is written is printable. -/
theorem writeBareItem_printable (hL : L.Lawful) {i : BareItem δ} (hi : i.WellFormed L) :
    ∀ c ∈ writeBareItem L i, isPrintable c = true := by
  have hsign : ∀ negative : Bool, ∀ c ∈ (if negative then ['-'] else []), isPrintable c = true := by
    intro negative c hc
    cases negative with
    | true =>
      rw [List.mem_singleton.mp hc]
      decide
    | false => cases hc
  have hquote : ∀ c ∈ ['"'], isPrintable c = true := List.forall_mem_of_all (by decide)
  have hcolon : ∀ c ∈ [':'], isPrintable c = true := List.forall_mem_of_all (by decide)
  cases i with
  | integer n =>
    rw [writeBareItem, toList_toString]
    exact List.forall_mem_append.mpr ⟨hsign _, printable_of_digits (isDigits_toDigits hi)⟩
  | decimal d =>
    obtain ⟨l, rfl⟩ := hi
    obtain ⟨l', htext, -⟩ := hL.show_read l
    rw [writeBareItem, htext]
    refine List.forall_mem_append.mpr ⟨hsign _, List.forall_mem_append.mpr
      ⟨printable_of_digits l'.whole_digits, List.forall_mem_cons.mpr ⟨by decide, ?_⟩⟩⟩
    exact printable_of_digits l'.frac_digits
  | string s =>
    refine List.forall_mem_cons.mpr ⟨by decide, List.forall_mem_append.mpr ⟨?_, hquote⟩⟩
    intro c hc
    cases mem_escape hc with
    | inl hslash =>
      rw [hslash]
      decide
    | inr hmem => exact hi c hmem
  | token t =>
    obtain ⟨c, cs, heq, hstart, hcs⟩ := hi
    rw [writeBareItem, heq]
    exact List.forall_mem_cons.mpr
      ⟨isPrintable_of_isTokenChar (isTokenChar_of_isTokenStart hstart),
        fun d hd => isPrintable_of_isTokenChar (hcs d hd)⟩
  | byteSeq b =>
    refine List.forall_mem_cons.mpr ⟨by decide, List.forall_mem_append.mpr ⟨?_, hcolon⟩⟩
    exact fun c hc => (isBase64Char_spec (hL.alphabet b c hc)).1
  | boolean b =>
    cases b with
    | true => exact @List.forall_mem_of_all _ ['?', '1'] _ _ (by decide)
    | false => exact @List.forall_mem_of_all _ ['?', '0'] _ _ (by decide)

/-- A field that holds the text of a bare item is read as that item. -/
theorem parseItemField_write (hL : L.Lawful) {i : BareItem δ} (hi : i.WellFormed L) :
    parseItemField L (writeBareItem L i) = some ⟨i, []⟩ := by
  have hread := @parseBareItem_write _ _ [] hL i hi fun c hc => absurd hc (Option.not_mem_none c)
  rw [List.append_nil] at hread
  obtain ⟨c, cs, htext, -, hc⟩ := head_of_parseBareItem hread
  have hascii : isAscii (writeBareItem L i) = true :=
    List.all_eq_true.mpr fun c hc =>
      decide_eq_true (isPrintable_ascii (writeBareItem_printable hL hi c hc))
  have hblank : (c == ' ') = false := (Bool.or_eq_false_iff.mp hc).1
  unfold parseItemField
  rw [if_pos hascii, htext, @dropWhile_head (· == ' ') _ _ hblank, ← htext, parseItem, hread]
  rfl

end StructuredFields
