import Cat.Lib.StructuredFields.Write

/-!
# The length of the input is fuel enough

The grammar of structured fields repeats without bound: parameters behind an item, items in an
inner list, members in a list. A parser of it by structural recursion needs a number to recurse
on, and the loops of this library carry one as fuel. Fuel is a device of the definition and not
of the format, so nothing may depend on how much of it there was. The outermost loop is the one
that callers start, with the length of the input for fuel, and for it this is
`parseMembers_fuel`: any two amounts that are no less than the length give the same result.

The reason is that each turn consumes something. There is one lemma for each parser that what it
leaves is shorter than what it was given, from the digits of a number up to a member of a list;
parameters alone may consume nothing, so theirs is `parseParameters_not_longer`. The induction
of the main lemma is then on the first amount, and each turn hands a shorter input to the
hypothesis.
-/

set_option autoImplicit false

namespace StructuredFields

variable {δ : Type} {L : Leaves δ} {input rest : List Char}

/-! ## What is left is shorter

Every parser leaves a rest of its input, and one that reads anything leaves a shorter one. Loops
go on only after they have read something.
-/

theorem parseDigits_shorter {negative : Bool} {i : BareItem δ}
    (h : parseDigits L negative input = some (i, rest)) : rest.length < input.length := by
  have hcut := congrArg List.length
    (List.takeWhile_append_dropWhile (p := Char.isDigit) (l := input))
  rw [List.length_append] at hcut
  simp only [parseDigits] at h
  split at h
  · rename_i frac heq
    obtain ⟨l, -, hpair⟩ := Option.map_eq_some_iff.mp h
    obtain ⟨-, rfl⟩ := Prod.mk.inj hpair
    have hle := List.length_dropWhile_le Char.isDigit frac
    rw [heq, List.length_cons] at hcut
    omega
  · split at h
    · rename_i hdigits
      obtain ⟨-, rfl⟩ := Prod.mk.inj (Option.some.inj h)
      have hpos := List.length_pos_of_ne_nil (isDigits_iff.mp hdigits).1
      omega
    · cases h

theorem parseString_shorter {cs : List Char} (h : parseString input = some (cs, rest)) :
    rest.length < input.length := by
  induction hn : input.length using Nat.strong_induction_on generalizing input cs with
  | _ n ih =>
    cases input with
    | nil => cases h
    | cons c input =>
      rw [List.length_cons] at hn
      rcases parseString_cases h with ⟨-, -, rfl⟩ |
        ⟨-, d, input', cs', rfl, -, -, hrest⟩ | ⟨-, -, -, cs', -, hrest⟩
      · omega
      · rw [List.length_cons] at hn
        have := ih input'.length (by omega) hrest rfl
        omega
      · have := ih input.length (by omega) hrest rfl
        omega

theorem parseByteSeq_shorter {i : BareItem δ} (h : parseByteSeq L input = some (i, rest)) :
    rest.length < input.length := by
  unfold parseByteSeq at h
  split at h
  · cases h
  · rename_i content after heq
    split at h
    · obtain ⟨b, -, hpair⟩ := Option.map_eq_some_iff.mp h
      obtain ⟨-, rfl⟩ := Prod.mk.inj hpair
      rw [(List.splitOnce_eq_some.mp heq).1, List.length_append, List.length_cons]
      omega
    · cases h

theorem parseBoolean_shorter {i : BareItem δ} (h : parseBoolean input = some (i, rest)) :
    rest.length < input.length := by
  unfold parseBoolean at h
  split at h
  · obtain ⟨-, rfl⟩ := Prod.mk.inj (Option.some.inj h)
    exact Nat.lt_succ_self _
  · obtain ⟨-, rfl⟩ := Prod.mk.inj (Option.some.inj h)
    exact Nat.lt_succ_self _
  · cases h

theorem parseBareItem_shorter {i : BareItem δ} (h : parseBareItem L input = some (i, rest)) :
    rest.length < input.length := by
  cases input with
  | nil => cases h
  | cons c input =>
    rw [List.length_cons]
    rw [parseBareItem] at h
    split at h
    · exact Nat.lt_succ_of_lt (parseDigits_shorter h)
    split at h
    · exact parseDigits_shorter h
    split at h
    · obtain ⟨p, hp, hpair⟩ := Option.map_eq_some_iff.mp h
      obtain ⟨-, rfl⟩ := Prod.mk.inj hpair
      exact Nat.lt_succ_of_lt (parseString_shorter hp)
    split at h
    · obtain ⟨-, rfl⟩ := Prod.mk.inj (Option.some.inj h)
      exact Nat.lt_succ_of_le (List.length_dropWhile_le _ _)
    split at h
    · exact Nat.lt_succ_of_lt (parseByteSeq_shorter h)
    split at h
    · exact Nat.lt_succ_of_lt (parseBoolean_shorter h)
    · cases h

theorem parseKey_shorter {key : String} (h : parseKey input = some (key, rest)) :
    rest.length < input.length := by
  cases input with
  | nil => cases h
  | cons c input =>
    rw [parseKey] at h
    split at h
    · obtain ⟨-, rfl⟩ := Prod.mk.inj (Option.some.inj h)
      exact Nat.lt_succ_of_le (List.length_dropWhile_le _ _)
    · cases h

theorem parseParameter_shorter {params params' : Parameters δ}
    (h : parseParameter L params input = some (params', rest)) : rest.length < input.length := by
  have hle := List.length_dropWhile_le (· == ' ') input
  obtain ⟨⟨key, mid⟩, hkey, h⟩ := Option.bind_eq_some_iff.mp h
  have hmid := parseKey_shorter hkey
  dsimp only at h
  split at h
  · obtain ⟨⟨value, after⟩, hvalue, h⟩ := Option.bind_eq_some_iff.mp h
    obtain ⟨-, rfl⟩ := Prod.mk.inj (Option.some.inj h)
    have hafter := parseBareItem_shorter hvalue
    rw [List.length_cons] at hmid
    show after.length < input.length
    omega
  · obtain ⟨-, rfl⟩ := Prod.mk.inj (Option.some.inj h)
    omega

/-- Parameters go on at a semicolon and end at anything else. Stated once, so that each proof about
    the loop splits on the same two cases. -/
theorem semicolon_or_none (input : List Char) :
    (∀ c ∈ input.head?, c ≠ ';') ∨ ∃ rest, input = ';' :: rest := by
  cases input with
  | nil => exact .inl fun c hc => absurd hc (Option.not_mem_none c)
  | cons c rest =>
    by_cases hc : c = ';'
    · exact .inr ⟨rest, by rw [hc]⟩
    · exact .inl fun d hd => Option.some.inj hd ▸ hc

/-- There may be no parameters at all, and then nothing is consumed. -/
theorem parseParameters_not_longer {fuel : Nat} {params params' : Parameters δ}
    (h : parseParameters L fuel params input = some (params', rest)) :
    rest.length ≤ input.length := by
  induction fuel generalizing params input with
  | zero =>
    rcases semicolon_or_none input with hnone | ⟨after, rfl⟩
    · rw [parseParameters_none hnone] at h
      rw [(Prod.mk.inj (Option.some.inj h)).2]
    · cases h
  | succ fuel ih =>
    rcases semicolon_or_none input with hnone | ⟨after, rfl⟩
    · rw [parseParameters_none hnone] at h
      rw [(Prod.mk.inj (Option.some.inj h)).2]
    · rw [parseParameters_semicolon] at h
      obtain ⟨p, hparam, h⟩ := Option.bind_eq_some_iff.mp h
      have hmid := parseParameter_shorter hparam
      have hrest := ih h
      rw [List.length_cons]
      omega

theorem parseItem_shorter {item : Item δ} (h : parseItem L input = some (item, rest)) :
    rest.length < input.length := by
  obtain ⟨mid, hbare, hparams⟩ := parseItem_eq_some h
  exact Nat.lt_of_le_of_lt (parseParameters_not_longer hparams) (parseBareItem_shorter hbare)

/-- An inner list consumes at least the parenthesis that closes it. -/
theorem parseInnerItems_shorter {fuel : Nat} {items : List (Item δ)}
    (h : parseInnerItems L fuel input = some (items, rest)) : rest.length < input.length := by
  induction fuel generalizing input items with
  | zero => cases h
  | succ fuel ih =>
    have hle := List.length_dropWhile_le (· == ' ') input
    rw [parseInnerItems] at h
    split at h
    · rename_i heq
      obtain ⟨-, rfl⟩ := Prod.mk.inj (Option.some.inj h)
      rw [heq, List.length_cons] at hle
      omega
    · obtain ⟨⟨item, mid⟩, hitem, h⟩ := Option.bind_eq_some_iff.mp h
      have hmid := parseItem_shorter hitem
      dsimp only at h
      split at h
      · obtain ⟨⟨more, after⟩, hmore, h⟩ := Option.bind_eq_some_iff.mp h
        obtain ⟨-, rfl⟩ := Prod.mk.inj (Option.some.inj h)
        have hafter : after.length < mid.length := ih hmore
        show after.length < input.length
        omega
      · cases h

theorem parseEntry_shorter {entry : ListEntry δ} (h : parseEntry L input = some (entry, rest)) :
    rest.length < input.length := by
  unfold parseEntry at h
  split at h
  · obtain ⟨⟨items, mid⟩, hitems, h⟩ := Option.bind_eq_some_iff.mp h
    obtain ⟨⟨params, after⟩, hparams, h⟩ := Option.bind_eq_some_iff.mp h
    obtain ⟨-, rfl⟩ := Prod.mk.inj (Option.some.inj h)
    have hmid := parseInnerItems_shorter hitems
    have hafter := parseParameters_not_longer hparams
    show after.length < _ + 1
    omega
  · obtain ⟨⟨item, after⟩, hitem, h⟩ := Option.bind_eq_some_iff.mp h
    obtain ⟨-, rfl⟩ := Prod.mk.inj (Option.some.inj h)
    exact parseItem_shorter hitem

/-! ## More fuel

So the length of the input bounds the turns, and a loop with more fuel than that does what it
does with less.
-/

/-- **More fuel than characters changes nothing.** -/
theorem parseMembers_fuel {m n : Nat} (hm : input.length ≤ m) (hn : input.length ≤ n) :
    parseMembers L m input = parseMembers L n input := by
  induction m generalizing n input with
  | zero =>
    obtain rfl := List.length_eq_zero_iff.mp (Nat.le_zero.mp hm)
    cases n <;> rfl
  | succ m ih =>
    cases n with
    | zero =>
      obtain rfl := List.length_eq_zero_iff.mp (Nat.le_zero.mp hn)
      rfl
    | succ n =>
      rw [parseMembers, parseMembers]
      apply Option.bind_congr
      intro p hp
      have hshorter := parseEntry_shorter hp
      dsimp only
      split
      · rfl
      · rename_i after heq
        have hafter := List.length_dropWhile_le isOws after
        have hmid := List.length_dropWhile_le isOws p.2
        rw [heq, List.length_cons] at hmid
        rw [ih (by omega) (show (after.dropWhile isOws).length ≤ n by omega)]
      · rfl

end StructuredFields
