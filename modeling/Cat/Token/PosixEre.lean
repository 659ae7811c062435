import Cat.Token.Validator
import Mathlib.Data.List.Induction
import Mathlib.Data.List.TakeDrop
import Mathlib.Data.List.TakeWhile

/-!
# POSIX extended regular expressions

`validate_posix_ere` looks for constructs of Perl's dialect in the characters of a pattern. Here
the pattern is cut into tokens, as POSIX cuts it (IEEE 1003.1-2017 §9.4): an escaped character,
a bracket expression, an interval, and any other character. Told in tokens, the function knows
some of the constructs (`KnownConstruct`), and takes what only looks like one inside a bracket
expression for one, because it does not know brackets.

There are two readers, then: the function reads characters, of which a backslash takes the next
one with it, and POSIX reads tokens. `LookAlike` is what the first of them stops at, and the
function rejects exactly that (`validatePosixEre_eq_none`). `lookAlike_text` compares the two
readers on a pattern cut into tokens: the first stops at a known construct, wherever it occurs,
or inside a bracket expression that looks like one. They never get out of step for longer than a
bracket expression, because the bracket that closes it cannot be swallowed together with
anything behind it (`lookAlike_bracket`).

What the function is to do is `AcceptsOnlyEre`. It is two things: no construct of Perl's is
accepted, and nothing is rejected because of what is inside brackets. The second is stated by
blanking the brackets and asking for the same verdict.
-/

set_option autoImplicit false

namespace Cat

/-! ## Tokens

A pattern is cut into its tokens as POSIX has it: escapes, bracket expressions, intervals, and
single characters otherwise. The cut is what decides whether a character means anything, so it
comes first and is shown to lose nothing.
-/

inductive EreToken where
  | escaped (c : Char)
  /-- What stands between `[` and `]`. -/
  | bracket (body : List Char)
  /-- What stands between `{` and `}`. -/
  | interval (bounds : List Char)
  /-- Any other character, one with a meaning of its own or not. -/
  | literal (c : Char)

namespace EreToken

def text : EreToken → List Char
  | escaped c => ['\\', c]
  | bracket body => '[' :: (body ++ [']'])
  | interval bounds => '{' :: (bounds ++ ['}'])
  | literal c => [c]

end EreToken

/-- The rest of a bracket expression, and what is behind it. Inside `[:`, `[=` or `[.` a bracket
closes nothing unless the same sign is before it. -/
def bracketRest : Option Char → List Char → Option (List Char × List Char)
  | some d, x :: ']' :: rest =>
    if x = d then (bracketRest none rest).map fun r => (x :: ']' :: r.1, r.2)
    else (bracketRest (some d) (']' :: rest)).map fun r => (x :: r.1, r.2)
  | some d, x :: rest => (bracketRest (some d) rest).map fun r => (x :: r.1, r.2)
  | none, ']' :: rest => some ([], rest)
  | none, '[' :: d :: rest =>
    if [':', '=', '.'].contains d && (rest.splitOnceAt [d, ']']).isSome then
      (bracketRest (some d) rest).map fun r => ('[' :: d :: r.1, r.2)
    else (bracketRest none (d :: rest)).map fun r => ('[' :: r.1, r.2)
  | none, x :: rest => (bracketRest none rest).map fun r => (x :: r.1, r.2)
  | _, [] => none

/-- A `]` that comes first stands for itself. -/
def bracketBody : List Char → Option (List Char × List Char)
  | '^' :: ']' :: rest => (bracketRest none rest).map fun r => ('^' :: ']' :: r.1, r.2)
  | ']' :: rest => (bracketRest none rest).map fun r => (']' :: r.1, r.2)
  | rest => bracketRest none rest

/-- `m`, `m,` or `m,n`. -/
def intervalBody (s : List Char) : Option (List Char × List Char) :=
  match s.span Char.isDigit with
  | ([], _) => none
  | (m, '}' :: rest) => some (m, rest)
  | (m, ',' :: rest) =>
    match rest.span Char.isDigit with
    | (n, '}' :: rest) => some (m ++ ',' :: n, rest)
    | _ => none
  | _ => none

section
variable {s body rest bounds : List Char} {d : Option Char}

/-- What is put in front of the body is in front of it in the text. -/
theorem eq_of_map_body {o : Option (List Char × List Char)} {text : List Char} (front : List Char)
    (ho : ∀ b, o = some (b, rest) → text = b ++ ']' :: rest)
    (h : (o.map fun r => (front ++ r.1, r.2)) = some (body, rest)) :
    front ++ text = body ++ ']' :: rest := by
  obtain ⟨⟨b, r⟩, hb, heq⟩ := Option.map_eq_some_iff.mp h
  obtain ⟨rfl, rfl⟩ := Prod.mk.inj heq
  rw [ho b hb, List.append_assoc]

theorem bracketRest_eq (h : bracketRest d s = some (body, rest)) : s = body ++ ']' :: rest := by
  induction d, s using bracketRest.induct generalizing body with
  | case1 x s ih =>
    rw [bracketRest, if_pos rfl] at h
    exact eq_of_map_body [x, ']'] (fun _ => ih) h
  | case2 d x s hx ih =>
    rw [bracketRest, if_neg hx] at h
    exact eq_of_map_body [x] (fun _ => ih) h
  | case3 d x s hs ih =>
    rw [bracketRest.eq_2 _ _ _ hs] at h
    exact eq_of_map_body [x] (fun _ => ih) h
  | case4 s =>
    rw [bracketRest] at h
    obtain ⟨rfl, rfl⟩ := Prod.mk.inj (Option.some.inj h)
    rfl
  | case5 d s hclass ih =>
    rw [bracketRest, if_pos hclass] at h
    exact eq_of_map_body ['[', d] (fun _ => ih) h
  | case6 d s hclass ih =>
    rw [bracketRest, if_neg hclass] at h
    exact eq_of_map_body ['['] (fun _ => ih) h
  | case7 x s hclose hopen ih =>
    rw [bracketRest.eq_5 _ _ hclose hopen] at h
    exact eq_of_map_body [x] (fun _ => ih) h
  | case8 d =>
    rw [bracketRest] at h
    cases h

/-- The parts are those of the text, with the closing bracket between them. -/
theorem bracketBody_eq (h : bracketBody s = some (body, rest)) : s = body ++ ']' :: rest := by
  unfold bracketBody at h
  split at h
  · exact eq_of_map_body ['^', ']'] (fun _ => bracketRest_eq) h
  · exact eq_of_map_body [']'] (fun _ => bracketRest_eq) h
  · exact bracketRest_eq h

theorem intervalBody_eq (h : intervalBody s = some (bounds, rest)) :
    s = bounds ++ '}' :: rest ∧ ∀ c ∈ bounds, c.isDigit = true ∨ c = ',' := by
  have hspan {t m r : List Char} (h : t.span Char.isDigit = (m, r)) :
      t = m ++ r ∧ ∀ c ∈ m, c.isDigit = true := by
    rw [List.span_eq_takeWhile_dropWhile] at h
    obtain ⟨rfl, rfl⟩ := Prod.mk.inj h
    exact ⟨List.takeWhile_append_dropWhile.symm, fun c hc => List.mem_takeWhile_imp hc⟩
  unfold intervalBody at h
  split at h
  · cases h
  · rename_i hm
    obtain ⟨rfl, hdigits⟩ := hspan hm
    obtain ⟨rfl, rfl⟩ := Prod.mk.inj (Option.some.inj h)
    exact ⟨rfl, fun c hc => .inl (hdigits c hc)⟩
  · rename_i hm
    obtain ⟨rfl, hdigits⟩ := hspan hm
    split at h
    · rename_i hn
      obtain ⟨rfl, hdigits'⟩ := hspan hn
      obtain ⟨rfl, rfl⟩ := Prod.mk.inj (Option.some.inj h)
      refine ⟨by simp, fun c hc => ?_⟩
      rcases List.mem_append.mp hc with hc | hc
      · exact .inl (hdigits c hc)
      · rcases List.mem_cons.mp hc with hc | hc
        · exact .inr hc
        · exact .inl (hdigits' c hc)
    · cases h
  · cases h

end

/-- The tokens of a pattern. A backslash at its end, and a bracket or a brace that is not closed,
are characters as any other. -/
def ereTokens : List Char → List EreToken
  | '\\' :: c :: rest => .escaped c :: ereTokens rest
  | '[' :: rest =>
    match _h : bracketBody rest with
    | some (body, rest') => .bracket body :: ereTokens rest'
    | none => .literal '[' :: ereTokens rest
  | '{' :: rest =>
    match _h : intervalBody rest with
    | some (bounds, rest') => .interval bounds :: ereTokens rest'
    | none => .literal '{' :: ereTokens rest
  | c :: rest => .literal c :: ereTokens rest
  | [] => []
termination_by s => s.length
decreasing_by
  · simp only [List.length_cons]
    omega
  · rw [bracketBody_eq _h]
    simp
    omega
  · simp
  · rw [(intervalBody_eq _h).1]
    simp
    omega
  · simp
  · simp

section
variable {rest rest' body bounds : List Char}

theorem ereTokens_bracket (h : bracketBody rest = some (body, rest')) :
    ereTokens ('[' :: rest) = .bracket body :: ereTokens rest' := by
  rw [ereTokens]
  split
  · rename_i heq
    obtain ⟨rfl, rfl⟩ := Prod.mk.inj (Option.some.inj (h.symm.trans heq))
    rfl
  · rename_i heq
    cases h.symm.trans heq

theorem ereTokens_open_bracket (h : bracketBody rest = none) :
    ereTokens ('[' :: rest) = .literal '[' :: ereTokens rest := by
  rw [ereTokens]
  split
  · rename_i heq
    cases h.symm.trans heq
  · rfl

theorem ereTokens_interval (h : intervalBody rest = some (bounds, rest')) :
    ereTokens ('{' :: rest) = .interval bounds :: ereTokens rest' := by
  rw [ereTokens]
  split
  · rename_i heq
    obtain ⟨rfl, rfl⟩ := Prod.mk.inj (Option.some.inj (h.symm.trans heq))
    rfl
  · rename_i heq
    cases h.symm.trans heq

theorem ereTokens_open_brace (h : intervalBody rest = none) :
    ereTokens ('{' :: rest) = .literal '{' :: ereTokens rest := by
  rw [ereTokens]
  split
  · rename_i heq
    cases h.symm.trans heq
  · rfl

end

/-! ## Constructs

What only Perl has is told in tokens (`PerlConstruct`), and so is the part of it that the
function looks for. What the function really finds it finds in characters (`LookAlike`).
-/

def EreToken.isQuantifier : EreToken → Prop
  | .literal c => c ∈ ['*', '+', '?']
  | .interval _ => True
  | _ => False

/-- A token that begins a construct that only Perl has, with what is behind it. -/
inductive PerlConstruct : EreToken → List EreToken → Prop where
  /-- Classes: digits, words, blanks, line ends. -/
  | shorthand {c : Char} {after : List EreToken} (h : c ∈ "dDwWsShHvVNRX".toList) :
      PerlConstruct (.escaped c) after
  | anchor {c : Char} {after : List EreToken} (h : c ∈ "bBAzZG".toList) :
      PerlConstruct (.escaped c) after
  | property {c : Char} {after : List EreToken} (h : c ∈ "pP".toList) :
      PerlConstruct (.escaped c) after
  | backReference {c : Char} {after : List EreToken} (h : c ∈ "123456789gk".toList) :
      PerlConstruct (.escaped c) after
  /-- Lookaround, a group without a number, a named group: all of them are `(?`. -/
  | group {after : List EreToken} : PerlConstruct (.literal '(') (.literal '?' :: after)
  | reluctant {t : EreToken} {after : List EreToken} (h : t.isQuantifier) :
      PerlConstruct t (.literal '?' :: after)
  | possessive {t : EreToken} {after : List EreToken} (h : t.isQuantifier) :
      PerlConstruct t (.literal '+' :: after)

def knownLetters : List Char := ['d', 'D', 'w', 'W', 's', 'S', 'b', 'B']

def knownMarks : List Char := ['*', '+', '?', '(']

/-- Those of them that the function looks for. -/
inductive KnownConstruct : EreToken → List EreToken → Prop where
  | letter {c : Char} {after : List EreToken} (h : c ∈ knownLetters) :
      KnownConstruct (.escaped c) after
  | mark {c : Char} {after : List EreToken} (h : c ∈ knownMarks) :
      KnownConstruct (.literal c) (.literal '?' :: after)

/-- It is in the pattern, outside of the bracket expressions. -/
def Occurs (construct : EreToken → List EreToken → Prop) (ts : List EreToken) : Prop :=
  ∃ t after, t :: after <:+ ts ∧ construct t after

/-- What looks like one of them to a reader of characters: a backslash goes with the character
behind it. -/
inductive LookAlike : List Char → Prop where
  | letter {c : Char} {rest : List Char} (h : c ∈ knownLetters) : LookAlike ('\\' :: c :: rest)
  | mark {c : Char} {rest : List Char} (h : c ∈ knownMarks) : LookAlike (c :: '?' :: rest)
  | skip {c : Char} {rest : List Char} (h : LookAlike rest) : LookAlike ('\\' :: c :: rest)
  | step {c : Char} {rest : List Char} (hc : c ≠ '\\') (h : LookAlike rest) :
      LookAlike (c :: rest)

/-- A bracket expression with nothing but a letter in it. -/
def EreToken.blank : EreToken → EreToken
  | .bracket _ => .bracket ['x']
  | t => t

/-- The pattern with all of its bracket expressions blank. -/
def blanked (pattern : List Char) : List Char :=
  ((ereTokens pattern).map EreToken.blank).flatMap EreToken.text

/-- Only patterns without such constructs are accepted, and none is rejected because of what is
inside its bracket expressions. -/
structure AcceptsOnlyEre (pattern : List Char) : Prop where
  dialect : validatePosixEre pattern = none → ¬Occurs PerlConstruct (ereTokens pattern)
  brackets : validatePosixEre (blanked pattern) = none → validatePosixEre pattern = none

section
variable {c : Char} {s rest body : List Char} {t : EreToken} {ts after : List EreToken}

theorem occurs_cons {construct : EreToken → List EreToken → Prop} :
    Occurs construct (t :: ts) ↔ construct t ts ∨ Occurs construct ts := by
  constructor
  · rintro ⟨u, after, hsuffix, h⟩
    rcases List.suffix_cons_iff.mp hsuffix with heq | hsuffix
    · obtain ⟨rfl, rfl⟩ := List.cons.inj heq
      exact .inl h
    · exact .inr ⟨u, after, hsuffix, h⟩
  · rintro (h | ⟨u, after, hsuffix, h⟩)
    · exact ⟨t, ts, List.suffix_rfl, h⟩
    · exact ⟨u, after, hsuffix.trans (List.suffix_cons t ts), h⟩

theorem not_occurs_nil {construct : EreToken → List EreToken → Prop} : ¬Occurs construct [] := by
  rintro ⟨t, after, hsuffix, -⟩
  cases List.suffix_nil.mp hsuffix

/-- What the function knows is Perl's. -/
theorem KnownConstruct.perl (h : KnownConstruct t after) : PerlConstruct t after := by
  cases h with
  | letter h =>
    have hletters : ∀ c ∈ knownLetters,
        c ∈ "dDwWsShHvVNRX".toList ∨ c ∈ "bBAzZG".toList :=
      List.forall_mem_of_all (by decide +kernel)
    rcases hletters _ h with h | h
    · exact .shorthand h
    · exact .anchor h
  | mark h =>
    have hmarks : ∀ c ∈ knownMarks, c = '(' ∨ c ∈ ['*', '+', '?'] :=
      List.forall_mem_of_all (by decide +kernel)
    rcases hmarks _ h with rfl | h
    · exact .group
    · exact .reluctant h

/-! ## The function, by characters

The loop of the source, step by step, comes to the search for a look-alike.
-/

theorem lookAlike_escape :
    LookAlike ('\\' :: c :: rest) ↔ c ∈ knownLetters ∨ LookAlike rest := by
  constructor
  · intro h
    cases h with
    | letter h => exact .inl h
    | mark h => exact absurd h (by decide)
    | skip h => exact .inr h
    | step hc h => exact absurd rfl hc
  · rintro (h | h)
    · exact .letter h
    · exact .skip h

theorem lookAlike_cons (h : c = '\\' → rest = []) :
    LookAlike (c :: rest) ↔ (c ∈ knownMarks ∧ rest.head? = some '?') ∨ LookAlike rest := by
  constructor
  · intro hlook
    cases hlook with
    | letter _ => cases h rfl
    | mark hc => exact .inl ⟨hc, rfl⟩
    | skip _ => cases h rfl
    | step _ hrest => exact .inr hrest
  · rintro (⟨hc, hhead⟩ | hrest)
    · obtain ⟨rest, rfl⟩ := List.head?_eq_some_iff.mp hhead
      exact .mark hc
    · refine .step (fun hc => ?_) hrest
      rw [h hc] at hrest
      cases hrest

theorem not_lookAlike_nil : ¬LookAlike [] := nofun

/-- **What is rejected is what looks like a construct**, wherever it is. -/
theorem validatePosixEre_eq_none : validatePosixEre s = none ↔ ¬LookAlike s := by
  have hescape {c : Char} {rest : List Char}
      (h : ∀ next rest', c = '\\' → rest = next :: rest' → False) : c = '\\' → rest = [] := by
    intro hc
    cases rest with
    | nil => rfl
    | cons next rest' => exact (h next rest' hc rfl).elim
  have hmarks (c : Char) : c ∈ knownMarks ↔ ((c = '*' ∨ c = '+') ∨ c = '?') ∨ c = '(' := by
    simp [knownMarks, or_assoc]
  induction s using validatePosixEre.induct with
  | case1 c rest h =>
    have hc : c ∈ knownLetters := List.contains_iff_mem.mp h
    rw [validatePosixEre, if_pos h]
    exact iff_of_false nofun fun hnot => hnot (lookAlike_escape.mpr (.inl hc))
  | case2 c rest h ih =>
    have hc : c ∉ knownLetters := fun hmem => h (List.contains_iff_mem.mpr hmem)
    rw [validatePosixEre, if_neg h]
    exact ih.trans (not_congr (lookAlike_escape.trans (or_iff_right hc)).symm)
  | case3 c rest hesc h =>
    rw [validatePosixEre.eq_2 _ _ hesc, if_pos h]
    refine iff_of_false nofun fun hnot => hnot ((lookAlike_cons (hescape hesc)).mpr (.inl ?_))
    simp only [Bool.and_eq_true, Bool.or_eq_true, beq_iff_eq] at h
    exact ⟨(hmarks c).mpr (.inl h.1), h.2⟩
  | case4 c rest hesc h h' =>
    rw [validatePosixEre.eq_2 _ _ hesc, if_neg h, if_pos h']
    refine iff_of_false nofun fun hnot => hnot ((lookAlike_cons (hescape hesc)).mpr (.inl ?_))
    simp only [Bool.and_eq_true, beq_iff_eq] at h'
    exact ⟨(hmarks c).mpr (.inr h'.1), h'.2⟩
  | case5 c rest hesc h h' ih =>
    rw [validatePosixEre.eq_2 _ _ hesc, if_neg h, if_neg h']
    refine ih.trans (not_congr ((lookAlike_cons (hescape hesc)).trans (or_iff_right ?_)).symm)
    simp only [Bool.and_eq_true, Bool.or_eq_true, beq_iff_eq] at h h'
    rintro ⟨hc, hhead⟩
    rcases (hmarks c).mp hc with hc | hc
    · exact h ⟨hc, hhead⟩
    · exact h' ⟨hc, hhead⟩
  | case6 => exact iff_of_true rfl not_lookAlike_nil

/-! ## The function, by tokens

The same search among tokens instead of characters. The two readings part inside of bracket
expressions, where a character is only itself; with these blank they agree.
-/

/-- A character that starts none of the constructs is passed over. -/
theorem lookAlike_plain (hc : c ≠ '\\') (hmark : c ∉ knownMarks) :
    LookAlike (c :: rest) ↔ LookAlike rest :=
  (lookAlike_cons fun h => absurd h hc).trans (or_iff_right fun h => hmark h.1)

theorem lookAlike_bounds {bounds : List Char} (h : ∀ c ∈ bounds, c.isDigit = true ∨ c = ',') :
    LookAlike (bounds ++ rest) ↔ LookAlike rest := by
  induction bounds with
  | nil => exact Iff.rfl
  | cons c bounds ih =>
    rw [List.forall_mem_cons] at h
    have hplain : c ≠ '\\' ∧ c ∉ knownMarks := by
      rcases h.1 with hdigit | rfl
      · have hmarks : ∀ d ∈ '\\' :: knownMarks, d.isDigit = false :=
          List.forall_mem_of_all (by decide +kernel)
        refine ⟨?_, fun hmem => ?_⟩
        · rintro rfl
          exact absurd hdigit (by decide)
        · rw [hmarks c (List.mem_cons_of_mem _ hmem)] at hdigit
          cases hdigit
      · decide
    exact (lookAlike_plain hplain.1 hplain.2).trans (ih h.2)

/-- A reader of characters may skip the closing bracket, but never goes past it: it reads on where
the bracket expression ends. -/
theorem lookAlike_bracket :
    LookAlike (body ++ ']' :: rest) ↔ LookAlike body ∨ LookAlike rest := by
  have hclose : LookAlike (']' :: rest) ↔ LookAlike rest := lookAlike_plain (by decide) (by decide)
  induction body using List.twoStepInduction with
  | nil => exact hclose.trans (or_iff_right not_lookAlike_nil).symm
  | singleton c =>
    by_cases hc : c = '\\'
    · subst hc
      have hletter : ']' ∉ knownLetters := by decide
      have hlone : ¬LookAlike ['\\'] := by
        rw [lookAlike_cons fun _ => rfl]
        rintro (⟨hmark, -⟩ | h)
        · exact absurd hmark (by decide)
        · exact not_lookAlike_nil h
      exact (lookAlike_escape.trans (or_iff_right hletter)).trans (or_iff_right hlone).symm
    · have hlone : ¬LookAlike [c] := by
        rw [lookAlike_cons fun _ => rfl]
        rintro (⟨-, hhead⟩ | h)
        · cases hhead
        · exact not_lookAlike_nil h
      rw [or_iff_right hlone, ← hclose]
      refine (lookAlike_cons fun h => absurd h hc).trans (or_iff_right fun h => ?_)
      exact absurd h.2 (by simp)
  | cons_cons c c' body ih ih' =>
    by_cases hc : c = '\\'
    · subst hc
      rw [lookAlike_escape, or_assoc]
      exact lookAlike_escape.trans (or_congr_right ih)
    · have hnot : ∀ P : Prop, c = '\\' → P := fun P h => absurd h hc
      rw [lookAlike_cons (hnot _), or_assoc]
      exact (lookAlike_cons (hnot _)).trans (or_congr_right (ih' c'))

/-- How a list of tokens may go on after a token. -/
def EreToken.Fits : EreToken → List EreToken → Prop
  | .literal c, after => c = '\\' → after = []
  | .interval bounds, _ => ∀ c ∈ bounds, c.isDigit = true ∨ c = ','
  | _, _ => True

inductive WellCut : List EreToken → Prop where
  | nil : WellCut []
  | cons {t : EreToken} {ts : List EreToken} (h : t.Fits ts) (rest : WellCut ts) :
      WellCut (t :: ts)

/-- Cutting loses nothing, and no token could have been cut in another way. -/
theorem wellCut_ereTokens (s : List Char) :
    WellCut (ereTokens s) ∧ (ereTokens s).flatMap EreToken.text = s := by
  induction s using ereTokens.induct with
  | case1 c rest ih =>
    rw [ereTokens]
    exact ⟨.cons trivial ih.1, by rw [List.flatMap_cons, ih.2]; rfl⟩
  | case2 rest body rest' hbody ih =>
    rw [ereTokens_bracket hbody, bracketBody_eq hbody]
    exact ⟨.cons trivial ih.1, by rw [List.flatMap_cons, ih.2]; simp [EreToken.text]⟩
  | case3 rest hbody ih =>
    rw [ereTokens_open_bracket hbody]
    exact ⟨.cons (fun h => absurd h (by decide)) ih.1, by rw [List.flatMap_cons, ih.2]; rfl⟩
  | case4 rest bounds rest' hbounds ih =>
    rw [ereTokens_interval hbounds, (intervalBody_eq hbounds).1]
    refine ⟨.cons (intervalBody_eq hbounds).2 ih.1, ?_⟩
    rw [List.flatMap_cons, ih.2]
    simp [EreToken.text]
  | case5 rest hbounds ih =>
    rw [ereTokens_open_brace hbounds]
    exact ⟨.cons (fun h => absurd h (by decide)) ih.1, by rw [List.flatMap_cons, ih.2]; rfl⟩
  | case6 c rest hesc hbracket hbrace ih =>
    rw [ereTokens.eq_4 _ _ hesc hbracket hbrace]
    refine ⟨.cons (fun hc => ?_) ih.1, by rw [List.flatMap_cons, ih.2]; rfl⟩
    cases rest with
    | nil => exact ereTokens.eq_5
    | cons c' rest => exact (hesc c' rest hc rfl).elim
  | case7 =>
    rw [ereTokens]
    exact ⟨.nil, rfl⟩

theorem head?_text :
    (ts.flatMap EreToken.text).head? = some '?' ↔ ∃ after, ts = .literal '?' :: after := by
  cases ts with
  | nil => simp
  | cons t ts =>
    cases t with
    | escaped c => simp [EreToken.text]
    | bracket body => simp [EreToken.text]
    | interval bounds => simp [EreToken.text]
    | literal c => simp [EreToken.text]

theorem knownConstruct_literal :
    KnownConstruct (.literal c) ts ↔ c ∈ knownMarks ∧ ∃ after, ts = .literal '?' :: after := by
  constructor
  · intro h
    cases h with
    | mark h => exact ⟨h, _, rfl⟩
  · rintro ⟨h, after, rfl⟩
    exact .mark h

theorem lookAlike_text (h : WellCut ts) :
    LookAlike (ts.flatMap EreToken.text) ↔
      Occurs KnownConstruct ts ∨ ∃ body, .bracket body ∈ ts ∧ LookAlike body := by
  induction h with
  | nil => simp [not_lookAlike_nil, not_occurs_nil]
  | @cons t ts hfits _ ih =>
    rw [occurs_cons, List.flatMap_cons]
    cases t with
    | escaped c =>
      have hknown : KnownConstruct (.escaped c) ts ↔ c ∈ knownLetters :=
        ⟨fun h => by cases h; assumption, .letter⟩
      rw [hknown, or_assoc]
      refine lookAlike_escape.trans (or_congr_right (ih.trans (or_congr_right ?_)))
      simp
    | bracket body =>
      have hnone : ¬KnownConstruct (.bracket body) ts := nofun
      -- The opening bracket is plain, so the body is searched for itself.
      have hopen : LookAlike ((EreToken.bracket body).text ++ ts.flatMap EreToken.text) ↔
          LookAlike (body ++ ']' :: ts.flatMap EreToken.text) := by
        have htext : (EreToken.bracket body).text ++ ts.flatMap EreToken.text =
            '[' :: (body ++ ']' :: ts.flatMap EreToken.text) := by simp [EreToken.text]
        rw [htext]
        exact lookAlike_plain (by decide) (by decide)
      rw [hopen, lookAlike_bracket, ih, or_iff_right hnone]
      simp only [List.mem_cons, EreToken.bracket.injEq, or_and_right, exists_or, exists_eq_left]
      exact or_left_comm
    | interval bounds =>
      have hnone : ¬KnownConstruct (.interval bounds) ts := nofun
      -- Nothing in an interval looks like a construct.
      have hopen : LookAlike ((EreToken.interval bounds).text ++ ts.flatMap EreToken.text) ↔
          LookAlike (ts.flatMap EreToken.text) := by
        have htext : (EreToken.interval bounds).text ++ ts.flatMap EreToken.text =
            '{' :: (bounds ++ '}' :: ts.flatMap EreToken.text) := by simp [EreToken.text]
        rw [htext, lookAlike_plain (by decide) (by decide), lookAlike_bounds hfits,
          lookAlike_plain (by decide) (by decide)]
      rw [hopen, ih, or_iff_right hnone]
      simp
    | literal c =>
      -- A mark is known by the question mark behind it.
      have hknown : KnownConstruct (.literal c) ts ↔
          c ∈ knownMarks ∧ (ts.flatMap EreToken.text).head? = some '?' := by
        rw [head?_text, knownConstruct_literal]
      have hlast : c = '\\' → ts.flatMap EreToken.text = [] := by
        intro hc
        rw [hfits hc]
        rfl
      rw [hknown, or_assoc]
      refine (lookAlike_cons hlast).trans (or_congr_right (ih.trans (or_congr_right ?_)))
      simp

theorem knownConstruct_blank :
    KnownConstruct t.blank (ts.map EreToken.blank) ↔ KnownConstruct t ts := by
  cases t with
  | escaped c =>
    constructor
    · intro h
      cases h with
      | letter h => exact .letter h
    · intro h
      cases h with
      | letter h => exact .letter h
  | bracket body => exact iff_of_false nofun nofun
  | interval bounds => exact iff_of_false nofun nofun
  | literal c =>
    have hmark : (∃ after, ts.map EreToken.blank = .literal '?' :: after) ↔
        ∃ after, ts = .literal '?' :: after := by
      cases ts with
      | nil => simp
      | cons u ts => cases u <;> simp [EreToken.blank]
    exact knownConstruct_literal.trans ((and_congr_right fun _ => hmark).trans
      knownConstruct_literal.symm)

/-- Blank brackets leave the rest as it is. -/
theorem occurs_blank :
    Occurs KnownConstruct (ts.map EreToken.blank) ↔ Occurs KnownConstruct ts := by
  induction ts with
  | nil => exact Iff.rfl
  | cons t ts ih => rw [List.map_cons, occurs_cons, occurs_cons, knownConstruct_blank, ih]

theorem WellCut.blank (h : WellCut ts) : WellCut (ts.map EreToken.blank) := by
  induction h with
  | nil => exact .nil
  | @cons t ts hfits _ ih =>
    refine .cons ?_ ih
    cases t with
    | escaped c => trivial
    | bracket body => trivial
    | interval bounds => exact hfits
    | literal c =>
      intro hc
      rw [hfits hc]
      rfl

theorem not_lookAlike_blank {body : List Char} (h : .bracket body ∈ ts.map EreToken.blank) :
    ¬LookAlike body := by
  obtain ⟨t, -, ht⟩ := List.mem_map.mp h
  cases t with
  | bracket body' =>
    injection ht with ht
    subst ht
    rw [lookAlike_plain (by decide) (by decide)]
    exact not_lookAlike_nil
  | escaped c => cases ht
  | interval bounds => cases ht
  | literal c => cases ht

/-- **Exactly the patterns without constructs of Perl's are accepted, as far as brackets go, if**
one of the known constructs occurs outside of the brackets, or nothing of Perl's does and nothing
inside looks like it.

The function looks for certain characters one behind the other and does not cut the pattern into
tokens. So it finds a construct in a bracket expression, where the characters stand for themselves,
and misses every construct that it has no characters for. -/
theorem validatePosixEre_iff (pattern : List Char) :
    AcceptsOnlyEre pattern ↔ Occurs KnownConstruct (ereTokens pattern) ∨
      (¬Occurs PerlConstruct (ereTokens pattern) ∧
        ∀ body, .bracket body ∈ ereTokens pattern → ¬LookAlike body) := by
  obtain ⟨hcut, htext⟩ := wellCut_ereTokens pattern
  have haccepts : validatePosixEre pattern = none ↔ ¬Occurs KnownConstruct (ereTokens pattern) ∧
      ∀ body, .bracket body ∈ ereTokens pattern → ¬LookAlike body := by
    have hlook := lookAlike_text hcut
    rw [htext] at hlook
    rw [validatePosixEre_eq_none, hlook, not_or, not_exists]
    simp only [not_and]
  have hblanked : validatePosixEre (blanked pattern) = none ↔
      ¬Occurs KnownConstruct (ereTokens pattern) := by
    rw [validatePosixEre_eq_none, blanked, lookAlike_text hcut.blank, occurs_blank, or_iff_left]
    rintro ⟨body, hbody, hlook⟩
    exact not_lookAlike_blank hbody hlook
  have hperl : Occurs KnownConstruct (ereTokens pattern) →
      Occurs PerlConstruct (ereTokens pattern) := by
    rintro ⟨t, after, hsuffix, h⟩
    exact ⟨t, after, hsuffix, h.perl⟩
  constructor
  · intro h
    by_cases hknown : Occurs KnownConstruct (ereTokens pattern)
    · exact .inl hknown
    · have hnone := h.brackets (hblanked.mpr hknown)
      exact .inr ⟨h.dialect hnone, (haccepts.mp hnone).2⟩
  · rintro (hknown | ⟨hperl', hbrackets⟩)
    · exact ⟨fun h => absurd hknown (haccepts.mp h).1, fun h => absurd hknown (hblanked.mp h)⟩
    · have hnone := haccepts.mpr ⟨fun h => hperl' (hperl h), hbrackets⟩
      exact ⟨fun _ => hperl', fun _ => hnone⟩

end

/-- Three patterns on which the function fails: one quantifier behind an interval and one reference,
    which it accepts, and a bracket expression, which it rejects. -/
theorem validatePosixEre_misses :
    ¬AcceptsOnlyEre "a\x7b2\x7d?".toList ∧ ¬AcceptsOnlyEre "(a)\\1".toList ∧
      ¬AcceptsOnlyEre "[*?]".toList := by
  have hinterval : ereTokens "a\x7b2\x7d?".toList = [.literal 'a', .interval ['2'], .literal '?'] := by
    have hbounds : intervalBody "2\x7d?".toList = some (['2'], ['?']) := by decide
    have htail : ereTokens "\x7b2\x7d?".toList = [.interval ['2'], .literal '?'] :=
      (ereTokens_interval hbounds).trans (by simp [ereTokens])
    have hfirst : ereTokens ('a' :: "\x7b2\x7d?".toList) = .literal 'a' :: ereTokens "\x7b2\x7d?".toList :=
      ereTokens.eq_4 _ _ nofun (by decide) (by decide)
    exact hfirst.trans (congrArg _ htail)
  have hreference : ereTokens "(a)\\1".toList =
      [.literal '(', .literal 'a', .literal ')', .escaped '1'] := by
    simp [ereTokens]
  have hbracket : ereTokens "[*?]".toList = [.bracket ['*', '?']] := by
    have hbody : bracketBody "*?]".toList = some (['*', '?'], []) := by decide
    exact (ereTokens_bracket hbody).trans (by rw [ereTokens])
  refine ⟨fun h => ?_, fun h => ?_, fun h => ?_⟩
  · refine h.dialect (by decide) ⟨.interval ['2'], [.literal '?'], ?_, .reluctant trivial⟩
    rw [hinterval]
    exact ⟨[.literal 'a'], rfl⟩
  · refine h.dialect (by decide) ⟨.escaped '1', [], ?_, .backReference (by decide)⟩
    rw [hreference]
    exact ⟨[.literal '(', .literal 'a', .literal ')'], rfl⟩
  · have hblanked : validatePosixEre (blanked "[*?]".toList) = none := by
      rw [blanked, hbracket]
      decide
    exact absurd (h.brackets hblanked) (by decide)

end Cat
