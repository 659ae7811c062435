import Cat.Uri.Paths

/-!
# Dot segments by the book

`remove_dot_segments` keeps a stack of segments, and its caller refers to RFC 3986 §5.2.4 for
it. That section rewrites an input buffer into an output buffer, and here it is as it stands
there. Told in segments (`rfcLoop_spelled`), it too keeps a stack, without the root on it. So
the two differ where the root is popped like any other segment, and where a slash is not written
because one is there already (`removeDotSegments_rfc_iff`).

The algorithm of the RFC is on characters and looks at prefixes of the buffer. A prefix of a
path is a prefix of its segments, and each rule of the RFC turns out to take one segment,
whatever characters it has; that is the first half. The second half is about two stacks over one
list of segments, and their contents are compared step by step: they are the same up to the root
for as long as nobody pops it.
-/

set_option autoImplicit false

namespace Cat

/-! ## The rewriting

The loop of RFC 3986 §5.2.4 with its five rules in their order. A turn always makes the input
shorter, so the length of the input is fuel enough.
-/

/-- The input begins with the path segment, complete. -/
def beginsWithSegment (segment input : List Char) : Bool :=
  List.isPrefixOf ('/' :: (segment ++ ['/'])) input || input == '/' :: segment

/-- The first path segment, with the slash before it if there is one. -/
def firstPathSegment : List Char → List Char
  | [] => []
  | c :: rest => c :: rest.takeWhile (· ≠ '/')

/-- Without the last segment and the slash before it. -/
def removeLastSegment (output : List Char) : List Char :=
  match output.rsplitOnce '/' with
  | some (front, _) => front
  | none => []

/-- One turn of the loop: A, B, C, D or E. -/
def rfcStep (input output : List Char) : List Char × List Char :=
  if List.isPrefixOf ['.', '.', '/'] input then (input.drop 3, output)
  else if List.isPrefixOf ['.', '/'] input then (input.drop 2, output)
  else if beginsWithSegment ['.'] input then ('/' :: input.drop 3, output)
  else if beginsWithSegment ['.', '.'] input then ('/' :: input.drop 4, removeLastSegment output)
  else if input = ['.'] ∨ input = ['.', '.'] then ([], output)
  else (input.drop (firstPathSegment input).length, output ++ firstPathSegment input)

/-- So many turns, or up to the end of the input. -/
def rfcLoop : Nat → List Char → List Char → List Char
  | 0, _, output => output
  | n + 1, input, output =>
    if input = [] then output
    else rfcLoop n (rfcStep input output).1 (rfcStep input output).2

/-- The path without dot segments. Every turn makes the input shorter. -/
def rfcRemoveDotSegments (path : List Char) : List Char := rfcLoop path.length path []

/-! ## In segments

A buffer is segments with a slash before each, and one turn takes one of them. The rules for
dots at the end of the input leave an empty segment, which is the slash that a directory ends
in.
-/

/-- The segments, each with a slash before it. -/
def spelled (segments : List (List Char)) : List Char := segments.flatMap ('/' :: ·)

/-- What is left over by a dot segment at the end. -/
def closing (segments : List (List Char)) : List (List Char) :=
  if ∃ s ∈ segments.getLast?, isDotSegment s then [[]] else []

section
variable {s r : List Char} {segments out : List (List Char)}

theorem spelled_append (as bs : List (List Char)) :
    spelled (as ++ bs) = spelled as ++ spelled bs := List.flatMap_append

theorem spelled_singleton (s : List Char) : spelled [s] = '/' :: s := List.append_nil _

theorem spelled_cons_cons (s t : List Char) (segments : List (List Char)) :
    spelled (s :: t :: segments) = '/' :: (s ++ '/' :: (t ++ spelled segments)) := rfl

theorem intercalate_eq_spelled (h : segments ≠ []) :
    '/' :: ['/'].intercalate segments = spelled segments := by
  induction segments with
  | nil => exact absurd rfl h
  | cons s segments ih =>
    cases segments with
    | nil => rw [spelled_singleton, List.intercalate_singleton]
    | cons t segments =>
      rw [List.intercalate_cons_cons, List.append_assoc, List.singleton_append,
        ih (List.cons_ne_nil _ _)]
      rfl

theorem removeLastSegment_spelled (h : ∀ s ∈ out, '/' ∉ s) :
    removeLastSegment (spelled out) = spelled out.dropLast := by
  cases List.eq_nil_or_concat out with
  | inl hnil =>
    subst hnil
    rfl
  | inr hconcat =>
    obtain ⟨front, s, rfl⟩ := hconcat
    have hs : '/' ∉ s := h s (by simp)
    have hsplit : (spelled (front ++ [s])).rsplitOnce '/' = some (spelled front, s) := by
      apply List.rsplitOnce_eq_some.mpr
      rw [spelled_append, spelled_singleton]
      exact ⟨rfl, hs⟩
    rw [List.concat_eq_append, removeLastSegment, hsplit, List.dropLast_concat]

/-- What is after a segment begins with the slash of the next one, if there is one. -/
def AfterSegment (r : List Char) : Prop := r = [] ∨ ∃ r', r = '/' :: r'

theorem beginsWithSegment_iff {d : List Char} (hd : '/' ∉ d) (hs : '/' ∉ s)
    (hr : AfterSegment r) : beginsWithSegment d ('/' :: (s ++ r)) = true ↔ s = d := by
  unfold beginsWithSegment
  rw [Bool.or_eq_true, List.isPrefixOf_iff_prefix, beq_iff_eq, List.cons_prefix_cons,
    List.cons.injEq, and_iff_right rfl, and_iff_right rfl]
  constructor
  · intro h
    cases hr with
    | inl hnil =>
      rw [hnil, List.append_nil] at h
      cases h with
      | inl hpre => exact absurd (hpre.subset (by simp)) hs
      | inr heq => exact heq
    | inr hslash =>
      obtain ⟨r', rfl⟩ := hslash
      cases h with
      | inl hpre =>
        obtain ⟨q, hq⟩ := hpre
        have hsplit := congrArg (List.splitOnce '/') hq
        rw [List.append_assoc, List.singleton_append, List.splitOnce_append hd,
          List.splitOnce_append hs] at hsplit
        exact (Prod.mk.inj (Option.some.inj hsplit)).1.symm
      | inr heq => exact absurd (heq ▸ by simp) hd
  · intro h
    subst h
    cases hr with
    | inl hnil =>
      rw [hnil, List.append_nil]
      exact .inr rfl
    | inr hslash =>
      obtain ⟨r', rfl⟩ := hslash
      exact .inl ⟨r', List.append_assoc s ['/'] r'⟩

/-- One turn takes one segment. -/
theorem rfcStep_segment (hs : '/' ∉ s) (hr : AfterSegment r) (output : List Char) :
    rfcStep ('/' :: (s ++ r)) output =
      if s = ['.'] then ('/' :: ('/' :: (s ++ r)).drop 3, output)
      else if s = ['.', '.'] then ('/' :: ('/' :: (s ++ r)).drop 4, removeLastSegment output)
      else (r, output ++ '/' :: s) := by
  have hbegins : ∀ d, '/' ∉ d → (beginsWithSegment d ('/' :: (s ++ r)) = true ↔ s = d) :=
    fun d hd => beginsWithSegment_iff hd hs hr
  have hfirst : firstPathSegment ('/' :: (s ++ r)) = '/' :: s := by
    have hwhile : (s ++ r).takeWhile (· ≠ '/') = s := by
      rw [List.takeWhile_append_of_pos]
      · cases hr with
        | inl hnil => rw [hnil, List.takeWhile_nil, List.append_nil]
        | inr hslash =>
          obtain ⟨r', rfl⟩ := hslash
          rw [List.takeWhile_cons_of_neg (by simp), List.append_nil]
      · intro c hc
        rw [decide_eq_true_iff]
        intro heq
        exact hs (heq ▸ hc)
    rw [firstPathSegment, hwhile]
  have hone : beginsWithSegment ['.'] ('/' :: (s ++ r)) = true ↔ s = ['.'] := hbegins _ (by decide)
  have htwo : beginsWithSegment ['.', '.'] ('/' :: (s ++ r)) = true ↔ s = ['.', '.'] :=
    hbegins _ (by decide)
  have hslash : ¬('/' :: (s ++ r) = ['.'] ∨ '/' :: (s ++ r) = ['.', '.']) := by simp
  unfold rfcStep
  rw [if_neg (by simp [List.isPrefixOf]), if_neg (by simp [List.isPrefixOf])]
  simp only [hone, htwo, if_neg hslash, hfirst]
  congr 2
  rw [List.length_cons, List.drop_succ_cons, List.drop_left]

theorem keepSegment_free (hs : '/' ∉ s) (hout : ∀ s ∈ out, '/' ∉ s) :
    ∀ t ∈ keepSegment out s, '/' ∉ t := by
  intro t ht
  unfold keepSegment at ht
  split at ht
  · exact hout t ht
  split at ht
  · exact hout t (List.dropLast_subset out ht)
  · cases List.mem_append.mp ht with
    | inl hmem => exact hout t hmem
    | inr hmem => rwa [List.mem_singleton.mp hmem]

theorem rfcLoop_nil (n : Nat) (output : List Char) : rfcLoop n [] output = output := by
  cases n with
  | zero => rfl
  | succ n => rfl

/-- A slash alone is an empty segment. -/
theorem rfcLoop_slash {n : Nat} (hn : 1 ≤ n) (output : List Char) :
    rfcLoop n ['/'] output = output ++ ['/'] := by
  obtain ⟨m, rfl⟩ := Nat.exists_eq_add_of_le' hn
  exact rfcLoop_nil m (output ++ ['/'])

theorem closing_cons_cons (s t : List Char) (segments : List (List Char)) :
    closing (s :: t :: segments) = closing (t :: segments) := by
  rw [closing, closing, List.getLast?_cons_cons]

theorem closing_singleton (s : List Char) :
    closing [s] = if isDotSegment s then [[]] else [] := by
  simp [closing]

/-- **The loop, in segments**: the stack of kept segments, and an empty one for a dot segment at
    the end. -/
theorem rfcLoop_spelled {n : Nat} (hne : segments ≠ []) (hfree : ∀ s ∈ segments, '/' ∉ s)
    (hout : ∀ s ∈ out, '/' ∉ s) (hn : (spelled segments).length ≤ n) :
    rfcLoop n (spelled segments) (spelled out) =
      spelled (segments.foldl keepSegment out ++ closing segments) := by
  induction segments generalizing n out with
  | nil => exact absurd rfl hne
  | cons s segments ih =>
    obtain ⟨hs, hsegments⟩ := List.forall_mem_cons.mp hfree
    have hkept := keepSegment_free hs hout
    rw [List.foldl_cons]
    cases segments with
    | nil =>
      have hlength : s.length + 1 ≤ n := by
        rw [spelled_singleton] at hn
        exact hn
      obtain ⟨m, rfl⟩ := Nat.exists_eq_add_of_le' (Nat.le_trans (Nat.le_add_left 1 _) hlength)
      have hturn : rfcLoop (m + 1) (spelled [s]) (spelled out) =
          rfcLoop m (rfcStep ('/' :: (s ++ [])) (spelled out)).1
            (rfcStep ('/' :: (s ++ [])) (spelled out)).2 := by
        rw [spelled_singleton, List.append_nil, rfcLoop, if_neg (List.cons_ne_nil _ _)]
      rw [hturn, rfcStep_segment hs (.inl rfl), closing_singleton, List.foldl_nil, keepSegment]
      -- what is left of a dot segment is a slash, and that takes another turn
      by_cases hone : s = ['.']
      · subst hone
        rw [if_pos rfl, if_pos rfl, if_pos (.inl rfl), spelled_append]
        exact rfcLoop_slash (Nat.le_of_succ_le_succ hlength) _
      · rw [if_neg hone, if_neg hone]
        by_cases htwo : s = ['.', '.']
        · subst htwo
          rw [if_pos rfl, if_pos rfl, if_pos (.inr rfl), spelled_append,
            removeLastSegment_spelled hout]
          exact rfcLoop_slash (Nat.le_trans (by decide) (Nat.le_of_succ_le_succ hlength)) _
        · have hplain : ¬isDotSegment s := not_or.mpr ⟨hone, htwo⟩
          rw [if_neg htwo, if_neg htwo, if_neg hplain, List.append_nil, spelled_append,
            spelled_singleton]
          exact rfcLoop_nil m _
    | cons t segments =>
      have hlength : (spelled (t :: segments)).length + 1 ≤ n := by
        have heq : (spelled (s :: t :: segments)).length =
            s.length + (spelled (t :: segments)).length + 1 := by
          show ('/' :: (s ++ spelled (t :: segments))).length = _
          rw [List.length_cons, List.length_append]
        omega
      obtain ⟨m, rfl⟩ := Nat.exists_eq_add_of_le' (Nat.le_trans (Nat.le_add_left 1 _) hlength)
      have hturn : rfcStep (spelled (s :: t :: segments)) (spelled out) =
          (spelled (t :: segments), spelled (keepSegment out s)) := by
        rw [spelled_cons_cons, rfcStep_segment hs (.inr ⟨_, rfl⟩), keepSegment]
        split
        · rename_i hone
          subst hone
          rfl
        split
        · rename_i htwo
          subst htwo
          rw [removeLastSegment_spelled hout]
          rfl
        · rw [spelled_append, spelled_singleton]
          rfl
      have hnonempty : ¬spelled (s :: t :: segments) = [] := List.cons_ne_nil _ _
      rw [rfcLoop, if_neg hnonempty, hturn, closing_cons_cons]
      exact ih (List.cons_ne_nil _ _) hsegments hkept (Nat.le_of_succ_le_succ hlength)

end

/-! ## Where the root goes

Splitting an absolute path gives an empty segment in front, and the source keeps it on its
stack. A `..` with nothing else to take along takes this one, and the slash at the start of the
result is gone.
-/

/-- A `..` finds no segment to take along. -/
def climbs : Nat → List (List Char) → Bool
  | _, [] => false
  | depth, s :: segments =>
    if s = ['.'] then climbs depth segments
    else if s = ['.', '.'] then depth == 0 || climbs (depth - 1) segments
    else climbs (depth + 1) segments

section
variable {segments out : List (List Char)}

/-- The root stays at the bottom of the stack, or it is popped and then missing. -/
theorem foldl_keepSegment_root :
    segments.foldl keepSegment ([] :: out) =
      if climbs out.length segments then segments.foldl keepSegment out
      else [] :: segments.foldl keepSegment out := by
  induction segments generalizing out with
  | nil => rfl
  | cons s segments ih =>
    rw [List.foldl_cons, List.foldl_cons, climbs, keepSegment, keepSegment]
    split
    · exact ih
    split
    · cases List.eq_nil_or_concat out with
      | inl hnil =>
        subst hnil
        rfl
      | inr hconcat =>
        obtain ⟨front, last, rfl⟩ := hconcat
        rw [List.concat_eq_append, List.length_append, List.length_singleton,
          List.dropLast_concat, ← List.cons_append, List.dropLast_concat]
        exact ih
    · rw [List.cons_append, ih, List.length_append, List.length_singleton]

theorem foldl_keepSegment_free (hfree : ∀ s ∈ segments, '/' ∉ s) (hout : ∀ s ∈ out, '/' ∉ s) :
    ∀ s ∈ segments.foldl keepSegment out, '/' ∉ s := by
  induction segments generalizing out with
  | nil => exact hout
  | cons s segments ih =>
    obtain ⟨hs, hsegments⟩ := List.forall_mem_cons.mp hfree
    exact ih hsegments (keepSegment_free hs hout)

/-- A path leaves nothing only if it ends in a dot segment. -/
theorem closing_of_foldl_nil (hne : segments ≠ [])
    (hnil : segments.foldl keepSegment out = []) : closing segments = [[]] := by
  cases List.eq_nil_or_concat segments with
  | inl h => exact absurd h hne
  | inr hconcat =>
    obtain ⟨front, last, rfl⟩ := hconcat
    rw [List.concat_eq_append] at hnil ⊢
    rw [List.foldl_append, List.foldl_cons, List.foldl_nil, keepSegment] at hnil
    have hdot : isDotSegment last := by
      split at hnil
      · rename_i hone
        exact .inl hone
      split at hnil
      · rename_i htwo
        exact .inr htwo
      · exact absurd hnil (by simp)
    rw [closing, if_pos ⟨last, by simp, hdot⟩]

/-- Whether the path ends in a dot segment can be seen from its last characters. -/
theorem endsInDot_iff (hne : segments ≠ []) (hfree : ∀ s ∈ segments, '/' ∉ s) :
    ("/.".toList.isSuffixOf (spelled segments) || "/..".toList.isSuffixOf (spelled segments)) =
      true ↔ closing segments = [[]] := by
  cases List.eq_nil_or_concat segments with
  | inl h => exact absurd h hne
  | inr hconcat =>
    obtain ⟨front, last, rfl⟩ := hconcat
    have hlast : '/' ∉ last := hfree last (by simp)
    have hsuffix : ∀ d : List Char, '/' ∉ d →
        (('/' :: d).isSuffixOf (spelled (front ++ [last])) = true ↔ last = d) := by
      intro d hd
      rw [List.isSuffixOf_iff_suffix, spelled_append, spelled_singleton]
      constructor
      · intro h
        obtain ⟨before, hbefore⟩ := h
        have hsplit := congrArg (List.rsplitOnce '/') hbefore
        rw [List.rsplitOnce_eq_some.mpr ⟨rfl, hd⟩, List.rsplitOnce_eq_some.mpr ⟨rfl, hlast⟩]
          at hsplit
        exact (Prod.mk.inj (Option.some.inj hsplit)).2.symm
      · intro h
        exact h ▸ List.suffix_append _ _
    have hone : "/.".toList.isSuffixOf (spelled (front ++ [last])) = true ↔ last = ['.'] :=
      hsuffix ['.'] (by decide)
    have htwo : "/..".toList.isSuffixOf (spelled (front ++ [last])) = true ↔ last = ['.', '.'] :=
      hsuffix ['.', '.'] (by decide)
    rw [List.concat_eq_append, Bool.or_eq_true, hone, htwo, closing, List.getLast?_concat]
    simp only [Option.mem_def, Option.some.injEq, exists_eq_left', isDotSegment]
    split
    · rename_i hdot
      exact iff_of_true hdot rfl
    · rename_i hdot
      exact iff_of_false hdot (by simp)

end

/-! ## Side by side

The source restores a slash in front and one at the end, each only if there is none. The
rewriting writes them in any case. The difference shows where what is left begins, or ends, with
an empty segment.
-/

/-- With a slash in front, if there is none yet. -/
def rooted (result : List Char) : List Char :=
  if List.isPrefixOf ['/'] result then result else '/' :: result

/-- With a slash at the end for a dot segment there, if there is none yet. -/
def finished (endsInDot : Bool) (result : List Char) : List Char :=
  if endsInDot && !List.isSuffixOf ['/'] result then result ++ ['/'] else result

/-- The last segment is a dot segment. -/
def endsInDot (path : List Char) : Bool :=
  "/.".toList.isSuffixOf path || "/..".toList.isSuffixOf path

/-- The path has a `..` with nothing before it to take along. -/
def climbsAboveRoot (path : List Char) : Bool := climbs 0 (path.splitOn '/').tail

section
variable {rest : List Char} {segments : List (List Char)}

theorem removeDotSegments_slash (rest : List Char) :
    removeDotSegments ('/' :: rest) =
      finished (endsInDot ('/' :: rest))
        (rooted (['/'].intercalate (keptSegments ('/' :: rest)))) := by
  have hroot : ∀ result : List Char,
      (if !(List.isPrefixOf ['/'] result) && List.isPrefixOf ['/'] ('/' :: rest)
        then '/' :: result else result) = rooted result := by
    intro result
    unfold rooted
    cases List.isPrefixOf ['/'] result with
    | true => rfl
    | false => rfl
  rw [removeDotSegments_eq]
  dsimp only
  rw [hroot]
  rfl

theorem splitOn_slash (rest : List Char) :
    ('/' :: rest).splitOn '/' = [] :: rest.splitOn '/' :=
  List.splitOn_append_cons_self_of_not_mem (show '/' ∉ ([] : List Char) from List.not_mem_nil) rest

theorem spelled_splitOn (rest : List Char) : spelled (rest.splitOn '/') = '/' :: rest := by
  rw [← intercalate_eq_spelled (List.splitOn_ne_nil _ _), List.intercalate_splitOn]

theorem rooted_spelled (h : segments ≠ []) : rooted (spelled segments) = spelled segments := by
  cases segments with
  | nil => exact absurd rfl h
  | cons s segments => rfl

/-- Under the root the segments are spelt with their slashes. -/
theorem intercalate_root (segments : List (List Char)) :
    rooted (['/'].intercalate ([] :: segments)) =
      if segments = [] then ['/'] else spelled segments := by
  cases segments with
  | nil => rfl
  | cons s segments =>
    rw [if_neg (List.cons_ne_nil _ _), List.intercalate_cons_cons, List.nil_append,
      List.singleton_append, intercalate_eq_spelled (List.cons_ne_nil _ _),
      rooted_spelled (List.cons_ne_nil _ _)]

/-- Without it so too, if the first of them is not empty. -/
theorem intercalate_plain {s : List Char} (hs : '/' ∉ s) (hne : s ≠ []) :
    rooted (['/'].intercalate (s :: segments)) = spelled (s :: segments) := by
  rw [← intercalate_eq_spelled (List.cons_ne_nil _ _), rooted, if_neg]
  rw [List.isPrefixOf_iff_prefix]
  cases s with
  | nil => exact absurd rfl hne
  | cons c s =>
    have hc : '/' ≠ c := fun heq => hs (heq ▸ List.mem_cons_self)
    intro h
    cases segments with
    | nil =>
      rw [List.intercalate_singleton] at h
      exact hc (List.cons_prefix_cons.mp h).1
    | cons t segments =>
      rw [List.intercalate_cons_cons, List.cons_append, List.cons_append] at h
      exact hc (List.cons_prefix_cons.mp h).1

theorem slashes_suffix_iff {result : List Char} :
    "//".toList <:+ result ++ ['/'] ↔ ['/'] <:+ result := by
  constructor
  · intro h
    obtain ⟨before, hbefore⟩ := h
    have hcut : before ++ ['/'] ++ ['/'] = result ++ ['/'] := by
      rw [← hbefore, List.append_assoc]
      rfl
    exact ⟨before, List.append_cancel_right hcut⟩
  · intro h
    obtain ⟨before, rfl⟩ := h
    exact ⟨before, by rw [List.append_assoc]; rfl⟩

/-- A slash that is there already is not written again. -/
theorem finished_eq_iff {dot : Bool} {result : List Char} :
    finished dot result = result ++ (if dot then ['/'] else []) ↔
      ¬(dot = true ∧ "//".toList <:+ result ++ (if dot then ['/'] else [])) := by
  unfold finished
  cases dot with
  | false => simp
  | true =>
    rw [if_pos rfl, slashes_suffix_iff, ← List.isSuffixOf_iff_suffix]
    cases List.isSuffixOf ['/'] result with
    | true => simp
    | false => simp

theorem length_finished_le (dot : Bool) (result : List Char) :
    (finished dot result).length ≤ (result ++ if dot then ['/'] else []).length := by
  unfold finished
  cases dot with
  | false => simp
  | true =>
    cases List.isSuffixOf ['/'] result with
    | true => simp
    | false => simp

/-- An empty segment that stands first is lost with the root. -/
theorem finished_lost {dot : Bool} (h : segments = [] → dot = true) :
    finished dot (rooted (['/'].intercalate ([] :: segments))) ≠
      spelled ([] :: segments) ++ (if dot then ['/'] else []) := by
  intro heq
  rw [intercalate_root] at heq
  by_cases hnil : segments = []
  · subst hnil
    rw [if_pos rfl, h rfl] at heq
    exact absurd heq (by decide)
  · rw [if_neg hnil] at heq
    have hle := length_finished_le dot (spelled segments)
    rw [heq] at hle
    have hmore : (spelled ([] :: segments)).length = (spelled segments).length + 1 := rfl
    rw [List.length_append, List.length_append, hmore] at hle
    omega

/-- What is left, behind the root or without it, is spelt as the rewriting spells it unless an
    empty segment is lost with the root or a slash is found to be there already. -/
theorem finished_kept_iff {left : List (List Char)} {climbing dot : Bool}
    (hfree : ∀ s ∈ left, '/' ∉ s) (hends : left = [] → dot = true) :
    finished dot (rooted (['/'].intercalate (if climbing then left else [] :: left))) =
        spelled left ++ (if dot then ['/'] else []) ↔
      ¬(climbing = true ∧ "//".toList <+: spelled left ++ (if dot then ['/'] else [])) ∧
        ¬(dot = true ∧ "//".toList <:+ spelled left ++ (if dot then ['/'] else [])) := by
  cases left with
  | nil =>
    rw [hends rfl]
    cases climbing with
    | true => exact iff_of_true rfl (by decide)
    | false => exact iff_of_true rfl (by decide)
  | cons s segments =>
    cases climbing with
    | false =>
      rw [if_neg Bool.false_ne_true, intercalate_root, if_neg (List.cons_ne_nil _ _),
        finished_eq_iff]
      exact (and_iff_right fun h => Bool.false_ne_true h.1).symm
    | true =>
      rw [if_pos rfl]
      cases s with
      | nil =>
        -- An empty first segment is lost, unless it is all there is.
        by_cases halone : segments = [] ∧ dot = false
        · obtain ⟨rfl, rfl⟩ := halone
          exact iff_of_true rfl (by decide)
        · have hlost : segments = [] → dot = true := by
            intro hnil
            rw [← Bool.not_eq_false]
            exact fun hdot => halone ⟨hnil, hdot⟩
          refine iff_of_false (finished_lost hlost) fun h => h.1 ⟨rfl, ?_⟩
          cases segments with
          | nil =>
            rw [hlost rfl]
            exact List.prefix_refl _
          | cons t segments => exact List.prefix_append ['/', '/'] _
      | cons c s =>
        have hs : '/' ∉ c :: s := hfree _ List.mem_cons_self
        rw [intercalate_plain hs (List.cons_ne_nil _ _), finished_eq_iff]
        refine (and_iff_right fun h => hs ?_).symm
        have hslashes : ['/', '/'] <+: spelled ((c :: s) :: segments) ++ _ := h.2
        have hhead : '/' = c := (List.cons_prefix_cons.mp (List.cons_prefix_cons.mp hslashes).2).1
        rw [hhead]
        exact List.mem_cons_self

section

variable (rest : List Char)

/-- A dot segment at the end leaves a slash. -/
theorem spelled_closing :
    spelled (closing (rest.splitOn '/')) = if endsInDot ('/' :: rest) then ['/'] else [] := by
  have hdot := endsInDot_iff (List.splitOn_ne_nil '/' rest)
    fun s hs => List.not_mem_of_mem_splitOn hs
  rw [spelled_splitOn] at hdot
  cases hends : endsInDot ('/' :: rest) with
  | true =>
    rw [hdot.mp hends]
    rfl
  | false =>
    have hnot : ¬closing (rest.splitOn '/') = [[]] := by
      intro hclosed
      have hends' := hdot.mpr hclosed
      exact absurd (hends.symm.trans hends') (by decide)
    unfold closing at hnot ⊢
    split
    · exact absurd (if_pos ‹_›) hnot
    · rfl

theorem keptSegments_slash :
    keptSegments ('/' :: rest) =
      if climbsAboveRoot ('/' :: rest) then (rest.splitOn '/').foldl keepSegment []
      else [] :: (rest.splitOn '/').foldl keepSegment [] := by
  rw [keptSegments, climbsAboveRoot, splitOn_slash]
  exact foldl_keepSegment_root

theorem rfcRemoveDotSegments_slash :
    rfcRemoveDotSegments ('/' :: rest) = spelled ((rest.splitOn '/').foldl keepSegment []) ++
      if endsInDot ('/' :: rest) then ['/'] else [] := by
  unfold rfcRemoveDotSegments
  rw [← spelled_closing, ← spelled_append, ← spelled_splitOn]
  exact rfcLoop_spelled (List.splitOn_ne_nil _ _) (fun s hs => List.not_mem_of_mem_splitOn hs)
    (fun s hs => absurd hs List.not_mem_nil) (Nat.le_refl _)

end

/-- **`remove_dot_segments` is the rewriting**, unless the path climbs above its root and what is
    left begins with an empty segment, or the path ends in a dot segment and what is left before
    it ends with an empty segment.

    The function works on a stack of segments, with the empty one at the bottom for the root. One
    `..` too many takes that away, and in joining the rest an empty segment of the path is taken for
    it; and the slash that a final dot segment leaves is written only where there is none yet.
    Everywhere else the stack and the rewriting come to the same text. -/
theorem removeDotSegments_rfc_iff (rest : List Char) :
    removeDotSegments ('/' :: rest) = rfcRemoveDotSegments ('/' :: rest) ↔
      ¬(climbsAboveRoot ('/' :: rest) = true ∧
          "//".toList <+: rfcRemoveDotSegments ('/' :: rest)) ∧
        ¬(endsInDot ('/' :: rest) = true ∧
          "//".toList <:+ rfcRemoveDotSegments ('/' :: rest)) := by
  have hfree : ∀ s ∈ (rest.splitOn '/').foldl keepSegment [], '/' ∉ s :=
    foldl_keepSegment_free (fun s hs => List.not_mem_of_mem_splitOn hs)
      fun s hs => absurd hs List.not_mem_nil
  have hends : (rest.splitOn '/').foldl keepSegment [] = [] → endsInDot ('/' :: rest) = true := by
    intro hnil
    have hclosing := spelled_closing rest
    rw [closing_of_foldl_nil (List.splitOn_ne_nil '/' rest) hnil] at hclosing
    cases hdot : endsInDot ('/' :: rest) with
    | true => rfl
    | false =>
      rw [hdot] at hclosing
      exact absurd hclosing (by decide)
  rw [removeDotSegments_slash, rfcRemoveDotSegments_slash, keptSegments_slash]
  exact finished_kept_iff hfree hends

/-- A root that was popped takes the slash of an empty segment along. -/
theorem removeDotSegments_not_rfc :
    removeDotSegments "/..//a".toList = "/a".toList ∧
      rfcRemoveDotSegments "/..//a".toList = "//a".toList := by
  decide +kernel

/-- So does a slash that stands where a dot segment leaves one. -/
example : removeDotSegments "/a//.".toList = "/a/".toList ∧
    rfcRemoveDotSegments "/a//.".toList = "/a//".toList := by decide +kernel

end

end Cat
