import Cat.Lib.Lists

/-!
# Where a list is cut

What `splitOnce`, `rsplitOnce` and `splitOnceAt` answer, as equations: the list is what comes
before, the separator and what comes after, and the separator is not met earlier (or later).

With an element as separator this is a matter of membership. With a string it is not: an
occurrence can lie across the seam of two parts, or overlap another one. `FirstCut` says that a
beginning followed by the separator has none earlier, seam included, and `splitOnceAt` cuts
exactly there, whatever follows. A separator that has its first character only once cannot
overlap itself, and with such a one it is enough to look at the end.

The last part is about texts made by joining: pieces that lack the separator are found again.
-/

set_option autoImplicit false

namespace List

variable {α : Type} {c : α} {as l r pat : List α}

/-! ## Places of a sublist

Where a sublist can start in a text that is put together of two. An element that the sublist has
and a part lacks keeps it out of that part.
-/

/-- A sublist does not start in a part that lacks its first element. -/
theorem infix_append_of_head {a : α} (h : a ∉ l) : a :: pat <:+: l ++ r ↔ a :: pat <:+: r := by
  induction l with
  | nil => exact Iff.rfl
  | cons b l ih =>
    rw [mem_cons, not_or] at h
    rw [cons_append, infix_cons_iff, ih h.2]
    refine or_iff_right fun hpre => h.1 ?_
    exact (cons_prefix_cons.mp hpre).1

/-- A sublist does not reach over an element that it lacks. -/
theorem infix_append_cons {a : α} (ha : a ∉ pat) (h : pat <:+: l ++ a :: r) :
    pat <:+: l ∨ pat <:+: r := by
  induction l with
  | nil =>
    rcases infix_cons_iff.mp h with hpre | h
    · cases pat with
      | nil => exact .inl infix_rfl
      | cons b pat => exact absurd ((cons_prefix_cons.mp hpre).1 ▸ mem_cons_self) ha
    · exact .inr h
  | cons b l ih =>
    rcases infix_cons_iff.mp h with hpre | h
    · left
      refine IsPrefix.isInfix ?_
      obtain ⟨t, ht⟩ := hpre
      rcases append_eq_append_iff.mp (show pat ++ t = (b :: l) ++ a :: r from ht) with
        ⟨u, hu, -⟩ | ⟨u, hu, hr⟩
      · exact ⟨u, hu.symm⟩
      · cases u with
        | nil => exact ⟨[], by rw [append_nil, hu, append_nil]⟩
        | cons c u =>
          obtain rfl := head_eq_of_cons_eq hr
          exact absurd (hu ▸ mem_append_right _ mem_cons_self) ha
    · exact (ih h).imp_left fun h => h.trans (suffix_cons b l).isInfix

/-! ## Joined parts -/

theorem mem_intercalate {parts : List (List α)} {d : α} :
    d ∈ [c].intercalate parts → d = c ∨ ∃ part ∈ parts, d ∈ part := by
  induction parts with
  | nil => exact fun h => absurd h not_mem_nil
  | cons part parts ih =>
    intro h
    cases parts with
    | nil => exact .inr ⟨part, mem_cons_self, by simpa [intercalate] using h⟩
    | cons part' parts =>
      rw [intercalate_cons_cons, mem_append, mem_append] at h
      rcases h with (h | h) | h
      · exact .inr ⟨part, mem_cons_self, h⟩
      · exact .inl (mem_singleton.mp h)
      · exact (ih h).imp_right fun hpart => hpart.imp fun _ h => ⟨mem_cons_of_mem _ h.1, h.2⟩

end List

/-- What holds of the characters of the parts and of the text between them. -/
theorem String.forall_mem_intercalate {P : Char → Prop} {sep : String}
    (hsep : ∀ c ∈ sep.toList, P c) {parts : List String} :
    (∀ c ∈ (sep.intercalate parts).toList, P c) ↔ ∀ s ∈ parts, ∀ c ∈ s.toList, P c := by
  induction parts with
  | nil => simp
  | cons s parts ih =>
    rw [List.forall_mem_cons]
    cases parts with
    | nil => simp
    | cons t parts =>
      rw [String.intercalate_cons_cons, String.toList_append, String.toList_append,
        List.forall_mem_append, List.forall_mem_append]
      exact ⟨fun h => ⟨h.1.1, ih.mp h.2⟩, fun h => ⟨⟨h.1, hsep⟩, ih.mpr h.2⟩⟩

namespace List

variable {α : Type} {c : α} {as l r pat : List α}

section
variable [DecidableEq α]

/-! ## Around an element -/

theorem splitOnce_eq_some : splitOnce c as = some (l, r) ↔ as = l ++ c :: r ∧ c ∉ l := by
  induction as generalizing l with
  | nil => simp [splitOnce]
  | cons a as ih =>
    rw [splitOnce]
    split
    · rename_i ha
      subst ha
      constructor
      · intro h
        obtain ⟨rfl, rfl⟩ := Prod.mk.inj (Option.some.inj h)
        exact ⟨rfl, not_mem_nil⟩
      · rintro ⟨heq, hnot⟩
        cases l with
        | nil => rw [tail_eq_of_cons_eq heq]
        | cons b l =>
          rw [head_eq_of_cons_eq heq] at hnot
          exact absurd mem_cons_self hnot
    · rename_i ha
      constructor
      · intro h
        obtain ⟨p, hp, hcons⟩ := Option.map_eq_some_iff.mp h
        obtain ⟨rfl, rfl⟩ := Prod.mk.inj hcons
        obtain ⟨hsplit, hnot⟩ := ih.mp hp
        exact ⟨congrArg (a :: ·) hsplit, fun hmem => (mem_cons.mp hmem).elim (ha ·.symm) hnot⟩
      · rintro ⟨heq, hnot⟩
        cases l with
        | nil => exact absurd (head_eq_of_cons_eq heq) ha
        | cons b l =>
          obtain rfl := head_eq_of_cons_eq heq
          rw [ih.mpr ⟨tail_eq_of_cons_eq heq, fun hmem => hnot (mem_cons_of_mem _ hmem)⟩]
          rfl

theorem splitOnce_eq_none : splitOnce c as = none ↔ c ∉ as := by
  constructor
  · intro h hmem
    obtain ⟨l, r, rfl, hnot⟩ := eq_append_cons_of_mem hmem
    rw [splitOnce_eq_some.mpr ⟨rfl, hnot⟩] at h
    cases h
  · intro hnot
    cases h : splitOnce c as with
    | none => rfl
    | some p =>
      have hsplit := (splitOnce_eq_some.mp h).1
      exact absurd (hsplit ▸ mem_append_right _ mem_cons_self) hnot

/-- The first `c` is that of the first part that has one. -/
theorem splitOnce_append (h : c ∉ l) : splitOnce c (l ++ c :: r) = some (l, r) :=
  splitOnce_eq_some.mpr ⟨rfl, h⟩

theorem rsplitOnce_eq_some : rsplitOnce c as = some (l, r) ↔ as = l ++ c :: r ∧ c ∉ r := by
  rw [rsplitOnce, Option.map_eq_some_iff]
  constructor
  · rintro ⟨⟨x, y⟩, hsplit, heq⟩
    obtain ⟨rfl, rfl⟩ := Prod.mk.inj heq
    obtain ⟨hrev, hnot⟩ := splitOnce_eq_some.mp hsplit
    refine ⟨?_, fun hmem => hnot (mem_reverse.mp hmem)⟩
    rw [← reverse_reverse as, hrev]
    simp
  · rintro ⟨rfl, hnot⟩
    refine ⟨(r.reverse, l.reverse), splitOnce_eq_some.mpr ⟨by simp, ?_⟩, by simp⟩
    exact fun hmem => hnot (mem_reverse.mp hmem)

theorem rsplitOnce_eq_none : rsplitOnce c as = none ↔ c ∉ as := by
  rw [rsplitOnce, Option.map_eq_none_iff, splitOnce_eq_none, mem_reverse]

/-! ## Around a sublist

The cut as an equation with the condition that makes it unique. Both directions of it are used:
to read off what a cut has found, and to compute the cut of a text that was put together.
-/

theorem splitOnceAt_append (h : splitOnceAt as pat = some (l, r)) : as = l ++ pat ++ r := by
  induction as generalizing l with
  | nil =>
    rw [splitOnceAt] at h
    split at h
    · rename_i hpat
      obtain ⟨rfl, rfl⟩ := Prod.mk.inj (Option.some.inj h)
      rw [hpat]
      rfl
    · cases h
  | cons a as ih =>
    rw [splitOnceAt] at h
    split at h
    · rename_i hpre
      obtain ⟨rfl, rfl⟩ := Prod.mk.inj (Option.some.inj h)
      obtain ⟨t, ht⟩ := isPrefixOf_iff_prefix.mp hpre
      rw [← ht, drop_left]
      rfl
    · obtain ⟨p, hp, hcons⟩ := Option.map_eq_some_iff.mp h
      obtain ⟨rfl, rfl⟩ := Prod.mk.inj hcons
      exact congrArg (a :: ·) (ih hp)

/-- Nothing is cut off exactly where the sublist is not met at all. -/
theorem splitOnceAt_eq_none : splitOnceAt as pat = none ↔ ¬pat <:+: as := by
  induction as with
  | nil => simp [splitOnceAt]
  | cons a as ih =>
    rw [splitOnceAt, infix_cons_iff]
    split
    · rename_i hpre
      simp [List.isPrefixOf_iff_prefix.mp hpre]
    · rename_i hpre
      have hpre : ¬pat <+: a :: as := fun h => hpre (List.isPrefixOf_iff_prefix.mpr h)
      rw [Option.map_eq_none_iff, ih, not_or]
      exact ⟨fun h => ⟨hpre, h⟩, And.right⟩

/-- No cut is possible before the one that is made. -/
theorem splitOnceAt_first (h : splitOnceAt as pat = some (l, r)) {l' r' : List α}
    (hsplit : as = l' ++ pat ++ r') : l <+: l' := by
  induction as generalizing l l' with
  | nil =>
    have hl := splitOnceAt_append h
    rw [append_assoc] at hl
    rw [(nil_eq_append_iff.mp hl).1]
    exact nil_prefix
  | cons a as ih =>
    rw [splitOnceAt] at h
    split at h
    · obtain ⟨rfl, -⟩ := Prod.mk.inj (Option.some.inj h)
      exact nil_prefix
    · rename_i hpre
      obtain ⟨p, hp, hcons⟩ := Option.map_eq_some_iff.mp h
      obtain ⟨rfl, rfl⟩ := Prod.mk.inj hcons
      cases l' with
      | nil => exact absurd (List.isPrefixOf_iff_prefix.mpr ⟨r', hsplit.symm⟩) hpre
      | cons b l' =>
        obtain rfl := head_eq_of_cons_eq hsplit
        exact (prefix_cons_inj a).mpr (ih hp (tail_eq_of_cons_eq hsplit))

/-- Before its end, `l ++ pat` has no other `pat`. -/
def FirstCut (l pat : List α) : Prop := ∀ l' r', l ++ pat = l' ++ pat ++ r' → l' = l

omit [DecidableEq α] in
theorem FirstCut.of_not_mem {a : α} (h : a ∉ l) : FirstCut l (a :: pat) := by
  intro l' r' heq
  have hlen := congrArg length heq
  simp only [length_append] at hlen
  have hprefix : l' <+: l := by
    apply prefix_of_prefix_length_le _ (prefix_append l (a :: pat)) (by omega)
    rw [heq, append_assoc]
    exact prefix_append l' _
  obtain ⟨t, rfl⟩ := hprefix
  cases t with
  | nil => exact (append_nil l').symm
  | cons b t =>
    -- The character behind `l'` is the first of the pattern.
    rw [append_assoc, append_assoc, append_cancel_left_eq, cons_append, cons_append] at heq
    exact absurd (mem_append_right l' (head_eq_of_cons_eq heq ▸ mem_cons_self)) h

/-- What starts with an element it has once is met at the end alone exactly if it is not met
before it: two of them cannot overlap. -/
theorem firstCut_iff {a : α} (ha : a ∉ pat) :
    FirstCut l (a :: pat) ↔ ¬a :: pat <:+: l := by
  constructor
  · rintro hfirst ⟨x, y, rfl⟩
    have heq := hfirst x (y ++ a :: pat) (by simp)
    have hlen := congrArg length heq
    simp only [length_append, length_cons] at hlen
    omega
  · intro hnot l' r' heq
    rcases append_eq_append_iff.mp heq with ⟨u, hl, hpat⟩ | ⟨u, hl, -⟩
    · cases u with
      | nil => exact absurd ⟨l', [], by rw [append_nil, hl, append_nil]⟩ hnot
      | cons b u =>
        obtain ⟨rfl, hrest⟩ := cons.inj hpat
        have hu : a ∉ u := fun hmem => ha (hrest ▸ mem_append_left r' hmem)
        -- both cuts are at the last place of the element
        have hcut : rsplitOnce a (l' ++ a :: pat) = some (l', pat) :=
          rsplitOnce_eq_some.mpr ⟨rfl, ha⟩
        rw [hl, rsplitOnce_eq_some.mpr ⟨rfl, hu⟩] at hcut
        exact (Prod.mk.inj (Option.some.inj hcut)).1.symm
    · exact absurd ⟨l', u, hl.symm⟩ hnot

/-- **The cut is at the first place**, and whether it is does not depend on what follows. -/
theorem splitOnceAt_eq_some :
    splitOnceAt as pat = some (l, r) ↔ as = l ++ pat ++ r ∧ FirstCut l pat := by
  constructor
  · intro h
    refine ⟨splitOnceAt_append h, fun l' r' heq => ?_⟩
    have hsplit : as = l' ++ pat ++ (r' ++ r) := by
      rw [splitOnceAt_append h, heq, append_assoc]
    obtain ⟨t, rfl⟩ := splitOnceAt_first h hsplit
    have hlen := congrArg length heq
    simp only [length_append] at hlen
    rw [length_eq_zero_iff.mp (show t.length = 0 by omega), append_nil]
  · rintro ⟨rfl, hfirst⟩
    cases h : splitOnceAt (l ++ pat ++ r) pat with
    | none => exact absurd ⟨l, r, rfl⟩ (splitOnceAt_eq_none.mp h)
    | some p =>
      obtain ⟨l', r'⟩ := p
      have hsplit := splitOnceAt_append h
      obtain ⟨t, rfl⟩ := splitOnceAt_first h rfl
      -- What is cut off first starts inside `l`, so it ends inside `l ++ pat`.
      have htail : t ++ pat ++ r = pat ++ r' := by
        simpa only [append_assoc, append_cancel_left_eq] using hsplit
      have hpre : pat <+: t ++ pat :=
        prefix_of_prefix_length_le ⟨r', htail.symm⟩ ⟨r, rfl⟩ (by simp)
      obtain ⟨u, hu⟩ := hpre
      have hl := hfirst l' u (by rw [append_assoc, append_assoc, hu])
      have ht : t = [] := by simpa using hl.symm
      subst ht
      have hr : r = r' := append_cancel_left htail
      rw [hr, append_nil]

/-! ## Into parts

Splitting at an element and joining with it undo each other on parts that lack it.
-/

theorem not_mem_of_mem_splitOn {part : List α} (h : part ∈ as.splitOn c) : c ∉ part := by
  induction as generalizing part with
  | nil =>
    rw [splitOn_nil, mem_singleton] at h
    exact h ▸ not_mem_nil
  | cons a as ih =>
    rw [splitOn_cons_eq_if_modifyHead] at h
    split at h
    · rcases mem_cons.mp h with rfl | h
      · exact not_mem_nil
      · exact ih h
    · rename_i hne
      cases hsplit : as.splitOn c with
      | nil => exact absurd hsplit (splitOn_ne_nil _ _)
      | cons first rest =>
        rw [hsplit, modifyHead_cons] at h
        have hall : ∀ part ∈ first :: rest, c ∉ part := fun _ hp => ih (hsplit ▸ hp)
        rcases mem_cons.mp h with rfl | h
        · rw [mem_cons, not_or]
          exact ⟨fun hc => hne (beq_iff_eq.mpr hc.symm), hall _ mem_cons_self⟩
        · exact hall _ (mem_cons_of_mem _ h)

theorem mem_of_mem_splitOn {part : List α} {d : α} (h : part ∈ as.splitOn c) (hd : d ∈ part) :
    d ∈ as := by
  have hall : ∀ parts : List (List α), part ∈ parts → d ∈ [c].intercalate parts := by
    intro parts hpart
    induction parts with
    | nil => exact absurd hpart not_mem_nil
    | cons first parts ih =>
      cases parts with
      | nil => simpa [intercalate, ← mem_singleton.mp hpart] using hd
      | cons second parts =>
        rw [intercalate_cons_cons, mem_append, mem_append]
        rcases mem_cons.mp hpart with rfl | hpart
        · exact .inl (.inl hd)
        · exact .inr (ih hpart)
  have := hall _ h
  rwa [intercalate_splitOn] at this

end

/-- No part has an element that separates parts. -/
theorem of_mem_splitOnP {p : α → Bool} {part : List α} (h : part ∈ as.splitOnP p) :
    ∀ a ∈ part, p a = false := by
  induction as generalizing part with
  | nil =>
    rw [splitOnP_nil, mem_singleton] at h
    exact h ▸ fun a ha => absurd ha not_mem_nil
  | cons a as ih =>
    rw [splitOnP_cons_eq_if_modifyHead] at h
    split at h
    · rcases mem_cons.mp h with rfl | h
      · exact fun a ha => absurd ha not_mem_nil
      · exact ih h
    · rename_i hp
      obtain ⟨first, rest, hsplit⟩ := exists_cons_of_ne_nil (splitOnP_ne_nil p as)
      rw [hsplit, modifyHead_cons] at h
      have hall : ∀ part ∈ first :: rest, ∀ a ∈ part, p a = false :=
        fun _ hpart => ih (hsplit ▸ hpart)
      rcases mem_cons.mp h with rfl | h
      · exact forall_mem_cons.mpr ⟨Bool.not_eq_true _ ▸ hp, hall _ mem_cons_self⟩
      · exact hall _ (mem_cons_of_mem _ h)

end List
