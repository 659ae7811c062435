import Mathlib.Data.List.Forall2

/-!
# Lists

Taking `List.Forall₂` apart along one of its lists, and cutting a list in two: around the first
or the last occurrence of an element, or around the first occurrence of a sublist. And what
sorting by a key makes of the keys.

`splitOnce`, `rsplitOnce` and `splitOnceAt` are Rust's `split_once` and `rsplit_once` for a
character and for a string. They are recursions over the list and not searches for an index, so
that `decide` can run them; what they answer is stated in `Lib/Splitting`.

`lastSome` is what a chain of assignments comes to that may or may not assign: the value of the
last element that has one. A decoder that goes over the entries of a map and overwrites a field
at each entry that fits leaves just this in the field.
-/

set_option autoImplicit false

namespace List

section
variable {α : Type} [DecidableEq α]

/-- Around the first `c`. -/
def splitOnce (c : α) : List α → Option (List α × List α)
  | [] => none
  | a :: as => if a = c then some ([], as) else (splitOnce c as).map fun p => (a :: p.1, p.2)

/-- Around the last `c`. -/
def rsplitOnce (c : α) (as : List α) : Option (List α × List α) :=
  (splitOnce c as.reverse).map fun p => (p.2.reverse, p.1.reverse)

/-- Around the first `pat`. -/
def splitOnceAt : List α → List α → Option (List α × List α)
  | [], pat => if pat = [] then some ([], []) else none
  | a :: as, pat =>
    if pat.isPrefixOf (a :: as) then some ([], (a :: as).drop pat.length)
    else (splitOnceAt as pat).map fun p => (a :: p.1, p.2)

end

variable {α β : Type} {R : α → β → Prop} {as : List α} {bs : List β}

/-- Around an element that is alone under its key. -/
theorem split_of_nodup_map {γ : Type} {f : α → γ} {l : List α} {a : α} (h : (l.map f).Nodup)
    (ha : a ∈ l) :
    ∃ as bs, l = as ++ a :: bs ∧ (∀ b ∈ as, f b ≠ f a) ∧ ∀ b ∈ bs, f b ≠ f a := by
  obtain ⟨as, bs, rfl⟩ := append_of_mem ha
  simp only [map_append, map_cons, nodup_append, nodup_cons] at h
  obtain ⟨-, ⟨hbs, -⟩, has⟩ := h
  refine ⟨as, bs, rfl, ?_, ?_⟩
  · intro b hb heq
    exact has _ (mem_map_of_mem hb) _ (by simp) heq
  · intro b hb heq
    exact hbs (heq ▸ mem_map_of_mem hb)

/-- What a test finds of every element. -/
theorem forall_mem_of_all {P : α → Prop} [DecidablePred P]
    (h : (as.all fun a => decide (P a)) = true) : ∀ a ∈ as, P a := by
  intro a ha
  exact of_decide_eq_true (List.all_eq_true.mp h a ha)

/-- A run of elements that pass a test, before one that does not. -/
theorem takeWhile_run {p : α → Bool} {run rest : List α} (h : ∀ a ∈ run, p a = true)
    (hrest : ∀ a ∈ rest.head?, p a = false) : (run ++ rest).takeWhile p = run := by
  rw [takeWhile_append_of_pos h]
  cases rest with
  | nil => simp
  | cons a rest => simp [hrest a rfl]

theorem dropWhile_run {p : α → Bool} {run rest : List α} (h : ∀ a ∈ run, p a = true)
    (hrest : ∀ a ∈ rest.head?, p a = false) : (run ++ rest).dropWhile p = rest := by
  rw [dropWhile_append_of_pos h]
  cases rest with
  | nil => rfl
  | cons a rest => simp [hrest a rfl]

theorem filter_eq_filter_iff {p q : α → Bool} {l : List α} :
    l.filter p = l.filter q ↔ ∀ a ∈ l, (p a = true ↔ q a = true) := by
  constructor
  · intro h a ha
    have hmem : a ∈ l.filter p ↔ a ∈ l.filter q := by rw [h]
    rw [mem_filter, mem_filter] at hmem
    simpa [ha] using hmem
  · intro h
    exact filter_congr fun a ha => Bool.eq_iff_iff.mpr (h a ha)

theorem Forall₂.exists_of_mem_left (h : Forall₂ R as bs) {a : α} (ha : a ∈ as) :
    ∃ b ∈ bs, R a b := by
  induction h with
  | nil => simp at ha
  | cons hr _ ih =>
    rcases mem_cons.mp ha with rfl | ha
    · exact ⟨_, mem_cons_self, hr⟩
    · obtain ⟨b, hb, hab⟩ := ih ha
      exact ⟨b, mem_cons_of_mem _ hb, hab⟩

theorem Forall₂.exists_of_mem_right (h : Forall₂ R as bs) {b : β} (hb : b ∈ bs) :
    ∃ a ∈ as, R a b :=
  Forall₂.exists_of_mem_left (R := fun b a => R a b) h.flip hb

/-- Where the left list splits, so does the right one. -/
theorem Forall₂.split {a : α} {as' : List α} (h : Forall₂ R (as ++ a :: as') bs) :
    ∃ bs₁ b bs₂, bs = bs₁ ++ b :: bs₂ ∧ Forall₂ R as bs₁ ∧ R a b := by
  induction as generalizing bs with
  | nil =>
    cases h with
    | cons hr _ => exact ⟨[], _, _, rfl, .nil, hr⟩
  | cons x as ih =>
    cases h with
    | cons hr hrest =>
      obtain ⟨bs₁, b, bs₂, rfl, h₁, hb⟩ := ih hrest
      exact ⟨_ :: bs₁, b, bs₂, rfl, .cons hr h₁, hb⟩

/-- A list of choices. -/
theorem exists_forall₂ (h : ∀ a ∈ as, ∃ b, R a b) : ∃ bs, Forall₂ R as bs := by
  induction as with
  | nil => exact ⟨[], .nil⟩
  | cons a as ih =>
    rw [forall_mem_cons] at h
    obtain ⟨b, hb⟩ := h.1
    obtain ⟨bs, hbs⟩ := ih h.2
    exact ⟨b :: bs, .cons hb hbs⟩

/-! ## The last value -/

/-- The value of the last element that has one. -/
def lastSome (f : α → Option β) (as : List α) : Option β := (as.filterMap f).getLast?

theorem lastSome_append (f : α → Option β) (as as' : List α) :
    lastSome f (as ++ as') = (lastSome f as').or (lastSome f as) := by
  rw [lastSome, filterMap_append, getLast?_append]
  rfl

theorem lastSome_concat (f : α → Option β) (as : List α) (a : α) :
    lastSome f (as ++ [a]) = (f a).or (lastSome f as) := by
  rw [lastSome_append]
  cases h : f a with
  | none => simp [lastSome, h]
  | some b => simp [lastSome, h]

/-! ## Sorting by a key -/

/-- Sorting by a key puts the keys in strict order if no two are the same. -/
theorem pairwise_lt_mergeSort (f : α → Int) (l : List α) :
    ((l.mergeSort fun a b => decide (f a ≤ f b)).map f).Pairwise (· < ·) ↔ (l.map f).Nodup := by
  have hperm : ((l.mergeSort fun a b => decide (f a ≤ f b)).map f).Perm (l.map f) :=
    (mergeSort_perm l _).map f
  constructor
  · intro h
    exact hperm.nodup_iff.mp (h.imp fun hlt => Int.ne_of_lt hlt)
  · intro h
    have hsorted : (l.mergeSort fun a b => decide (f a ≤ f b)).Pairwise
        (fun a b => decide (f a ≤ f b) = true) :=
      pairwise_mergeSort (fun a b c hab hbc => by
        rw [decide_eq_true_iff] at hab hbc ⊢
        exact Int.le_trans hab hbc) (fun a b => by
        rw [Bool.or_eq_true, decide_eq_true_iff, decide_eq_true_iff]
        exact Int.le_total _ _) l
    have hle : ((l.mergeSort fun a b => decide (f a ≤ f b)).map f).Pairwise (· ≤ ·) := by
      rw [pairwise_map]
      exact hsorted.imp fun hab => decide_eq_true_iff.mp hab
    exact (hle.and (hperm.nodup_iff.mpr h)).imp fun hab => Int.lt_iff_le_and_ne.mpr hab

end List
