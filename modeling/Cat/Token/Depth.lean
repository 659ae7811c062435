import Cat.Token.CompositeTruth
import Cat.Token.ScalarSets

/-!
# Depth accounting

The crate counts the depth of a composite twice: `get_depth` adds up on the way back from the
members and gives up with an error above its limit, `exceeds_depth_limit` counts on the way down
and stops at the first member that is too deep. Both are told here in terms of `nestingDepth`,
the depth of the tree (`getDepth_eq`, `exceedsDepthLimit_eq_true`). They part where the error of
the one is replaced by the limit itself.

The first counts levels from zero and errs at a level above the limit, so the depths it returns
go up to one above the limit. What takes the place of the error is the limit, and that is less
than the depth of the deepest tree that it does not refuse.

Both are mutual recursions over composites and claim sets. The induction is on the tree, with
the level and the limit as they stand at the node.
-/

set_option autoImplicit false

namespace Cat

mutual
/-- How many operators stand one inside the other. -/
def CompositeClaim.nestingDepth : CompositeClaim → Nat
  | ⟨_, claims⟩ => 1 + nestingDepthOf claims
def ClaimSet.nestingDepth : ClaimSet → Nat
  | .token _ => 0
  | .composite c => c.nestingDepth
def nestingDepthOf : List ClaimSet → Nat
  | [] => 0
  | cs :: css => max cs.nestingDepth (nestingDepthOf css)
end

theorem nestingDepth_le_of_mem {cs : ClaimSet} {css : List ClaimSet} (h : cs ∈ css) :
    cs.nestingDepth ≤ nestingDepthOf css := by
  induction css with
  | nil => exact absurd h List.not_mem_nil
  | cons cs' css ih =>
    rw [nestingDepthOf]
    cases List.mem_cons.mp h with
    | inl heq => exact heq ▸ Nat.le_max_left _ _
    | inr hmem => exact (ih hmem).trans (Nat.le_max_right _ _)

theorem CompositeClaim.nestingDepth_lt {c c' : CompositeClaim} (h : .composite c' ∈ c.claims) :
    c'.nestingDepth < c.nestingDepth := by
  obtain ⟨op, claims⟩ := c
  have hle : c'.nestingDepth ≤ nestingDepthOf claims := nestingDepth_le_of_mem h
  rw [nestingDepth]
  omega

/-! ## Counting on the way back -/

mutual
/-- The depth, if no operator stands deeper than allowed. -/
theorem CompositeClaim.getDepthBounded_eq_ok : ∀ (c : CompositeClaim) {depth maxAllowed d : Nat},
    c.getDepthBounded depth maxAllowed = .ok d ↔
      depth + c.nestingDepth ≤ maxAllowed + 1 ∧ d = c.nestingDepth
  | ⟨op, claims⟩, depth, maxAllowed, d => by
    rw [CompositeClaim.getDepthBounded, CompositeClaim.nestingDepth]
    by_cases hdepth : depth > maxAllowed
    · rw [if_pos hdepth]
      constructor
      · intro h
        cases h
      · intro h
        omega
    · rw [if_neg hdepth, deepest_eq_ok_iff claims (Nat.not_lt.mp hdepth)]
      omega
theorem ClaimSet.getDepthBounded_eq_ok : ∀ (cs : ClaimSet) {depth maxAllowed d : Nat},
    depth ≤ maxAllowed → (cs.getDepthBounded depth maxAllowed = .ok d ↔
      depth + cs.nestingDepth ≤ maxAllowed ∧ d = 1 + cs.nestingDepth)
  | .token _, depth, maxAllowed, d, hdepth => by
    rw [ClaimSet.getDepthBounded, ClaimSet.nestingDepth, Except.ok.injEq]
    omega
  | .composite c, depth, maxAllowed, d, hdepth => by
    rw [ClaimSet.getDepthBounded, ClaimSet.nestingDepth, Except.map_eq_ok]
    constructor
    · intro h
      obtain ⟨d', hd', rfl⟩ := h
      obtain ⟨hle, rfl⟩ := c.getDepthBounded_eq_ok.mp hd'
      omega
    · intro h
      exact ⟨c.nestingDepth, c.getDepthBounded_eq_ok.mpr ⟨by omega, rfl⟩, by omega⟩
theorem deepest_eq_ok_iff : ∀ (css : List ClaimSet) {depth maxAllowed d : Nat},
    depth ≤ maxAllowed → (deepest depth maxAllowed css = .ok d ↔
      depth + nestingDepthOf css ≤ maxAllowed ∧ d = 1 + nestingDepthOf css)
  | [], depth, maxAllowed, d, hdepth => by
    rw [deepest, nestingDepthOf, Except.ok.injEq]
    omega
  | cs :: css, depth, maxAllowed, d, hdepth => by
    rw [deepest, nestingDepthOf, Except.bind_eq_ok]
    constructor
    · intro h
      obtain ⟨child, hchild, h⟩ := h
      obtain ⟨rest, hrest, h⟩ := Except.bind_eq_ok.mp h
      obtain rfl := Except.pure_eq_ok.mp h
      obtain ⟨hle, rfl⟩ := (cs.getDepthBounded_eq_ok hdepth).mp hchild
      obtain ⟨hle', rfl⟩ := (deepest_eq_ok_iff css hdepth).mp hrest
      omega
    · intro h
      refine ⟨1 + cs.nestingDepth, (cs.getDepthBounded_eq_ok hdepth).mpr ⟨by omega, rfl⟩, ?_⟩
      refine Except.bind_eq_ok.mpr ⟨1 + nestingDepthOf css,
        (deepest_eq_ok_iff css hdepth).mpr ⟨by omega, rfl⟩, ?_⟩
      rw [h.2]
      exact Except.pure_eq_ok.mpr (by omega)
end

/-- **What `get_depth` returns**: the depth up to one above the limit, and the limit beyond. -/
theorem CompositeClaim.getDepth_eq (c : CompositeClaim) :
    c.getDepth = if c.nestingDepth ≤ maxEvaluateDepth + 1 then c.nestingDepth
      else maxEvaluateDepth := by
  unfold getDepth
  cases hdepth : c.getDepthBounded 0 maxEvaluateDepth with
  | ok d =>
    obtain ⟨hle, rfl⟩ := c.getDepthBounded_eq_ok.mp hdepth
    rw [if_pos (by omega)]
  | error e =>
    by_cases hle : c.nestingDepth ≤ maxEvaluateDepth + 1
    · have hok : c.getDepthBounded 0 maxEvaluateDepth = .ok c.nestingDepth :=
        c.getDepthBounded_eq_ok.mpr ⟨by omega, rfl⟩
      rw [hdepth] at hok
      cases hok
    · rw [if_neg hle]

/-! ## Counting on the way down -/

mutual
theorem CompositeClaim.checkDepthLimit_eq_true : ∀ (c : CompositeClaim) (limit current : Nat),
    c.checkDepthLimit limit current = true ↔ limit < current + c.nestingDepth
  | ⟨op, claims⟩, limit, current => by
    rw [CompositeClaim.checkDepthLimit, CompositeClaim.nestingDepth]
    by_cases hcurrent : current ≥ limit
    · rw [if_pos hcurrent]
      exact iff_of_true rfl (by omega)
    · rw [if_neg hcurrent, anyExceeds_eq_true claims limit current (Nat.not_le.mp hcurrent)]
      omega
theorem ClaimSet.checkDepthLimit_eq_true : ∀ (cs : ClaimSet) (limit current : Nat),
    current < limit →
      (cs.checkDepthLimit limit current = true ↔ limit < current + 1 + cs.nestingDepth)
  | .token _, limit, current, hcurrent => by
    rw [ClaimSet.checkDepthLimit, ClaimSet.nestingDepth]
    exact iff_of_false Bool.false_ne_true (by omega)
  | .composite c, limit, current, _ => by
    rw [ClaimSet.checkDepthLimit, ClaimSet.nestingDepth]
    exact c.checkDepthLimit_eq_true limit (current + 1)
theorem anyExceeds_eq_true : ∀ (css : List ClaimSet) (limit current : Nat), current < limit →
    (anyExceeds limit current css = true ↔ limit < current + 1 + nestingDepthOf css)
  | [], limit, current, hcurrent => by
    rw [anyExceeds, nestingDepthOf]
    exact iff_of_false Bool.false_ne_true (by omega)
  | cs :: css, limit, current, hcurrent => by
    rw [anyExceeds, nestingDepthOf, Bool.or_eq_true, cs.checkDepthLimit_eq_true _ _ hcurrent,
      anyExceeds_eq_true css _ _ hcurrent]
    omega
end

/-- **`exceeds_depth_limit` is right for every limit.** -/
theorem CompositeClaim.exceedsDepthLimit_eq_true {c : CompositeClaim} {limit : Nat} :
    c.exceedsDepthLimit limit = true ↔ limit < c.nestingDepth := by
  rw [exceedsDepthLimit, c.checkDepthLimit_eq_true, Nat.zero_add]

/-! ## Together -/

/-- What is expected of the two counts at one tree. -/
structure CompositeClaim.DepthAgrees (c : CompositeClaim) : Prop where
  within : c.nestingDepth ≤ 10 → c.getDepth = c.nestingDepth
  beyond : 10 < c.nestingDepth → 10 < c.getDepth
  exceeds : ∀ limit ≤ 10, (c.exceedsDepthLimit limit = true ↔ limit < c.getDepth)
  /-- Nothing in the tree counts as deeper. -/
  nested : ∀ c', .composite c' ∈ c.claims → c'.getDepth ≤ c.getDepth

/-- The composites that a token has. -/
def CompositeClaims.given (claims : CompositeClaims) : List CompositeClaim :=
  claims.orClaim.toList ++ claims.norClaim.toList ++ claims.andClaim.toList

theorem CompositeClaims.le_getMaxDepth {claims : CompositeClaims} {c : CompositeClaim}
    (h : c ∈ claims.given) : c.getDepth ≤ claims.getMaxDepth := by
  simp only [given, List.mem_append, Option.mem_toList] at h
  unfold getMaxDepth
  rcases h with (h | h) | h
  · rw [h, Option.elim_some]
    exact (Nat.le_max_left _ _).trans (Nat.le_max_left _ _)
  · rw [h, Option.elim_some]
    exact (Nat.le_max_right _ _).trans (Nat.le_max_left _ _)
  · rw [h, Option.elim_some]
    exact Nat.le_max_right _ _

theorem CompositeClaims.getMaxDepth_attained (claims : CompositeClaims) :
    claims.getMaxDepth = 0 ∨ ∃ c ∈ claims.given, claims.getMaxDepth = c.getDepth := by
  have hmember : ∀ o : Option CompositeClaim, o.toList ⊆ claims.given →
      claims.getMaxDepth = o.elim 0 (·.getDepth) →
      claims.getMaxDepth = 0 ∨ ∃ c ∈ claims.given, claims.getMaxDepth = c.getDepth := by
    intro o hgiven heq
    cases o with
    | none => exact .inl heq
    | some c => exact .inr ⟨c, hgiven List.mem_cons_self, heq⟩
  have hgiven := List.append_subset.mp (List.Subset.refl claims.given)
  obtain ⟨hor, hnor⟩ := List.append_subset.mp hgiven.1
  unfold getMaxDepth at hmember ⊢
  rcases max_choice (max (claims.orClaim.elim 0 (·.getDepth)) (claims.norClaim.elim 0 (·.getDepth)))
    (claims.andClaim.elim 0 (·.getDepth)) with h | h
  · rcases max_choice (claims.orClaim.elim 0 (·.getDepth)) (claims.norClaim.elim 0 (·.getDepth))
      with h' | h'
    · exact hmember _ hor (h.trans h')
    · exact hmember _ hnor (h.trans h')
  · exact hmember _ hgiven.2 h

theorem CompositeClaim.depthAgrees_iff (c : CompositeClaim) :
    c.DepthAgrees ↔ c.nestingDepth ≤ 11 := by
  constructor
  · intro h
    by_contra hdeep
    have hbeyond := h.beyond (by omega)
    rw [c.getDepth_eq, maxEvaluateDepth, if_neg hdeep] at hbeyond
    exact Nat.lt_irrefl 10 hbeyond
  · intro hle
    have heq : ∀ c : CompositeClaim, c.nestingDepth ≤ 11 → c.getDepth = c.nestingDepth := by
      intro c hle
      rw [c.getDepth_eq, maxEvaluateDepth, if_pos hle]
    refine ⟨fun _ => heq c hle, ?_, ?_, ?_⟩
    · intro hdeep
      rwa [heq c hle]
    · intro limit _
      rw [exceedsDepthLimit_eq_true, heq c hle]
    · intro c' hc'
      have hlt := nestingDepth_lt hc'
      rw [heq c hle, heq c' (by omega)]
      exact Nat.le_of_lt hlt

/-- **Depth accounting agrees with itself up to depth eleven**, and the depth of a token's
    composites is the greatest of theirs.

    The walk that measures depth fails when it gets too deep, and the failure is counted as a depth
    of ten. That is less than the depth of the last tree that could still be measured, so beyond it
    a deeper tree looks shallower. -/
theorem depthAccounting_iff (c : CompositeClaim) (claims : CompositeClaims) :
    (c.DepthAgrees ↔ c.nestingDepth ≤ 11) ∧
      (∀ c' ∈ claims.given, c'.getDepth ≤ claims.getMaxDepth) ∧
        (claims.given = [] ∧ claims.getMaxDepth = 0 ∨
          ∃ c' ∈ claims.given, claims.getMaxDepth = c'.getDepth) := by
  refine ⟨c.depthAgrees_iff, fun c' hc' => CompositeClaims.le_getMaxDepth hc', ?_⟩
  cases claims.getMaxDepth_attained with
  | inr hmember => exact .inr hmember
  | inl hzero =>
    cases hgiven : claims.given with
    | nil => exact .inl ⟨rfl, hzero⟩
    | cons c' cs =>
      have hle := CompositeClaims.le_getMaxDepth (hgiven ▸ List.mem_cons_self : c' ∈ claims.given)
      exact .inr ⟨c', List.mem_cons_self, by omega⟩

/-- Twelve operators count as ten, eleven of them as eleven. -/
theorem depthAccounting_twelve : ¬(CompositeClaim.under 11 ⟨.or, []⟩).DepthAgrees := by
  intro h
  have hnested := h.nested (.under 10 ⟨.or, []⟩) (List.mem_singleton.mpr rfl)
  exact absurd hnested (by decide +kernel)

end Cat
