import Cat.ClaimSets
import Cat.Token.Validator

/-!
# Composites without a depth limit

A composite is a Boolean formula over verdicts on claim sets, and `truth` reads it as one. The
evaluator gives up below a certain depth and counts what stands there as false. That is on the
safe side of an `or` and of an `and`, but a `nor` around it turns it into true, and then a
composite is accepted that is not acceptable.

Two things are said of this. `truth_of_evaluate` looks at the shape and the truth of what stands
beyond the limit: under an even number of `nor`s the evaluator accepts too little, under an odd
number too much, so it fails closed if nothing that it does not look at is true under an odd
number of them. That is enough and easy to check, but more than is needed, since `any` and `all`
stop early and one wrong answer among several need not count. `evaluate_failsClosed_iff` is exact:
`misjudged` says where the evaluator is wrong, from the truth of the parts and the limit alone.

The validator looks at the depth first, and then nothing is lost (`validateCompositeClaims_iff`).
But it looks at one claim set at a time, so operators add up along a path through several of them
(`validate_limits_paths_iff`).
-/

set_option autoImplicit false

namespace Cat

/-! ## Truth -/

mutual
/-- What the composite says of its claim sets, however deep they stand. -/
def CompositeClaim.truth (V : Verdict) : CompositeClaim → Bool
  | ⟨op, claims⟩ => op.combine (anyTrue V claims) (allTrue V claims)
def ClaimSet.truth (V : Verdict) : ClaimSet → Bool
  | .token t => (V t).isOk
  | .composite c => c.truth V
def anyTrue (V : Verdict) : List ClaimSet → Bool
  | [] => false
  | cs :: css => cs.truth V || anyTrue V css
def allTrue (V : Verdict) : List ClaimSet → Bool
  | [] => true
  | cs :: css => cs.truth V && allTrue V css
end

section
variable {V : Verdict}

theorem anyTrue_iff {css : List ClaimSet} : anyTrue V css = true ↔ ∃ cs ∈ css, cs.truth V = true := by
  induction css with
  | nil => simp [anyTrue]
  | cons cs css ih => simp [anyTrue, ih]

theorem allTrue_iff {css : List ClaimSet} : allTrue V css = true ↔ ∀ cs ∈ css, cs.truth V = true := by
  induction css with
  | nil => simp [allTrue]
  | cons cs css ih => simp [allTrue, ih]

theorem truth_or {css : List ClaimSet} :
    (CompositeClaim.mk .or css).truth V = true ↔ ∃ cs ∈ css, cs.truth V = true := by
  rw [CompositeClaim.truth, CompositeOperator.combine, anyTrue_iff]

theorem truth_nor {css : List ClaimSet} :
    (CompositeClaim.mk .nor css).truth V = true ↔ ¬∃ cs ∈ css, cs.truth V = true := by
  rw [CompositeClaim.truth, CompositeOperator.combine, Bool.not_eq_true', ← Bool.not_eq_true,
    anyTrue_iff]

theorem truth_and {css : List ClaimSet} :
    (CompositeClaim.mk .and css).truth V = true ↔ ∀ cs ∈ css, cs.truth V = true := by
  rw [CompositeClaim.truth, CompositeOperator.combine, allTrue_iff]

end

/-! ## Beyond the limit -/

mutual
/-- Whatever stands beyond the evaluator's limit and under an odd number of `nor`s is false. -/
def CompositeClaim.SafeBeyond (V : Verdict) (even : Bool) (depth : Nat) : CompositeClaim → Prop
  | ⟨op, claims⟩ =>
    if depth > maxEvaluateDepth then
      even = false → op.combine (anyTrue V claims) (allTrue V claims) = false
    else allSafeBeyond V (if op = .nor then !even else even) depth claims
def ClaimSet.SafeBeyond (V : Verdict) (even : Bool) (depth : Nat) : ClaimSet → Prop
  | .token _ => True
  | .composite c => c.SafeBeyond V even (depth + 1)
def allSafeBeyond (V : Verdict) (even : Bool) (depth : Nat) : List ClaimSet → Prop
  | [] => True
  | cs :: css => cs.SafeBeyond V even depth ∧ allSafeBeyond V even depth css
end

mutual
/-- **Evaluation follows truth by parity**: it accepts too little under an even number of `nor`s,
    too much under an odd number, if what it does not look at is safe. -/
theorem CompositeClaim.evaluate_follows {V : Verdict} : ∀ (c : CompositeClaim) (even : Bool)
    (depth : Nat), c.SafeBeyond V even depth →
      Follows even (c.evaluateWithDepth V depth) (c.truth V)
  | ⟨op, claims⟩, even, depth, h => by
    rw [CompositeClaim.SafeBeyond] at h
    rw [CompositeClaim.evaluateWithDepth, CompositeClaim.truth]
    by_cases hdepth : depth > maxEvaluateDepth
    · -- the evaluator says no, so under an odd number of `nor`s the truth has to be no
      rw [if_pos hdepth] at h
      rw [if_pos hdepth]
      cases even with
      | true => exact fun hfalse => absurd hfalse Bool.false_ne_true
      | false =>
        intro htrue
        rw [h rfl] at htrue
        exact htrue
    · rw [if_neg hdepth] at h
      rw [if_neg hdepth]
      cases op with
      | or => exact (claimSets_evaluate_follow claims even depth h).1
      | nor => exact (claimSets_evaluate_follow claims (!even) depth h).1.not
      | and => exact (claimSets_evaluate_follow claims even depth h).2
theorem ClaimSet.evaluate_follows {V : Verdict} : ∀ (cs : ClaimSet) (even : Bool) (depth : Nat),
    cs.SafeBeyond V even depth → Follows even (cs.evaluateWithDepth V depth) (cs.truth V)
  | .token _, even, _, _ => .refl even _
  | .composite c, even, depth, h => c.evaluate_follows even (depth + 1) h
theorem claimSets_evaluate_follow {V : Verdict} : ∀ (css : List ClaimSet) (even : Bool)
    (depth : Nat), allSafeBeyond V even depth css →
      Follows even (anyClaimSet V depth css) (anyTrue V css) ∧
        Follows even (allClaimSets V depth css) (allTrue V css)
  | [], even, _, _ => ⟨.refl even false, .refl even true⟩
  | cs :: css, even, depth, h => by
    have hcs := cs.evaluate_follows even depth h.1
    obtain ⟨hany, hall⟩ := claimSets_evaluate_follow css even depth h.2
    exact ⟨hcs.or hany, hcs.and hall⟩
end

/-- What stands beyond the limit does no harm where nothing true stands there under an odd number
    of `nor`s. -/
theorem truth_of_evaluate {V : Verdict} {c : CompositeClaim} (hsafe : c.SafeBeyond V true 0)
    (h : c.evaluate V = true) : c.truth V = true :=
  c.evaluate_follows true 0 hsafe h

/-! ## Misjudged composites

`SafeBeyond` looks at everything that stands beyond the limit, and so it is more than is needed:
the evaluator may never get there, or what it makes of it may not count. What does count is decided
on the way up. The members that are true decide a disjunction, those that are false a conjunction.
Where there are such members the operator is misjudged only if the evaluator is wrong about each
of them and about no other, for one member that it takes for what decides is enough. Where there
are none, one wrong member is enough to misjudge the operator. -/

/-- What is known of the disjunction, for an operator that is one or denies one; of the
    conjunction for the other. -/
def CompositeOperator.restsOn (disjunction conjunction : Bool) : CompositeOperator → Bool
  | .or | .nor => disjunction
  | .and => conjunction

mutual
/-- The evaluator is wrong about the composite, standing at this depth. It is told by the truth of
    what the composite is made of, and by the limit. -/
def CompositeClaim.misjudged (V : Verdict) (depth : Nat) : CompositeClaim → Bool
  | ⟨op, claims⟩ =>
    if depth > maxEvaluateDepth then op.combine (anyTrue V claims) (allTrue V claims)
    else op.restsOn
      (if anyTrue V claims then misjudgesThose V depth true claims
        else anyMisjudged V depth claims)
      (if allTrue V claims then anyMisjudged V depth claims
        else misjudgesThose V depth false claims)
def ClaimSet.misjudged (V : Verdict) (depth : Nat) : ClaimSet → Bool
  | .token _ => false
  | .composite c => c.misjudged V (depth + 1)
/-- The members that are misjudged are those that are true, or those that are false. -/
def misjudgesThose (V : Verdict) (depth : Nat) (truth : Bool) : List ClaimSet → Bool
  | [] => true
  | cs :: css =>
    (cs.misjudged V depth == (cs.truth V == truth)) && misjudgesThose V depth truth css
def anyMisjudged (V : Verdict) (depth : Nat) : List ClaimSet → Bool
  | [] => false
  | cs :: css => cs.misjudged V depth || anyMisjudged V depth css
end

section
variable {V : Verdict}

/-- Where no member is true, those that are true are misjudged if none is. -/
theorem misjudgesThose_of_none {depth : Nat} {css : List ClaimSet} (h : anyTrue V css = false) :
    misjudgesThose V depth true css = !anyMisjudged V depth css := by
  induction css with
  | nil => rfl
  | cons cs css ih =>
    rw [anyTrue, Bool.or_eq_false_iff] at h
    rw [misjudgesThose, anyMisjudged, ih h.2, h.1]
    cases cs.misjudged V depth <;> rfl

theorem misjudgesThose_of_all {depth : Nat} {css : List ClaimSet} (h : allTrue V css = true) :
    misjudgesThose V depth false css = !anyMisjudged V depth css := by
  induction css with
  | nil => rfl
  | cons cs css ih =>
    rw [allTrue, Bool.and_eq_true_iff] at h
    rw [misjudgesThose, anyMisjudged, ih h.2, h.1]
    cases cs.misjudged V depth <;> rfl

mutual
/-- **The evaluator is wrong where it misjudges**, and nowhere else. -/
theorem CompositeClaim.evaluate_eq_xor : ∀ (c : CompositeClaim) (depth : Nat),
    c.evaluateWithDepth V depth = (c.truth V ^^ c.misjudged V depth)
  | ⟨op, claims⟩, depth => by
    obtain ⟨hany, hall⟩ := claimSets_evaluate_eq_xor claims depth
    rw [CompositeClaim.evaluateWithDepth, CompositeClaim.truth, CompositeClaim.misjudged]
    by_cases hdepth : depth > maxEvaluateDepth
    · rw [if_pos hdepth, if_pos hdepth, Bool.xor_self]
    · rw [if_neg hdepth, if_neg hdepth, hany, hall]
      cases op with
      | or => rfl
      | nor => exact (Bool.not_xor _ _).symm
      | and => rfl
theorem ClaimSet.evaluate_eq_xor : ∀ (cs : ClaimSet) (depth : Nat),
    cs.evaluateWithDepth V depth = (cs.truth V ^^ cs.misjudged V depth)
  | .token _, _ => (Bool.xor_false _).symm
  | .composite c, depth => c.evaluate_eq_xor (depth + 1)
/-- Whether some member is true, and whether all are. -/
theorem claimSets_evaluate_eq_xor : ∀ (css : List ClaimSet) (depth : Nat),
    anyClaimSet V depth css = (anyTrue V css ^^
      if anyTrue V css then misjudgesThose V depth true css else anyMisjudged V depth css) ∧
    allClaimSets V depth css = (allTrue V css ^^
      if allTrue V css then anyMisjudged V depth css else misjudgesThose V depth false css)
  | [], _ => ⟨rfl, rfl⟩
  | cs :: css, depth => by
    have hcs := cs.evaluate_eq_xor depth
    obtain ⟨hany, hall⟩ := claimSets_evaluate_eq_xor css depth
    constructor
    · rw [anyClaimSet, anyTrue, hcs, hany, misjudgesThose, anyMisjudged]
      cases hlater : anyTrue V css with
      | true => cases cs.truth V <;> cases cs.misjudged V depth <;> simp
      | false =>
        -- the head alone may decide, and then no later member may be misjudged
        rw [misjudgesThose_of_none hlater]
        cases cs.truth V <;> cases cs.misjudged V depth <;> simp
    · rw [allClaimSets, allTrue, hcs, hall, misjudgesThose, anyMisjudged]
      cases hlater : allTrue V css with
      | false => cases cs.truth V <;> cases cs.misjudged V depth <;> simp
      | true =>
        rw [misjudgesThose_of_all hlater]
        cases cs.truth V <;> cases cs.misjudged V depth <;> simp
end

/-- **When the evaluator fails closed**: it lets a false composite pass if and only if it misjudges
    it.

    At its limit the evaluator says false, which is safe under `or` and `and` and is turned around
    by `nor`. Which composites are misjudged is computed from the truth of their parts and their
    depth; an error reaches the top only if nothing on the way up outvotes it. -/
theorem evaluate_failsClosed_iff (V : Verdict) (c : CompositeClaim) :
    (c.evaluate V = true → c.truth V = true) ↔
      (c.misjudged V 0 = true → c.truth V = true) := by
  have hxor : c.evaluate V = (c.truth V ^^ c.misjudged V 0) := c.evaluate_eq_xor 0
  rw [hxor]
  cases c.truth V <;> cases c.misjudged V 0 <;> simp

end

/-- The composite in so many disjunctions of one. -/
def CompositeClaim.under : Nat → CompositeClaim → CompositeClaim
  | 0, c => c
  | n + 1, c => ⟨.or, [.composite (c.under n)]⟩

/-- A `nor` that is misjudged does no harm behind a claim set that is accepted. -/
example : (CompositeClaim.mk .or [.token .new, .composite (.under 9 ⟨.nor,
    [.composite ⟨.and, []⟩]⟩)]).misjudged (fun _ => .ok ()) 0 = false := by
  decide +kernel

/-- Ten operators around a `nor` that denies what is true. -/
theorem evaluate_not_failsClosed : ¬∀ (V : Verdict) (c : CompositeClaim),
    c.evaluate V = true → c.truth V = true := by
  intro hall
  have htrue := hall (fun _ => .ok ()) (.under 10 ⟨.nor, [.composite ⟨.and, []⟩]⟩)
    (by decide +kernel)
  exact absurd htrue (by decide +kernel)

/-! ## Within the limit -/

section
variable {V : Verdict}

mutual
/-- A composite that passes the depth check is evaluated to the end. -/
theorem CompositeClaim.evaluate_eq_truth : ∀ (c : CompositeClaim) (depth : Nat),
    c.checkDepthLimit maxNestingDepth depth = false → c.evaluateWithDepth V depth = c.truth V
  | ⟨op, claims⟩, depth, h => by
    obtain ⟨hdepth, hclaims⟩ := CompositeClaim.below_limit h
    have hshallow : ¬depth > maxEvaluateDepth := Nat.not_lt.mpr (Nat.le_of_lt hdepth)
    obtain ⟨hany, hall⟩ := claimSets_evaluate_eq claims depth hclaims
    rw [CompositeClaim.evaluateWithDepth, if_neg hshallow, hany, hall, CompositeClaim.truth]
theorem ClaimSet.evaluate_eq_truth : ∀ (cs : ClaimSet) (depth : Nat),
    cs.checkDepthLimit maxNestingDepth depth = false → cs.evaluateWithDepth V depth = cs.truth V
  | .token _, _, _ => rfl
  | .composite c, depth, h => c.evaluate_eq_truth (depth + 1) h
theorem claimSets_evaluate_eq : ∀ (css : List ClaimSet) (depth : Nat),
    anyExceeds maxNestingDepth depth css = false →
      anyClaimSet V depth css = anyTrue V css ∧ allClaimSets V depth css = allTrue V css
  | [], _, _ => ⟨rfl, rfl⟩
  | cs :: css, depth, h => by
    rw [anyExceeds, Bool.or_eq_false_iff] at h
    obtain ⟨hany, hall⟩ := claimSets_evaluate_eq css depth h.2
    have hcs := cs.evaluate_eq_truth depth h.1
    constructor
    · rw [anyClaimSet, anyTrue, hcs, hany]
    · rw [allClaimSets, allTrue, hcs, hall]
end

end

namespace CompositeClaims

/-- The composites that are there are true. -/
def AllTrue (V : Verdict) (c : CompositeClaims) : Prop :=
  (∀ x, c.orClaim = some x → x.truth V = true) ∧ (∀ x, c.norClaim = some x → x.truth V = true) ∧
    ∀ x, c.andClaim = some x → x.truth V = true

variable {V : Verdict} {c : CompositeClaims}

theorem exceedsDepthLimit_iff : c.exceedsDepthLimit maxNestingDepth = false ↔
    (∀ x, c.orClaim = some x → x.exceedsDepthLimit maxNestingDepth = false) ∧
      (∀ x, c.norClaim = some x → x.exceedsDepthLimit maxNestingDepth = false) ∧
      ∀ x, c.andClaim = some x → x.exceedsDepthLimit maxNestingDepth = false := by
  unfold exceedsDepthLimit
  rw [Bool.or_eq_false_iff, Bool.or_eq_false_iff, and_assoc]
  have hany {x : Option CompositeClaim} : x.any (·.exceedsDepthLimit maxNestingDepth) = false ↔
      ∀ y, x = some y → y.exceedsDepthLimit maxNestingDepth = false := by
    cases x <;> simp
  rw [hany, hany, hany]

theorem all_evaluate {x : Option CompositeClaim}
    (h : ∀ y, x = some y → y.evaluate V = y.truth V) :
    x.all (·.evaluate V) = true ↔ ∀ y, x = some y → y.truth V = true := by
  cases x with
  | none => simp
  | some y => simp [h y rfl]

theorem check_eq_ok {orOk norOk andOk : Bool} : check orOk norOk andOk = .ok () ↔
    orOk = true ∧ norOk = true ∧ andOk = true := by
  cases orOk <;> cases norOk <;> cases andOk <;> simp [check]

end CompositeClaims

/-- **Within the depth limit the composites are formulas**: each is evaluated to its truth, and the
    validator passes a token's composites exactly when they are all true of its own verdicts.

    The validator refuses a token whose operators nest too deep before it evaluates any, so within
    the limit the evaluator never gets there, and what it returns is the truth of the formula over
    the verdicts on the claim sets. These verdicts are the validator's own, with their own
    composites. -/
theorem validateCompositeClaims_iff {c : CompositeClaims}
    (h : c.exceedsDepthLimit maxNestingDepth = false) :
    (∀ (V : Verdict) (x : CompositeClaim),
      c.orClaim = some x ∨ c.norClaim = some x ∨ c.andClaim = some x → x.evaluate V = x.truth V) ∧
    ∀ (v : CatTokenValidator) (now : Int64) (t : CatToken), t.composite = c →
      (v.validateCompositeClaims now t = .ok () ↔ c.AllTrue (v.validate now)) := by
  have heval : ∀ (V : Verdict) (x : CompositeClaim),
      c.orClaim = some x ∨ c.norClaim = some x ∨ c.andClaim = some x →
        x.evaluate V = x.truth V := by
    intro V x hx
    obtain ⟨hor, hnor, hand⟩ := CompositeClaims.exceedsDepthLimit_iff.mp h
    apply x.evaluate_eq_truth 0
    rcases hx with hx | hx | hx
    · exact hor x hx
    · exact hnor x hx
    · exact hand x hx
  refine ⟨heval, ?_⟩
  rintro v now t rfl
  unfold CatTokenValidator.validateCompositeClaims
  by_cases hhas : t.composite.hasComposites
  · rw [if_pos hhas, if_neg (by rw [h]; exact Bool.false_ne_true)]
    unfold CompositeClaims.validateAll CompositeClaims.AllTrue
    rw [CompositeClaims.check_eq_ok,
      CompositeClaims.all_evaluate fun x hx => heval _ x (.inl hx),
      CompositeClaims.all_evaluate fun x hx => heval _ x (.inr (.inl hx)),
      CompositeClaims.all_evaluate fun x hx => heval _ x (.inr (.inr hx))]
  · -- without composites there is nothing to be true
    rw [if_neg hhas]
    simp only [CompositeClaims.hasComposites, Bool.or_eq_true, not_or, Bool.not_eq_true,
      Option.isSome_eq_false_iff, Option.isNone_iff_eq_none] at hhas
    obtain ⟨⟨hor, hnor⟩, hand⟩ := hhas
    simp [CompositeClaims.AllTrue, hor, hnor, hand]

/-- Ten operators, one in the other, pass the depth check. -/
theorem validateCompositeClaims_iff_ten :
    (CompositeClaim.under 9 ⟨.nor, []⟩).evaluate (fun _ => .ok ()) =
      (CompositeClaim.under 9 ⟨.nor, []⟩).truth fun _ => .ok () := by
  have hlimit : (CompositeClaims.mk (some (.under 9 ⟨.nor, []⟩)) none none).exceedsDepthLimit
      maxNestingDepth = false := by decide +kernel
  exact (validateCompositeClaims_iff hlimit).1 (fun _ => .ok ()) _ (.inl rfl)

/-! ## Paths through several claim sets -/

mutual
/-- The paths down from a token. Each is told by how many operators it has from one claim set to
    the next. -/
def CatToken.operatorRuns : CatToken → List (List Nat)
  | ⟨_, _, _, _, _, ⟨orC, norC, andC⟩, _, _⟩ => [] :: (runs? orC ++ runs? norC ++ runs? andC)
def runs? : Option CompositeClaim → List (List Nat)
  | none => []
  | some c => c.operatorRuns 1
/-- The paths to and below a composite that is the `n`-th operator since the last claim set. -/
def CompositeClaim.operatorRuns (n : Nat) : CompositeClaim → List (List Nat)
  | ⟨_, claims⟩ => [n] :: runsOf n claims
def ClaimSet.operatorRuns (n : Nat) : ClaimSet → List (List Nat)
  | .token t => t.operatorRuns.map (n :: ·)
  | .composite c => c.operatorRuns (n + 1)
def runsOf (n : Nat) : List ClaimSet → List (List Nat)
  | [] => []
  | cs :: css => cs.operatorRuns n ++ runsOf n css
end

mutual
/-- Up to the next claim set a path has no more operators than the depth check lets through. -/
theorem CompositeClaim.run_le : ∀ (c : CompositeClaim) (depth : Nat),
    c.checkDepthLimit maxNestingDepth depth = false → ∀ p ∈ c.operatorRuns (depth + 1),
      ∃ n rest, p = n :: rest ∧ n ≤ maxNestingDepth
  | ⟨op, claims⟩, depth, h, p, hp => by
    obtain ⟨hdepth, hclaims⟩ := CompositeClaim.below_limit h
    rw [CompositeClaim.operatorRuns, List.mem_cons] at hp
    rcases hp with rfl | hp
    · exact ⟨depth + 1, [], rfl, hdepth⟩
    · exact runsOf_le claims depth hdepth hclaims p hp
theorem ClaimSet.run_le : ∀ (cs : ClaimSet) (depth : Nat), depth + 1 ≤ maxNestingDepth →
    cs.checkDepthLimit maxNestingDepth depth = false → ∀ p ∈ cs.operatorRuns (depth + 1),
      ∃ n rest, p = n :: rest ∧ n ≤ maxNestingDepth
  | .token t, depth, hle, _, p, hp => by
    rw [ClaimSet.operatorRuns, List.mem_map] at hp
    obtain ⟨rest, -, rfl⟩ := hp
    exact ⟨depth + 1, rest, rfl, hle⟩
  | .composite c, depth, _, h, p, hp => c.run_le (depth + 1) h p hp
theorem runsOf_le : ∀ (css : List ClaimSet) (depth : Nat), depth + 1 ≤ maxNestingDepth →
    anyExceeds maxNestingDepth depth css = false → ∀ p ∈ runsOf (depth + 1) css,
      ∃ n rest, p = n :: rest ∧ n ≤ maxNestingDepth
  | [], _, _, _, p, hp => absurd hp List.not_mem_nil
  | cs :: css, depth, hle, h, p, hp => by
    rw [anyExceeds, Bool.or_eq_false_iff] at h
    rw [runsOf, List.mem_append] at hp
    rcases hp with hp | hp
    · exact cs.run_le depth hle h.1 p hp
    · exact runsOf_le css depth hle h.2 p hp
end

/-- A path from the token has run into no limit, or it has a first run within the limit. -/
theorem CatToken.run_le {t : CatToken} (h : t.composite.exceedsDepthLimit maxNestingDepth = false)
    {p : List Nat} (hp : p ∈ t.operatorRuns) :
    p = [] ∨ ∃ n rest, p = n :: rest ∧ n ≤ maxNestingDepth := by
  obtain ⟨core, cat, informational, dpop, request, ⟨orC, norC, andC⟩, moqt, custom⟩ := t
  obtain ⟨hor, hnor, hand⟩ := CompositeClaims.exceedsDepthLimit_iff.mp h
  have hruns {x : Option CompositeClaim}
      (hx : ∀ c, x = some c → c.exceedsDepthLimit maxNestingDepth = false) (hp : p ∈ runs? x) :
      ∃ n rest, p = n :: rest ∧ n ≤ maxNestingDepth := by
    cases x with
    | none => exact absurd hp List.not_mem_nil
    | some c => exact c.run_le 0 (hx c rfl) p hp
  rw [operatorRuns, List.mem_cons, List.mem_append, List.mem_append] at hp
  refine hp.imp_right fun hp => ?_
  rcases hp with (hp | hp) | hp
  · exact hruns hor hp
  · exact hruns hnor hp
  · exact hruns hand hp

theorem CatTokenValidator.exceedsDepthLimit_of_ok {v : CatTokenValidator} {now : Int64}
    {provenance : TokenProvenance} {t : CatToken}
    (h : v.validateWithProvenance now provenance t = .ok ()) :
    t.composite.exceedsDepthLimit maxNestingDepth = false := by
  rw [validateWithProvenance_eq] at h
  obtain ⟨_, -, h⟩ := Except.bind_eq_ok.mp h
  unfold validateCompositeClaims at h
  by_cases hhas : t.composite.hasComposites
  · rw [if_pos hhas] at h
    split at h
    · cases h
    · rename_i hexceeds
      exact Bool.eq_false_iff.mpr hexceeds
  · simp only [CompositeClaims.hasComposites, Bool.or_eq_true, not_or, Bool.not_eq_true,
      Option.isSome_eq_false_iff, Option.isNone_iff_eq_none] at hhas
    obtain ⟨⟨hor, hnor⟩, hand⟩ := hhas
    rw [CompositeClaims.exceedsDepthLimit, hor, hnor, hand]
    rfl

/-- **The limit is on a claim set's own operators**: a token that is admitted has at most ten on
    every path exactly when it has on the paths that go on through the composites of a nested claim
    set, where the count starts again.

    The walk that measures depth goes through composites that are members of composites. A member
    that is a whole claim set has composites too, and these are measured when the claim set is
    validated, from zero. So a path is bounded piece by piece. -/
theorem validate_limits_paths_iff {v : CatTokenValidator} {now : Int64}
    {provenance : TokenProvenance} {t : CatToken}
    (h : v.validateWithProvenance now provenance t = .ok ()) :
    (∀ p ∈ t.operatorRuns, p.sum ≤ maxNestingDepth) ↔
      ∀ p ∈ t.operatorRuns, 2 ≤ p.length → p.sum ≤ maxNestingDepth := by
  constructor
  · intro hall p hp _
    exact hall p hp
  · intro hlong p hp
    by_cases hlength : 2 ≤ p.length
    · exact hlong p hp hlength
    · rcases CatToken.run_le (CatTokenValidator.exceedsDepthLimit_of_ok h) hp with
        rfl | ⟨n, rest, rfl, hn⟩
      · exact Nat.zero_le _
      · -- the path has one run only
        rw [List.length_cons] at hlength
        obtain rfl : rest = [] := List.length_eq_zero_iff.mp (by omega)
        rw [List.sum_singleton]
        exact hn

/-- So many claim sets, each in a disjunction of the one around it. -/
def nestedTokens : Nat → CatToken
  | 0 => .new
  | n + 1 => { CatToken.new with composite := ⟨some ⟨.or, [.token (nestedTokens n)]⟩, none, none⟩ }

theorem validate_limits_paths_iff_two :
    (∀ p ∈ (nestedTokens 2).operatorRuns, p.sum ≤ maxNestingDepth) ↔
      ∀ p ∈ (nestedTokens 2).operatorRuns, 2 ≤ p.length → p.sum ≤ maxNestingDepth := by
  have hvalid : CatTokenValidator.dangerouslyAnyIssuer.validateWithProvenance 0 .signed
      (nestedTokens 2) = .ok () := by decide +kernel
  exact validate_limits_paths_iff hvalid

/-- Eleven disjunctions, one inside the claim set of the other, are admitted. -/
theorem validate_not_limits_paths : ¬∀ (v : CatTokenValidator) (now : Int64) (t : CatToken),
    v.validate now t = .ok () → ∀ p ∈ t.operatorRuns, p.sum ≤ maxNestingDepth := by
  intro hall
  have hvalid : CatTokenValidator.dangerouslyAnyIssuer.validate 0 (nestedTokens 11) = .ok () := by
    decide +kernel
  have hpath : List.replicate 11 1 ∈ (nestedTokens 11).operatorRuns := by decide +kernel
  exact absurd (hall _ _ _ hvalid _ hpath) (by decide)

end Cat
