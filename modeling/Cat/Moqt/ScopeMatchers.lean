import Cat.Moqt.Authorize

/-!
# Three matchers of scopes

Whether a scope grants a request is decided in three places: the validator looks for the first
scope that does (`matchScopeIndex`), the claims answer whether any does (`allowsMoqtAction`),
and the scope itself matches a full track name. What they decide is one condition
(`MoqtScope.Grants`), and a request tuple that is shorter or longer than the scope's list of
matchers is read alike by all of them.

The three were written apart, one as a loop that counts and the others as tests of all elements,
and two of the three repeat the tests on the tuple and the track. Agreement of functions that
are to decide one question is best shown by stating the question: `Grants` is that, and each
function is an equivalence with it. That they agree with each other follows, and that it is the
first scope which is reported is the one thing beyond it.
-/

set_option autoImplicit false

namespace Cat

open Cbor

/-! ## The matchers of the claims -/

namespace MoqtScope

def allowsAction (scope : MoqtScope) (action : MoqtAction) : Bool := scope.actions.contains action

/-- The matchers against the elements of the tuple, `none` where it has ended. -/
def matchesNamespace (scope : MoqtScope) (namespaces : List Bytes) : Bool :=
  scope.namespaceMatches.zipIdx.all fun e => e.1.matches_ namespaces[e.2]?

def matchesTrack (scope : MoqtScope) (track : Bytes) : Bool :=
  match scope.trackMatch with
  | some m => m.matches_ track
  | none => true

/-- A loop over the matches with their positions, which leaves at the first that does not hold. -/
def matchesFullTrackName (scope : MoqtScope) (namespaceTuple : List Bytes) (track : Bytes) : Bool :=
  if scope.namespaceMatches.zipIdx.any fun e => !e.1.matches_ namespaceTuple[e.2]? then false
  else
    match scope.trackMatch with
    | some m => if !m.matches_ track then false else true
    | none => true

/-- The scope covers the action, and its selectors accept the namespace and the track. -/
structure Grants (scope : MoqtScope) (action : MoqtAction) (namespaces : List Bytes)
    (track : Bytes) : Prop where
  action : action ∈ scope.actions
  selectors : ∀ (i : Nat) (m : NamespaceMatch), scope.namespaceMatches[i]? = some m →
    m.matches_ namespaces[i]? = true
  track : ∀ m ∈ scope.trackMatch, m.matches_ track = true

end MoqtScope

/-- Fails closed: no scopes grant nothing. -/
def CatToken.allowsMoqtAction (token : CatToken) (action : MoqtAction) (namespaces : List Bytes)
    (track : Bytes) : Bool :=
  match token.moqt.moqt with
  | some scopes => scopes.any fun scope =>
    if !scope.allowsAction action then false
    else if !scope.matchesNamespace namespaces then false
    else if scope.trackMatch.isSome && !scope.matchesTrack track then false
    else true
  | none => false

/-! ## What they decide -/

section
variable {scope : MoqtScope} {action : MoqtAction} {namespaces : List Bytes} {track : Bytes}

theorem MoqtScope.allowsAction_iff : scope.allowsAction action = true ↔ action ∈ scope.actions :=
  List.contains_iff_mem

theorem MoqtScope.matchesNamespace_iff :
    scope.matchesNamespace namespaces = true ↔
      ∀ (i : Nat) (m : NamespaceMatch), scope.namespaceMatches[i]? = some m →
        m.matches_ namespaces[i]? = true := by
  unfold matchesNamespace
  rw [List.all_eq_true]
  constructor
  · intro h i m hm
    exact h (m, i) (List.mk_mem_zipIdx_iff_getElem?.mpr hm)
  · intro h e he
    exact h e.2 e.1 (List.mem_zipIdx_iff_getElem?.mp he)

theorem MoqtScope.matchesTrack_iff :
    scope.matchesTrack track = true ↔ ∀ m ∈ scope.trackMatch, m.matches_ track = true := by
  unfold matchesTrack
  cases scope.trackMatch with
  | none => simp
  | some m => simp

/-- **The full track name is the namespace and the track.** -/
theorem MoqtScope.matchesFullTrackName_eq (scope : MoqtScope) (namespaces : List Bytes)
    (track : Bytes) :
    scope.matchesFullTrackName namespaces track =
      (scope.matchesNamespace namespaces && scope.matchesTrack track) := by
  unfold matchesFullTrackName matchesNamespace matchesTrack
  rw [← List.not_all_eq_any_not]
  cases scope.namespaceMatches.zipIdx.all fun e => e.1.matches_ namespaces[e.2]? with
  | false => rfl
  | true =>
    cases scope.trackMatch with
    | none => rfl
    | some m => simp

/-- The validator counts along its list instead; from `k` on it looks at the rest of the tuple. -/
theorem MoqtValidator.namespacesMatch_iff (namespaces : List Bytes) (k : Nat)
    (ms : List NamespaceMatch) :
    namespacesMatch namespaces k ms = true ↔
      ∀ (i : Nat) (m : NamespaceMatch), ms[i]? = some m →
        m.matches_ namespaces[k + i]? = true := by
  -- on the list of matches, for every place in the tuple: the counter moves with it
  induction ms generalizing k with
  | nil => simp [namespacesMatch]
  | cons m ms ih =>
    rw [namespacesMatch, Bool.and_eq_true, ih]
    constructor
    · intro h i m' hm'
      cases i with
      | zero =>
        obtain rfl := Option.some.inj hm'
        exact h.1
      | succ i =>
        have hrest := h.2 i m' hm'
        rwa [Nat.add_right_comm] at hrest
    · intro h
      refine ⟨h 0 m rfl, ?_⟩
      intro i m' hm'
      rw [Nat.add_right_comm]
      exact h (i + 1) m' hm'

end

section
variable {H : Host} {scope : MoqtScope} {ctx : RelayRequestContext H}

theorem MoqtValidator.scopeMatches_iff :
    scopeMatches scope ctx = true ↔ scope.Grants ctx.action ctx.namespaces ctx.track := by
  unfold scopeMatches
  rw [Bool.and_eq_true, Bool.and_eq_true, namespacesMatch_iff, List.contains_iff_mem]
  have htrack : (scope.trackMatch.all fun m => m.matches_ ctx.track) = true ↔
      ∀ m ∈ scope.trackMatch, m.matches_ ctx.track = true := by
    cases scope.trackMatch with
    | none => simp
    | some m => simp
  rw [htrack]
  constructor
  · intro h
    refine ⟨h.1.1, ?_, h.2⟩
    intro i m hm
    have hmatch := h.1.2 i m hm
    rwa [Nat.zero_add] at hmatch
  · intro h
    refine ⟨⟨h.action, ?_⟩, h.track⟩
    intro i m hm
    rw [Nat.zero_add]
    exact h.selectors i m hm

theorem CatToken.allowsMoqtAction_iff {token : CatToken} {action : MoqtAction}
    {namespaces : List Bytes} {track : Bytes} :
    token.allowsMoqtAction action namespaces track = true ↔
      ∃ scopes, token.moqt.moqt = some scopes ∧
        ∃ scope ∈ scopes, scope.Grants action namespaces track := by
  unfold allowsMoqtAction
  cases token.moqt.moqt with
  | none => simp
  | some scopes =>
    -- the three tests of the loop body, one after the other
    have hscope (scope : MoqtScope) :
        (if !scope.allowsAction action then false
          else if !scope.matchesNamespace namespaces then false
          else if scope.trackMatch.isSome && !scope.matchesTrack track then false
          else true) = true ↔ scope.Grants action namespaces track := by
      have htrack : (scope.trackMatch.isSome && !scope.matchesTrack track) =
          !scope.matchesTrack track := by
        unfold MoqtScope.matchesTrack
        cases scope.trackMatch with
        | none => rfl
        | some m => rfl
      rw [htrack]
      constructor
      · intro h
        refine ⟨?_, ?_, ?_⟩
        · apply MoqtScope.allowsAction_iff.mp
          by_contra hno
          simp [hno] at h
        · apply MoqtScope.matchesNamespace_iff.mp
          by_contra hno
          simp [hno] at h
        · apply MoqtScope.matchesTrack_iff.mp
          by_contra hno
          simp [hno] at h
      · intro h
        rw [MoqtScope.allowsAction_iff.mpr h.action,
          MoqtScope.matchesNamespace_iff.mpr h.selectors, MoqtScope.matchesTrack_iff.mpr h.track]
        rfl
    simp only [List.any_eq_true, hscope, Option.some.injEq, exists_eq_left']

/-- The index is the least one of a scope that grants the request. -/
theorem MoqtValidator.matchScopeIndex_eq_some {token : CatToken} {i : Nat} :
    matchScopeIndex token ctx = some i ↔ ∃ scopes, token.moqt.moqt = some scopes ∧
      (∃ scope, scopes[i]? = some scope ∧
        scope.Grants ctx.action ctx.namespaces ctx.track) ∧
      ∀ j < i, ∀ scope, scopes[j]? = some scope →
        ¬scope.Grants ctx.action ctx.namespaces ctx.track := by
  unfold matchScopeIndex
  rw [Option.bind_eq_some_iff]
  refine exists_congr fun scopes => and_congr_right fun _ => ?_
  rw [List.findIdx?_eq_some_iff_getElem]
  constructor
  · intro h
    obtain ⟨hlt, hgrants, hleast⟩ := h
    refine ⟨⟨scopes[i], List.getElem?_eq_getElem hlt, scopeMatches_iff.mp hgrants⟩, ?_⟩
    intro j hj scope hscope
    have hno := hleast j hj
    rw [List.getElem?_eq_getElem (hj.trans hlt)] at hscope
    rw [← Option.some.inj hscope]
    exact fun hgrants => hno (scopeMatches_iff.mpr hgrants)
  · intro h
    obtain ⟨⟨scope, hscope, hgrants⟩, hleast⟩ := h
    obtain ⟨hlt, heq⟩ := List.getElem?_eq_some_iff.mp hscope
    refine ⟨hlt, scopeMatches_iff.mpr (heq ▸ hgrants), ?_⟩
    intro j hj hmatches
    exact hleast j hj scopes[j] (List.getElem?_eq_getElem (hj.trans hlt))
      (scopeMatches_iff.mp hmatches)

/-- **The matchers agree**: the validator finds a scope exactly when the claims allow the
    action; it finds the first one that covers the action and matches namespace and track;
    and the full track name of a scope is matched as the validator matches its two parts.

    Three functions of the source decide about scopes, each with a loop of its own. All of them are
    compared with one condition on a scope, and so with each other. -/
theorem scopeMatchers_agree (token : CatToken) (ctx : RelayRequestContext H) :
    ((∃ i, MoqtValidator.matchScopeIndex token ctx = some i) ↔
        token.allowsMoqtAction ctx.action ctx.namespaces ctx.track = true) ∧
      (∀ i, MoqtValidator.matchScopeIndex token ctx = some i ↔
        ∃ scopes, token.moqt.moqt = some scopes ∧
          (∃ scope, scopes[i]? = some scope ∧
            scope.Grants ctx.action ctx.namespaces ctx.track) ∧
          ∀ j < i, ∀ scope, scopes[j]? = some scope →
            ¬scope.Grants ctx.action ctx.namespaces ctx.track) ∧
      ∀ scope : MoqtScope,
        scope.matchesFullTrackName ctx.namespaces ctx.track =
            (scope.matchesNamespace ctx.namespaces && scope.matchesTrack ctx.track) ∧
          MoqtValidator.scopeMatches scope ctx =
            (scope.allowsAction ctx.action &&
              scope.matchesFullTrackName ctx.namespaces ctx.track) := by
  refine ⟨?_, fun i => MoqtValidator.matchScopeIndex_eq_some, ?_⟩
  · rw [CatToken.allowsMoqtAction_iff, ← Option.isSome_iff_exists]
    unfold MoqtValidator.matchScopeIndex
    cases token.moqt.moqt with
    | none => simp
    | some scopes =>
      simp [List.findIdx?_isSome, MoqtValidator.scopeMatches_iff]
  · intro scope
    refine ⟨scope.matchesFullTrackName_eq _ _, ?_⟩
    rw [Bool.eq_iff_iff, MoqtValidator.scopeMatches_iff, scope.matchesFullTrackName_eq,
      Bool.and_eq_true, Bool.and_eq_true, MoqtScope.allowsAction_iff,
      MoqtScope.matchesNamespace_iff, MoqtScope.matchesTrack_iff]
    constructor
    · intro h
      exact ⟨h.action, h.selectors, h.track⟩
    · intro h
      exact ⟨h.1, h.2.1, h.2.2⟩

end

end Cat
