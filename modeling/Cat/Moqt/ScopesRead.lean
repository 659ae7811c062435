import Cat.Cwt.Written
import Cat.Moqt.Authorize

/-!
# MOQT scopes read back

A scope that was encoded is decoded again as it was, unless one of its matches is for an empty
prefix or suffix: such a match the encoder writes and the decoder refuses
(`decodeScope_encodeScope`). So a token's scopes survive the wire exactly when none of their
matches is of this kind (`scopes_roundTrip_iff`). A relay that signs such a token has signed one
that no relay accepts, and it learns so only when the token comes back.

A scope is an array of one to three places: the actions, the namespace matches, the track match.
Missing places are left off at the end, so a scope with a track match and no namespace matches
has an empty array between; what stands in which place is computed once for the encoder
(`scopePlaces`) and once for the decoder (`decodeScope_eq`), and the round trip compares the
two.

Limits play no part in the statement about one scope beyond its number of matches, and enter for
the whole token at the end, with the size of the payload and the number of scopes.
-/

set_option autoImplicit false

namespace Cat

open Cbor DecodeCounters MoqtValidator

/-! ## Matches

A match is written as a map of one member or, at the end of a namespace, as null. Reading is
writing the other way round, but for the empty prefix and the empty suffix, which are written
and refused.
-/

/-- A prefix or suffix with nothing in it. -/
def BinaryMatch.isEmptyAffix (m : BinaryMatch) : Bool :=
  match m.matchType with
  | .pre | .suf => m.pattern.isEmpty
  | .any | .exact => false

def NamespaceMatch.isEmptyAffix : NamespaceMatch → Bool
  | .nil => false
  | .match_ m => m.isEmptyAffix

/-- None of the matches of a scope is for an empty prefix or suffix. -/
structure MoqtScope.Selective (scope : MoqtScope) : Prop where
  namespaces : ∀ n ∈ scope.namespaceMatches, n.isEmptyAffix = false
  track : ∀ m ∈ scope.trackMatch, m.isEmptyAffix = false

/-- The decoder on the two kinds of match that it may refuse. -/
theorem decodeBinaryMatch_pre (pattern : Bytes) :
    decodeBinaryMatch (.array [i64Value matchTypePrefix, .bytes pattern]) =
      if pattern.isEmpty then
        .error (.invalidClaimValue "prefix match pattern must not be empty")
      else .ok ⟨.pre, pattern⟩ := by
  cases pattern <;> rfl

theorem decodeBinaryMatch_suf (pattern : Bytes) :
    decodeBinaryMatch (.array [i64Value matchTypeSuffix, .bytes pattern]) =
      if pattern.isEmpty then
        .error (.invalidClaimValue "suffix match pattern must not be empty")
      else .ok ⟨.suf, pattern⟩ := by
  cases pattern <;> rfl

/-- A match is read as it was written, if it is read at all. -/
theorem decodeBinaryMatch_encode {m m' : BinaryMatch} {v : Value}
    (h : encodeBinaryMatch m = .ok v) :
    decodeBinaryMatch v = .ok m' ↔ m = m' ∧ m.isEmptyAffix = false := by
  obtain ⟨kind, pattern⟩ := m
  cases kind with
  | any => exact absurd h (by simp [encodeBinaryMatch])
  | exact =>
    obtain rfl := Except.ok.inj h
    simp [decodeBinaryMatch, BinaryMatch.isEmptyAffix]
  | pre =>
    obtain rfl := Except.ok.inj h
    rw [decodeBinaryMatch_pre]
    cases pattern <;> simp [BinaryMatch.isEmptyAffix]
  | suf =>
    obtain rfl := Except.ok.inj h
    rw [decodeBinaryMatch_suf]
    cases pattern <;> simp [BinaryMatch.isEmptyAffix]

/-- No match is written as the null that stands for the end of the namespace. -/
theorem encodeBinaryMatch_ne_null {m : BinaryMatch} {v : Value} (h : encodeBinaryMatch m = .ok v) :
    v ≠ .null := by
  obtain ⟨kind, pattern⟩ := m
  cases kind with
  | any => exact absurd h (by simp [encodeBinaryMatch])
  | exact | pre | suf =>
    obtain rfl := Except.ok.inj h
    simp

theorem decodeNamespaceMatch_encode {n n' : NamespaceMatch} {v : Value}
    (h : encodeNamespaceMatch n = .ok v) :
    decodeNamespaceMatch v = .ok n' ↔ n = n' ∧ n.isEmptyAffix = false := by
  cases n with
  | nil =>
    obtain rfl := Except.ok.inj h
    simp [decodeNamespaceMatch, NamespaceMatch.isEmptyAffix]
  | match_ m =>
    have hm : encodeBinaryMatch m = .ok v := by
      rw [encodeNamespaceMatch] at h
      split at h
      · exact absurd h (by simp)
      · exact h
    have hmatch : decodeNamespaceMatch v = (decodeBinaryMatch v).map .match_ := by
      unfold decodeNamespaceMatch
      split
      · exact absurd rfl (encodeBinaryMatch_ne_null hm)
      · rfl
    rw [hmatch, Except.map_eq_ok]
    simp only [decodeBinaryMatch_encode hm]
    constructor
    · rintro ⟨_, ⟨rfl, hne⟩, rfl⟩
      exact ⟨rfl, hne⟩
    · rintro ⟨rfl, hne⟩
      exact ⟨m, ⟨rfl, hne⟩, rfl⟩

/-- The namespace matches of a scope, and nothing behind a `nil`. -/
theorem decodeNamespaceMatches_encode {ns : List NamespaceMatch} :
    ∀ {seen : Bool} {idx : Nat} {vs : List Value} {ns' : List NamespaceMatch},
      encodeNamespaceMatches seen ns = .ok vs →
        (vs.mapM' decodeNamespaceMatch = .ok ns' ↔ ns = ns' ∧ ∀ n ∈ ns, n.isEmptyAffix = false) ∧
          vs.length = ns.length ∧ checkNilLast seen idx ns = .ok () := by
  induction ns with
  | nil =>
    intro seen idx vs ns' h
    obtain rfl := Except.ok.inj h
    refine ⟨?_, rfl, rfl⟩
    rw [List.mapM'_nil, Except.pure_eq_ok]
    exact ⟨fun heq => ⟨heq, fun _ hn => absurd hn List.not_mem_nil⟩, And.left⟩
  | cons n ns ih =>
    intro seen idx vs ns' h
    obtain ⟨hseen, h⟩ := Except.guard_eq_ok.mp h
    obtain ⟨v, hv, h⟩ := Except.bind_eq_ok.mp h
    obtain ⟨vs, hvs, h⟩ := Except.bind_eq_ok.mp h
    obtain rfl := Except.pure_eq_ok.mp h
    rw [Bool.not_eq_true] at hseen
    subst hseen
    rw [Bool.false_or] at hvs
    obtain ⟨-, hlen, hnil⟩ := @ih _ (idx + 1) _ ns hvs
    refine ⟨?_, by rw [List.length_cons, List.length_cons, hlen], ?_⟩
    · rw [List.mapM'_cons, Except.bind_eq_ok, List.forall_mem_cons]
      simp only [Except.bind_eq_ok, decodeNamespaceMatch_encode hv, (@ih _ 0 _ _ hvs).1,
        Except.pure_eq_ok]
      constructor
      · rintro ⟨_, ⟨rfl, hn⟩, _, ⟨rfl, hns⟩, rfl⟩
        exact ⟨rfl, hn, hns⟩
      · rintro ⟨rfl, hn, hns⟩
        exact ⟨n, ⟨rfl, hn⟩, ns, ⟨rfl, hns⟩, rfl⟩
    · exact hnil

/-! ## Scopes

A scope is an array of one to three places, and the last ones are left off where there is
nothing to say. The reader takes a missing place for an empty one.
-/

theorem decodeAction_encode (a : MoqtAction) :
    decodeAction (i64Value (Int64.ofInt a.toI32.toInt)) = .ok a := by
  cases a <;> rfl

theorem decodeActions_encode (as : List MoqtAction) :
    (as.map fun a => i64Value (Int64.ofInt a.toI32.toInt)).mapM' decodeAction = .ok as := by
  rw [Except.mapM'_eq_ok, List.forall₂_map_left_iff, List.forall₂_same]
  exact fun a _ => decodeAction_encode a

section
variable {H : Host} {limits : CwtLimits}

/-- What the decoder reads in the second place of a scope. -/
def scopeNamespaceMatches (limits : CwtLimits) :
    Option Value → Except CatError (List NamespaceMatch)
  | none => .ok []
  | some (.array nsArray) =>
    if nsArray.length > limits.maxNamespaceMatchesPerScope then
      .error (.invalidClaimValue
        s!"Too many namespace matches per scope: {nsArray.length} (max {limits.maxNamespaceMatchesPerScope})")
    else nsArray.mapM' decodeNamespaceMatch
  | some _ => .error (.invalidClaimValue "MOQT namespace matches must be an array")

/-- What it reads in the third. -/
def scopeTrackMatch : Option Value → Except CatError (Option BinaryMatch)
  | none => .ok none
  | some v => (decodeBinaryMatch v).map some

/-- Scopes of one to three places, with actions in the first. -/
theorem decodeScope_eq (actions : List Value) (rest : List Value) (h : rest.length ≤ 2) :
    decodeScope limits (.array (.array actions :: rest)) = (do
      let as ← actions.mapM' decodeAction
      if as.isEmpty then throw (.invalidClaimValue "MOQT scope must have at least one action")
      let ns ← scopeNamespaceMatches limits (rest[0]? : Option Value)
      checkNilLast false 0 ns
      let track ← scopeTrackMatch (rest[1]? : Option Value)
      return ⟨as, ns, track⟩) := by
  have hlimit : ∀ {α : Type} (ns : List Value) (e : CatError)
      (f : List NamespaceMatch → Except CatError α),
      (if ns.length > limits.maxNamespaceMatchesPerScope then throw e >>= f
        else ns.mapM' decodeNamespaceMatch >>= f) =
      ((if ns.length > limits.maxNamespaceMatchesPerScope then .error e
        else ns.mapM' decodeNamespaceMatch) >>= f) := by
    intro α ns e f
    split <;> rfl
  match rest with
  | [] => rfl
  | [v] =>
    cases v with
    | array ns => 
      refine congrArg (actions.mapM' decodeAction >>= ·) (funext fun as => ?_)
      refine if_congr Iff.rfl rfl ?_
      exact hlimit _ _ _
    | _ => rfl
  | [v, w] =>
    cases v with
    | array ns => 
      refine congrArg (actions.mapM' decodeAction >>= ·) (funext fun as => ?_)
      refine if_congr Iff.rfl rfl ?_
      refine (hlimit _ _ _).trans ?_
      refine congrArg (_ >>= ·) (funext fun ns => ?_)
      rfl
    | _ => rfl
  | _ :: _ :: _ :: _ =>
    simp only [List.length_cons] at h
    omega

/-- The places of an encoded scope behind its actions. -/
structure ScopePlaces (limits : CwtLimits) (scope : MoqtScope) (rest : List Value) : Prop where
  length_le : rest.length ≤ 2
  namespaces : ∀ ns, scopeNamespaceMatches limits (rest[0]? : Option Value) = .ok ns ↔
    scope.namespaceMatches = ns ∧ ∀ n ∈ scope.namespaceMatches, n.isEmptyAffix = false
  nilLast : checkNilLast false 0 scope.namespaceMatches = .ok ()
  track : ∀ m, scopeTrackMatch (rest[1]? : Option Value) = .ok m ↔
    scope.trackMatch = m ∧ ∀ m ∈ scope.trackMatch, m.isEmptyAffix = false

theorem scopeTrackMatch_encode {m : BinaryMatch} {v : Value} (h : encodeBinaryMatch m = .ok v)
    (o : Option BinaryMatch) : scopeTrackMatch (some v) = .ok o ↔
      some m = o ∧ ∀ m' ∈ some m, m'.isEmptyAffix = false := by
  rw [scopeTrackMatch, Except.map_eq_ok]
  simp only [decodeBinaryMatch_encode h, Option.mem_some_iff, forall_eq']
  constructor
  · rintro ⟨_, ⟨rfl, hm⟩, rfl⟩
    exact ⟨rfl, hm⟩
  · rintro ⟨rfl, hm⟩
    exact ⟨m, ⟨rfl, hm⟩, rfl⟩

theorem scopeNamespaceMatches_encode {ns : List NamespaceMatch} {vs : List Value}
    (h : encodeNamespaceMatches false ns = .ok vs)
    (hns : ns.length ≤ limits.maxNamespaceMatchesPerScope) (ns' : List NamespaceMatch) :
    scopeNamespaceMatches limits (some (.array vs)) = .ok ns' ↔
      ns = ns' ∧ ∀ n ∈ ns, n.isEmptyAffix = false := by
  obtain ⟨hiff, hlen, -⟩ := @decodeNamespaceMatches_encode _ _ 0 _ ns' h
  rw [scopeNamespaceMatches, if_neg (by omega), hiff]

/-- The places of an encoded scope are those the decoder looks at, whether they were left off or
    not. -/
theorem scopePlaces {scope : MoqtScope} {ns track : List Value}
    (hns : scopeNamespaces scope = .ok ns) (htrack : scopeTrack scope = .ok track)
    (hlen : scope.namespaceMatches.length ≤ limits.maxNamespaceMatchesPerScope) :
    ScopePlaces limits scope (ns ++ track) := by
  obtain ⟨actions, matches', m⟩ := scope
  have hnil : ∀ {vs}, encodeNamespaceMatches false matches' = .ok vs →
      checkNilLast false 0 matches' = .ok () :=
    fun h => (@decodeNamespaceMatches_encode _ _ _ _ [] h).2.2
  have hnone : ∀ o : Option BinaryMatch, scopeTrackMatch none = .ok o ↔
      none = o ∧ ∀ m ∈ (none : Option BinaryMatch), m.isEmptyAffix = false := by
    intro o
    simp [scopeTrackMatch]
  unfold scopeNamespaces at hns
  unfold scopeTrack at htrack
  cases matches' with
  | nil =>
    obtain rfl := Except.ok.inj hns
    have hempty : encodeNamespaceMatches false [] = .ok [] := rfl
    cases m with
    | none =>
      obtain rfl := Except.ok.inj htrack
      refine ⟨by simp, fun ns => ?_, rfl, hnone⟩
      simp [scopeNamespaceMatches]
    | some m =>
      obtain ⟨-, h⟩ := Except.guard_eq_ok.mp htrack
      obtain ⟨v, hv, h⟩ := Except.bind_eq_ok.mp h
      obtain rfl := Except.pure_eq_ok.mp h
      exact ⟨by simp, scopeNamespaceMatches_encode hempty hlen, rfl, scopeTrackMatch_encode hv⟩
  | cons n ns' =>
    obtain ⟨vs, hvs, h⟩ := Except.bind_eq_ok.mp hns
    obtain rfl := Except.pure_eq_ok.mp h
    cases m with
    | none =>
      obtain rfl := Except.ok.inj htrack
      exact ⟨by simp, scopeNamespaceMatches_encode hvs hlen, hnil hvs, hnone⟩
    | some m =>
      obtain ⟨-, h⟩ := Except.guard_eq_ok.mp htrack
      obtain ⟨v, hv, h⟩ := Except.bind_eq_ok.mp h
      obtain rfl := Except.pure_eq_ok.mp h
      exact ⟨by simp, scopeNamespaceMatches_encode hvs hlen, hnil hvs, scopeTrackMatch_encode hv⟩

/-- **A scope is read as it was written**, if none of its matches is for an empty prefix or
    suffix, and not at all otherwise. -/
theorem decodeScope_encodeScope {scope scope' : MoqtScope} {v : Value}
    (h : encodeScope scope = .ok v)
    (hlen : scope.namespaceMatches.length ≤ limits.maxNamespaceMatchesPerScope) :
    decodeScope limits v = .ok scope' ↔ scope = scope' ∧ scope.Selective := by
  rw [encodeScope_eq] at h
  obtain ⟨hactions, h⟩ := Except.guard_eq_ok.mp h
  obtain ⟨ns, hns, h⟩ := Except.bind_eq_ok.mp h
  obtain ⟨track, htrack, h⟩ := Except.bind_eq_ok.mp h
  obtain rfl := Except.pure_eq_ok.mp h
  have hplaces := scopePlaces hns htrack hlen
  rw [List.append_assoc, List.singleton_append, decodeScope_eq _ _ hplaces.length_le,
    decodeActions_encode]
  simp only [Except.bind_eq_ok, Except.guard_eq_ok, hplaces.namespaces, hplaces.track,
    Except.pure_eq_ok, Except.ok.injEq, exists_eq_left']
  constructor
  · rintro ⟨-, _, ⟨rfl, hnss⟩, _, -, _, ⟨rfl, hm⟩, rfl⟩
    exact ⟨rfl, hnss, hm⟩
  · rintro ⟨rfl, hsel⟩
    exact ⟨hactions, _, ⟨rfl, hsel.namespaces⟩, (), hplaces.nilLast, _, ⟨rfl, hsel.track⟩, rfl⟩

theorem decodeScopes_encode {scopes scopes' : List MoqtScope} {vs : List Value}
    (h : scopes.mapM' encodeScope = .ok vs)
    (hlen : ∀ scope ∈ scopes,
      scope.namespaceMatches.length ≤ limits.maxNamespaceMatchesPerScope) :
    vs.mapM' (decodeScope limits) = .ok scopes' ↔
      scopes = scopes' ∧ ∀ scope ∈ scopes, scope.Selective := by
  rw [Except.mapM'_eq_ok] at h ⊢
  induction h generalizing scopes' with
  | nil => simp
  | @cons scope v scopes vs hv _ ih =>
    rw [List.forall_mem_cons] at hlen ⊢
    constructor
    · intro hall
      cases hall with
      | cons hscope hrest =>
        obtain ⟨rfl, hsel⟩ := (decodeScope_encodeScope hv hlen.1).mp hscope
        obtain ⟨rfl, hsels⟩ := (ih hlen.2).mp hrest
        exact ⟨rfl, hsel, hsels⟩
    · rintro ⟨rfl, hsel, hsels⟩
      exact .cons ((decodeScope_encodeScope hv hlen.1).mpr ⟨rfl, hsel⟩) ((ih hlen.2).mpr ⟨rfl, hsels⟩)

/-! ## Heights -/

theorem encodeBinaryMatch_height {m : BinaryMatch} {v : Value} (h : encodeBinaryMatch m = .ok v) :
    v.height ≤ 1 := by
  obtain ⟨kind, pattern⟩ := m
  cases kind with
  | any => exact absurd h (by simp [encodeBinaryMatch])
  | exact | pre | suf =>
    obtain rfl := Except.ok.inj h
    exact Nat.le_of_ble_eq_true rfl

theorem encodeNamespaceMatches_height {ns : List NamespaceMatch} :
    ∀ {seen : Bool} {vs : List Value}, encodeNamespaceMatches seen ns = .ok vs →
      ∀ v ∈ vs, v.height ≤ 1 := by
  induction ns with
  | nil =>
    intro seen vs h
    obtain rfl := Except.ok.inj h
    exact fun v hv => absurd hv List.not_mem_nil
  | cons n ns ih =>
    intro seen vs h
    obtain ⟨-, h⟩ := Except.guard_eq_ok.mp h
    obtain ⟨v, hv, h⟩ := Except.bind_eq_ok.mp h
    obtain ⟨vs, hvs, h⟩ := Except.bind_eq_ok.mp h
    obtain rfl := Except.pure_eq_ok.mp h
    refine List.forall_mem_cons.mpr ⟨?_, ih hvs⟩
    unfold encodeNamespaceMatch at hv
    split at hv
    · obtain rfl := Except.ok.inj hv
      exact Nat.zero_le _
    · split at hv
      · exact absurd hv (by simp)
      · exact encodeBinaryMatch_height hv

/-- A scope is an array of arrays of arrays. -/
theorem encodeScope_height {scope : MoqtScope} {v : Value} (h : encodeScope scope = .ok v) :
    v.height ≤ 3 := by
  rw [encodeScope_eq] at h
  obtain ⟨-, h⟩ := Except.guard_eq_ok.mp h
  obtain ⟨ns, hns, h⟩ := Except.bind_eq_ok.mp h
  obtain ⟨track, htrack, h⟩ := Except.bind_eq_ok.mp h
  obtain rfl := Except.pure_eq_ok.mp h
  refine Value.height_array ?_
  rw [List.forall_mem_append, List.forall_mem_append, List.forall_mem_singleton]
  refine ⟨⟨Value.height_array ?_, ?_⟩, ?_⟩
  · rw [List.forall_mem_map]
    exact fun _ _ => Nat.zero_le _
  · unfold scopeNamespaces at hns
    split at hns
    · obtain rfl := Except.ok.inj hns
      exact fun v hv => absurd hv List.not_mem_nil
    · obtain ⟨vs, hvs, h⟩ := Except.bind_eq_ok.mp hns
      obtain rfl := Except.pure_eq_ok.mp h
      rw [List.forall_mem_singleton]
      exact Value.height_array (encodeNamespaceMatches_height hvs)
  · unfold scopeTrack at htrack
    split at htrack
    · obtain rfl := Except.ok.inj htrack
      exact fun v hv => absurd hv List.not_mem_nil
    · obtain ⟨-, h⟩ := Except.guard_eq_ok.mp htrack
      obtain ⟨v, hv, h⟩ := Except.bind_eq_ok.mp h
      obtain rfl := Except.pure_eq_ok.mp h
      rw [List.forall_mem_append, List.forall_mem_singleton]
      refine ⟨?_, (encodeBinaryMatch_height hv).trans (by decide)⟩
      split
      · rw [List.forall_mem_singleton]
        exact Nat.le_of_ble_eq_true rfl
      · exact fun v hv => absurd hv List.not_mem_nil

/-! ## The claim

The list of scopes under its label, which no custom claim can take.
-/

theorem encode_moqt {scopes : List MoqtScope} {v : Value} :
    (DecodedClaim.moqt scopes).encode H = .ok (some v) ↔
      ∃ vs, scopes.mapM' encodeScope = .ok vs ∧ v = .array vs := by
  have henc : (DecodedClaim.moqt scopes).encode H =
      whenSome (some scopes) fun scopes => do
        let vs ← (scopes.mapM' encodeScope : Except CatError (List Value))
        return .array vs := rfl
  rw [henc, whenSome_eq_ok]
  simp only [Option.some.injEq, exists_eq_left', Except.bind_eq_ok, Failure.lift_eq_ok,
    Except.pure_eq_ok, @eq_comm _ _ v]

/-- Nothing but scopes is under the label of the scopes: a custom claim may not take it. -/
theorem eq_moqt_of_label {d : DecodedClaim} (h : d.label = claimMoqt) :
    ∃ scopes, d = .moqt scopes := by
  cases d with
  | moqt scopes => exact ⟨scopes, rfl⟩
  | custom id hid v =>
    obtain rfl : id = claimMoqt := h
    exact absurd hid (by decide)
  | _ => exact absurd h (by simp only [DecodedClaim.label]; decide)

theorem flat_encodedScopes {scopes : List MoqtScope} {vs : List Value}
    (h : scopes.mapM' encodeScope = .ok vs) : (Value.array vs).Flat := by
  refine Value.flat_array.mpr fun v hv => ?_
  obtain ⟨scope, -, hscope⟩ := (Except.mapM'_eq_ok.mp h).exists_of_mem_right hv
  exact flat_encodeScope hscope

/-- **The scopes of a token are read as they are**, if none of their matches is for an empty
    prefix or suffix. -/
theorem reads_moqt {scopes : List MoqtScope} {v : Value}
    (hv : (DecodedClaim.moqt scopes).encode H = .ok (some v))
    (hscopes : scopes.length ≤ limits.maxMoqtScopes)
    (hlen : ∀ scope ∈ scopes,
      scope.namespaceMatches.length ≤ limits.maxNamespaceMatchesPerScope)
    {d : DecodedClaim} {c : DecodeCounters} :
    ReadsAs H limits (.moqt scopes) d c ↔
      d = .moqt scopes ∧ c = 0 ∧ ∀ scope ∈ scopes, scope.Selective := by
  obtain ⟨vs, hvs, rfl⟩ := encode_moqt.mp hv
  have hback := (flat_encodedScopes hvs).readBack
  have hkey : isCompositeKey (i64Value claimMoqt) = false := by decide
  constructor
  · intro h
    obtain ⟨scopes', rfl⟩ := eq_moqt_of_label h.label
    obtain ⟨⟨vs', heq, -, hdec⟩, rfl⟩ := h.form hv hkey
    rw [hback] at heq
    obtain rfl := Value.array.inj heq
    obtain ⟨rfl, hsel⟩ := (decodeScopes_encode hvs hlen).mp hdec
    exact ⟨rfl, rfl, hsel⟩
  · rintro ⟨rfl, rfl, hsel⟩
    refine .of_form hv ?_ rfl hkey (within_zero _)
    rw [hback]
    refine ⟨⟨vs, rfl, ?_, (decodeScopes_encode hvs hlen).mpr ⟨rfl, hsel⟩⟩, rfl⟩
    rwa [← (Except.mapM'_eq_ok.mp hvs).length_eq]

/-! ## Tokens

In a token that has its scopes and nothing else, so that the condition is about scopes alone.
-/

/-- The token with these scopes and nothing else. -/
def scopesToken (scopes : List MoqtScope) : CatToken :=
  { CatToken.new with moqt := { moqt := some scopes } }

theorem scopesToken_claims (scopes : List MoqtScope) :
    (scopesToken scopes).claims = [.moqt scopes] := rfl

theorem scopesToken_keysGiven (scopes : List MoqtScope) : (scopesToken scopes).KeysGiven := by
  refine ⟨⟨?_, ?_, ?_, ?_, ?_⟩, fun _ => trivial, fun _ => trivial, fun _ => trivial⟩
  · -- the label of the scopes is the only one
    intro a ha _ b hb
    have ha' : a ∈ [claimMoqt] := ha
    have hb' : b ∈ [claimMoqt] := hb
    rw [List.mem_singleton.mp ha', List.mem_singleton.mp hb']
  · exact fun _ h => absurd h (by simp [CatToken.new])
  · exact fun _ h => absurd h (by simp [CatToken.new])
  · exact fun _ h => absurd h (by simp [CatToken.new])
  · exact fun _ h => absurd h List.not_mem_nil

theorem encode_moqt_height {scopes : List MoqtScope} {v : Value}
    (h : (DecodedClaim.moqt scopes).encode H = .ok (some v)) : v.height ≤ 4 := by
  obtain ⟨vs, hvs, rfl⟩ := encode_moqt.mp h
  refine Value.height_array fun v hv => ?_
  obtain ⟨scope, -, hscope⟩ := (Except.mapM'_eq_ok.mp hvs).exists_of_mem_right hv
  exact encodeScope_height hscope

/-- **Scopes come back as they were sent**, and match the same requests, exactly when none of
    their matches is for an empty prefix or suffix.

    The decoder refuses an empty prefix or suffix because it would match everything; the encoder
    refuses the match for anything under its own name and lets these two pass. The builder knows for
    tracks, and not for namespaces. -/
theorem scopes_roundTrip_iff {scopes : List MoqtScope} {b : Bytes}
    (h : encodePayload H (scopesToken scopes) = .ok b)
    (hsize : b.length ≤ CwtLimits.default.maxCborPayloadSize)
    (hscopes : scopes.length ≤ CwtLimits.default.maxMoqtScopes)
    (hmatches : ∀ scope ∈ scopes,
      scope.namespaceMatches.length ≤ CwtLimits.default.maxNamespaceMatchesPerScope) :
    (∃ t, decodePayload H b = .ok t ∧ t.moqt.moqt = some scopes ∧
        ∀ ctx : RelayRequestContext H,
          matchScopeIndex t ctx = matchScopeIndex (scopesToken scopes) ctx) ↔
      ∀ scope ∈ scopes, scope.Selective := by
  have hmem : DecodedClaim.moqt scopes ∈ (scopesToken scopes).claims := List.mem_singleton_self _
  constructor
  · rintro ⟨t, hdec, -, -⟩
    obtain ⟨d, c, hd⟩ := (decode_written_ok h hdec).1.reads _ hmem
    obtain ⟨v, hv, -⟩ := hd.yields
    exact ((reads_moqt hv hscopes hmatches).mp hd).2.2
  · intro hsel
    have hreads {v : Value} (hv : (DecodedClaim.moqt scopes).encode H = .ok (some v)) :
        ReadsAs H .default (.moqt scopes) (.moqt scopes) 0 :=
      (reads_moqt hv hscopes hmatches).mpr ⟨rfl, rfl, hsel⟩
    obtain ⟨m, hm, -⟩ := encodePayload_ok h
    obtain ⟨v, hv⟩ := encode_of_mem_claims hm hmem
    have hheight (d : DecodedClaim) (hd : d ∈ (scopesToken scopes).claims) (w : Value)
        (hw : d.encode H = .ok (some w)) : w.height ≤ 4 := by
      rw [scopesToken_claims, List.mem_singleton] at hd
      subst hd
      exact encode_moqt_height hw
    have hdec : ∃ t, decodePayload H b = .ok t := by
      refine (decode_written_iff h).mpr ⟨hsize, readable_of_height h fun d hd w hw => ?_,
        fun d hd w hw => ?_, scopesToken_keysGiven scopes, fun d hd => ?_, Nat.zero_le _, ?_⟩
      · exact Nat.lt_of_le_of_lt (Nat.succ_le_succ (hheight d hd w hw)) (by decide)
      · have := (walkDepth_readBack_le w).trans (hheight d hd w hw)
        exact Nat.lt_of_le_of_lt this (by decide)
      · rw [scopesToken_claims, List.mem_singleton] at hd
        subst hd
        exact ⟨_, _, hreads hv⟩
      · rw [CatToken.readCost, scopesToken_claims, List.map_singleton, (hreads hv).cost_eq]
        exact ⟨by decide, by decide, by decide, by decide⟩
    obtain ⟨t, ht⟩ := hdec
    obtain ⟨-, hhas⟩ := decode_written_ok h ht
    have hmoqt : t.moqt.moqt = some scopes :=
      (hhas (.moqt scopes)).mpr ⟨⟨_, hmem, 0, hreads hv⟩, trivial⟩
    refine ⟨t, ht, hmoqt, fun ctx => ?_⟩
    rw [matchScopeIndex, matchScopeIndex, hmoqt]
    rfl

end

/-- A scope that permits subscribing under a namespace that starts with `live`. -/
def liveScope : MoqtScope := ⟨[.subscribe], [.match_ ⟨.pre, utf8 "live"⟩], none⟩

/-- The payload of a token with this scope. -/
def livePayload : Bytes :=
  [0xa1, 0x19, 0x01, 0x47, 0x81, 0x82, 0x81, 0x04, 0x81, 0x82, 0x01, 0x44, 0x6c, 0x69, 0x76, 0x65]

theorem scopes_roundTrip_iff_live :
    (∃ t, decodePayload .reference livePayload = .ok t ∧ t.moqt.moqt = some [liveScope] ∧
        ∀ ctx : RelayRequestContext .reference,
          matchScopeIndex t ctx = matchScopeIndex (scopesToken [liveScope]) ctx) ↔
      ∀ scope ∈ [liveScope], scope.Selective :=
  scopes_roundTrip_iff (by decide +kernel) (by decide) (by decide) (by decide)

/-- One that permits it under every namespace, by a prefix with nothing in it. -/
def anyNamespaceScope : MoqtScope := ⟨[.subscribe], [.match_ ⟨.pre, []⟩], none⟩

/-- The encoder writes what the decoder then refuses. -/
theorem scopes_not_roundTrip :
    ¬∀ (H : Host) (scopes : List MoqtScope) (b : Bytes),
      encodePayload H (scopesToken scopes) = .ok b →
      b.length ≤ CwtLimits.default.maxCborPayloadSize →
      scopes.length ≤ CwtLimits.default.maxMoqtScopes →
      (∀ scope ∈ scopes,
        scope.namespaceMatches.length ≤ CwtLimits.default.maxNamespaceMatchesPerScope) →
      ∃ t, decodePayload H b = .ok t ∧ t.moqt.moqt = some scopes := by
  intro h
  obtain ⟨t, ht, -⟩ := h .reference [anyNamespaceScope]
    [0xa1, 0x19, 0x01, 0x47, 0x81, 0x82, 0x81, 0x04, 0x81, 0x82, 0x01, 0x40]
    (by decide +kernel) (by decide) (by decide) (by decide)
  have hrefused : (decodePayload .reference
      [0xa1, 0x19, 0x01, 0x47, 0x81, 0x82, 0x81, 0x04, 0x81, 0x82, 0x01, 0x40]).isOk = false := by
    decide +kernel
  rw [ht] at hrefused
  cases hrefused

end Cat
