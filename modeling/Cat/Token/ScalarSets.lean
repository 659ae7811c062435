import Cat.ClaimSets
import Cat.Lib.Cbor.Writable
import Cat.Token.FlatTokens
import Cat.Token.Validator

/-!
# Composites over scalar claim sets

What composites come to on the wire when their claim sets carry an issuer, times and an
identifier and nothing else: how deep they nest (`walkDepth_scalars`), what they cost to read,
and that the decoder reads them wherever its own limit on nested composites allows
(`returns_scalars`).

The crate counts the depth of a composite in operators (`get_depth`). A reader of the payload
counts containers, and an operator is an array in a map.

Three recursions meet here, and they are over different things: the encoder goes over the
composite, the nesting check over the bytes, the decoder over the value with fuel. All of them
are brought to the composite, by one induction principle over composites that were written
(`written_induction`): its hypotheses are what the encoder gives at a node.
Scalar claim sets make the leaves easy, since such a claim costs at most a string and nests
nowhere.
-/

set_option autoImplicit false

namespace Cat

open Cbor DecodeCounters

/-! ## Depth

`NestsAtMost` is the bound as a predicate, which is what inductions can use; that `get_depth`
decides it below its limit is the connection.
-/

mutual
/-- `get_depth_bounded`. -/
def CompositeClaim.getDepthBounded (currentDepth maxAllowed : Nat) :
    CompositeClaim → Except CatError Nat
  | ⟨_, claims⟩ =>
    if currentDepth > maxAllowed then
      .error (.invalidClaimValue "Composite claim nesting depth exceeds maximum")
    else deepest currentDepth maxAllowed claims
def ClaimSet.getDepthBounded (currentDepth maxAllowed : Nat) : ClaimSet → Except CatError Nat
  | .token _ => .ok 1
  | .composite c => (c.getDepthBounded (currentDepth + 1) maxAllowed).map (· + 1)
/-- The loop over the members: one, or one more than the deepest of them. -/
def deepest (currentDepth maxAllowed : Nat) : List ClaimSet → Except CatError Nat
  | [] => .ok 1
  | cs :: css => do
    let childDepth ← cs.getDepthBounded currentDepth maxAllowed
    return max childDepth (← deepest currentDepth maxAllowed css)
end

/-- A depth that is over the limit counts as the limit. -/
def CompositeClaim.getDepth (c : CompositeClaim) : Nat :=
  match c.getDepthBounded 0 maxEvaluateDepth with
  | .ok depth => depth
  | .error _ => maxEvaluateDepth

def CompositeClaims.getMaxDepth (c : CompositeClaims) : Nat :=
  max (max (c.orClaim.elim 0 (·.getDepth)) (c.norClaim.elim 0 (·.getDepth)))
    (c.andClaim.elim 0 (·.getDepth))

/-- At most so many operators, one inside the other. -/
def CompositeClaim.NestsAtMost : Nat → CompositeClaim → Prop
  | 0, _ => False
  | n + 1, c => ∀ c', ClaimSet.composite c' ∈ c.claims → c'.NestsAtMost n

/-- Whether a claim set inside so many further operators carries a claim. -/
def CompositeClaim.CarriesAt : Nat → CompositeClaim → Prop
  | 0, c => ∃ u, ClaimSet.token u ∈ c.claims ∧ u.claims ≠ []
  | n + 1, c => ∃ c', ClaimSet.composite c' ∈ c.claims ∧ c'.CarriesAt n

theorem deepest_eq_ok {currentDepth maxAllowed d : Nat} {css : List ClaimSet}
    (h : deepest currentDepth maxAllowed css = .ok d) :
    ∀ c, ClaimSet.composite c ∈ css →
      ∃ d', c.getDepthBounded (currentDepth + 1) maxAllowed = .ok d' ∧ d' + 1 ≤ d := by
  induction css generalizing d with
  | nil => exact fun c hc => absurd hc List.not_mem_nil
  | cons cs css ih =>
    rw [deepest] at h
    obtain ⟨child, hchild, h⟩ := Except.bind_eq_ok.mp h
    obtain ⟨rest, hrest, h⟩ := Except.bind_eq_ok.mp h
    obtain rfl := Except.pure_eq_ok.mp h
    intro c hc
    rcases List.mem_cons.mp hc with rfl | hc
    · obtain ⟨d', hd', rfl⟩ := Except.map_eq_ok.mp hchild
      exact ⟨d', hd', Nat.le_max_left _ _⟩
    · obtain ⟨d', hd', hle⟩ := ih hrest c hc
      exact ⟨d', hd', Nat.le_trans hle (Nat.le_max_right _ _)⟩

theorem deepest_pos {currentDepth maxAllowed d : Nat} {css : List ClaimSet}
    (h : deepest currentDepth maxAllowed css = .ok d) : 1 ≤ d := by
  induction css generalizing d with
  | nil =>
    obtain rfl := Except.ok.inj h
    exact Nat.le_refl _
  | cons cs css ih =>
    rw [deepest] at h
    obtain ⟨child, -, h⟩ := Except.bind_eq_ok.mp h
    obtain ⟨rest, hrest, h⟩ := Except.bind_eq_ok.mp h
    obtain rfl := Except.pure_eq_ok.mp h
    exact Nat.le_trans (ih hrest) (Nat.le_max_right _ _)

theorem getDepthBounded_nests {n : Nat} : ∀ {c : CompositeClaim} {currentDepth maxAllowed d : Nat},
    c.getDepthBounded currentDepth maxAllowed = .ok d → d ≤ n → c.NestsAtMost n := by
  induction n with
  | zero =>
    rintro ⟨op, claims⟩ currentDepth maxAllowed d h hle
    rw [CompositeClaim.getDepthBounded] at h
    split at h
    · cases h
    · exact absurd (deepest_pos h) (by omega)
  | succ n ih =>
    rintro ⟨op, claims⟩ currentDepth maxAllowed d h hle c' hc'
    rw [CompositeClaim.getDepthBounded] at h
    split at h
    · cases h
    · obtain ⟨d', hd', hlt⟩ := deepest_eq_ok h c' hc'
      exact ih hd' (by omega)

/-- **A depth that is reported below the limit is the depth.** -/
theorem nestsAtMost_of_getDepth {c : CompositeClaim} {n : Nat} (h : c.getDepth ≤ n)
    (hn : n < maxEvaluateDepth) : c.NestsAtMost n := by
  unfold CompositeClaim.getDepth at h
  split at h
  · rename_i d hd
    exact getDepthBounded_nests hd h
  · exact absurd h (Nat.not_le.mpr hn)

/-! ## Scalar claim sets

Issuer, times and identifier: claims whose values are single items, so that neither nesting nor
the count of items comes into it. An empty claim set is among them, and it is written as an
empty map.
-/

/-- A single value: an issuer, a time, an identifier. -/
def DecodedClaim.isScalar : DecodedClaim → Bool
  | .iss _ | .exp _ | .nbf _ | .cti _ => true
  | _ => false

/-- A claim set with scalar core claims and nothing else. -/
def CatToken.ScalarCore (u : CatToken) : Prop :=
  u = { CatToken.new with core := { u.core with aud := none } }

/-- The strings of a claim set are within the limits. -/
def CatToken.ScalarsFit (limits : CwtLimits) (u : CatToken) : Prop :=
  (∀ s, u.core.iss = some s → (utf8 s).length ≤ limits.maxStringClaimLength) ∧
    ∀ b, u.core.cti = some b → b.length ≤ limits.maxCborPayloadSize

section
variable {H : Host} {u : CatToken} {d : DecodedClaim}

theorem CatToken.ScalarCore.flat (h : u.ScalarCore) : u.Flat := by
  constructor
  · rw [h]
    rfl
  · rw [h]
    rfl
  · rw [h]
    rfl
  · rw [h]
    rfl
  · rw [h]
    rfl
  · rw [h]
    intro s hs
    cases hs

theorem CatToken.ScalarCore.isScalar (h : u.ScalarCore) (hd : d ∈ u.claims) :
    d.isScalar = true := by
  obtain ⟨hhas, hcustom⟩ := mem_standard.mp (h.flat.mem_claims.mp hd).1
  rw [h] at hhas
  cases d with
  | iss s | exp n | nbf n | cti b => rfl
  | catgeocoord x | geohash x | catifdata x | cnf x | catif x | catr x => cases x <;> cases hhas
  | custom id hid v => exact absurd hcustom.symm Bool.false_ne_true
  | _ => cases hhas

theorem DecodedClaim.scalarValue (h : d.isScalar = true) {v : Value}
    (hv : d.encode H = .ok (some v)) : v.height = 0 ∧ v.Normal ∧ v.FloatFree := by
  cases d with
  | iss s =>
    obtain rfl := written_eq (x := .text s) rfl hv
    exact ⟨rfl, rfl, trivial⟩
  | exp n | nbf n =>
    obtain rfl := written_eq (x := i64Value n) rfl hv
    exact ⟨rfl, rfl, trivial⟩
  | cti b =>
    obtain rfl := written_eq (x := .bytes b) rfl hv
    exact ⟨rfl, rfl, trivial⟩
  | _ => exact absurd h Bool.false_ne_true

theorem CatToken.ScalarCore.construction (h : u.ScalarCore) : u.validateConstruction H = .ok () := by
  rw [h]
  rfl

theorem CatToken.ScalarCore.keysGiven (h : u.ScalarCore) : u.KeysGiven := by
  rw [h.flat.keysGiven_iff, h]
  constructor
  · intro rs hrs
    cases hrs
  · intro rs hrs
    cases hrs

/-- The claim map of a scalar claim set can always be made. -/
theorem CatToken.ScalarCore.claimsMap (h : u.ScalarCore) :
    ∃ m, Cat.claimsMap (compositeValues H u.composite) u = .ok m := by
  rw [claimsMap_isOk_iff]
  intro d hd
  obtain ⟨hhas, hcustom⟩ := mem_standard.mp hd
  rw [h] at hhas
  cases d with
  | iss s | exp n | nbf n | cti b => exact ⟨_, rfl⟩
  | catgeocoord x | geohash x | catifdata x | cnf x | catif x | catr x => cases x <;> cases hhas
  | custom id hid v => exact absurd hcustom.symm Bool.false_ne_true
  | _ => cases hhas

variable {m : List (Int64 × Value)}

/-- The entries of a scalar claim set. -/
theorem CatToken.ScalarCore.entry (h : u.ScalarCore)
    (hm : Cat.claimsMap (compositeValues H u.composite) u = .ok m) {e : Int64 × Value} (he : e ∈ m) :
    ∃ d ∈ u.claims, d.isScalar = true ∧ d.label = e.1 ∧ d.encode H = .ok (some e.2) := by
  obtain ⟨d, hd, hlabel, hv⟩ := (mem_claimsMap hm).mp he
  exact ⟨d, hd, h.isScalar hd, hlabel, hv⟩

theorem CatToken.ScalarCore.scalars (h : u.ScalarCore)
    (hm : Cat.claimsMap (compositeValues H u.composite) u = .ok m) {e : Int64 × Value} (he : e ∈ m) :
    e.2.height = 0 ∧ e.2.Normal ∧ e.2.FloatFree := by
  obtain ⟨d, -, hd, -, hv⟩ := h.entry hm he
  exact d.scalarValue hd hv

/-- The keys of a scalar claim set are no labels of composites. -/
theorem CatToken.ScalarCore.plainKey (h : u.ScalarCore)
    (hm : Cat.claimsMap (compositeValues H u.composite) u = .ok m) {e : Int64 × Value} (he : e ∈ m) :
    isCompositeKey (i64Value e.1) = false := by
  obtain ⟨d, -, hscalar, hlabel, -⟩ := h.entry hm he
  rw [← hlabel]
  cases d with
  | iss s | exp n | nbf n | cti b =>
    simp only [DecodedClaim.label]
    decide
  | _ => exact absurd hscalar Bool.false_ne_true

/-- A scalar claim set has at most the four claims. -/
theorem CatToken.ScalarCore.length_claims (h : u.ScalarCore) : u.claims.length ≤ 4 := by
  have hlabels : u.claims.map DecodedClaim.label ⊆ [claimIss, claimExp, claimNbf, claimCti] := by
    intro k hk
    obtain ⟨d, hd, rfl⟩ := List.mem_map.mp hk
    have hscalar := h.isScalar hd
    cases d with
    | iss s | exp n | nbf n | cti b => simp [DecodedClaim.label]
    | _ => exact absurd hscalar Bool.false_ne_true
  have hle := ((claims_nodup u).subperm hlabels).length_le
  rwa [List.length_map] at hle

theorem CatToken.ScalarCore.length_claimsMap (h : u.ScalarCore)
    (hm : Cat.claimsMap (compositeValues H u.composite) u = .ok m) : m.length ≤ 4 := by
  obtain ⟨ds, hperm, hds⟩ := claimsMap_claims hm
  rw [hds.length_eq, hperm.length_eq]
  exact h.length_claims

theorem CatToken.ScalarCore.height_le (h : u.ScalarCore)
    (hm : Cat.claimsMap (compositeValues H u.composite) u = .ok m) : (claimsValue m).height ≤ 1 := by
  refine height_map (n := 0) ?_
  rw [List.forall_mem_map]
  exact fun e he => ⟨Nat.zero_le _, (h.scalars hm he).1.le⟩

theorem CatToken.ScalarCore.normal (h : u.ScalarCore)
    (hm : Cat.claimsMap (compositeValues H u.composite) u = .ok m) : (claimsValue m).Normal := by
  refine Value.normal_map.mpr ?_
  rw [List.forall_mem_map]
  exact fun e he => ⟨rfl, (h.scalars hm he).2.1⟩

theorem CatToken.ScalarCore.floatFree (h : u.ScalarCore)
    (hm : Cat.claimsMap (compositeValues H u.composite) u = .ok m) : (claimsValue m).FloatFree := by
  refine Value.floatFreeEntries_iff.mpr ?_
  rw [List.forall_mem_map]
  exact fun e he => ⟨trivial, (h.scalars hm he).2.2⟩

/-- A claim set without claims is an empty map, and only that one. -/
theorem walkDepth_claimsValue
    (hm : Cat.claimsMap (compositeValues H u.composite) u = .ok m) :
    walkDepth (claimsValue m) ≤ 0 ↔ ¬u.claims ≠ [] := by
  obtain ⟨ds, hperm, hds⟩ := claimsMap_claims hm
  have hempty : m = [] ↔ u.claims = [] := by
    rw [← List.length_eq_zero_iff, hds.length_eq, hperm.length_eq, List.length_eq_zero_iff]
  rw [claimsValue, walkDepth_map_lt, not_not, ← hempty]
  cases m with
  | nil => simp
  | cons e m =>
    constructor
    · exact fun h => absurd (h _ List.mem_cons_self) (Nat.not_lt_zero _)
    · exact fun h => absurd h (List.cons_ne_nil _ _)

/-- A scalar claim set can be written. -/
theorem CatToken.ScalarCore.writable (h : u.ScalarCore) (hfit : u.ScalarsFit .default)
    (hm : Cat.claimsMap (compositeValues H u.composite) u = .ok m) : (claimsValue m).Writable := by
  refine Value.writable_map.mpr ⟨?_, ?_⟩
  · rw [List.length_map]
    exact Nat.lt_of_le_of_lt (h.length_claimsMap hm) (by decide)
  · rw [List.forall_mem_map]
    rintro ⟨k, v⟩ he
    refine ⟨Value.writable_integer _, ?_⟩
    obtain ⟨d, hd, hscalar, -, hv⟩ := h.entry hm he
    have hhas := (mem_standard.mp (h.flat.mem_claims.mp hd).1).1
    cases d with
    | iss s =>
      obtain rfl := written_eq (x := .text s) rfl hv
      exact Value.writable_text.mpr (Nat.lt_of_le_of_lt (hfit.1 s hhas) (by decide))
    | exp n | nbf n =>
      obtain rfl := written_eq (x := i64Value n) rfl hv
      exact Value.writable_integer _
    | cti b =>
      obtain rfl := written_eq (x := .bytes b) rfl hv
      exact Value.writable_bytes.mpr (Nat.lt_of_le_of_lt (hfit.2 b hhas) (by decide))
    | _ => exact absurd hscalar Bool.false_ne_true

/-- **A scalar claim set is encoded.** -/
theorem CatToken.ScalarCore.encode (h : u.ScalarCore) (hfit : u.ScalarsFit .default)
    (hall : H.cbor.WritesAll) : ∃ b, encodePayload H u = .ok b := by
  obtain ⟨m, hm⟩ := h.claimsMap (H := H)
  obtain ⟨b, hb⟩ := hall (h.writable hfit hm)
  refine ⟨b, ?_⟩
  rw [encodePayload_eq]
  exact Except.bind_eq_ok.mpr ⟨m, hm, Failure.lift_eq_ok.mpr (writeCbor_eq_ok.mpr hb)⟩

end

/-! ## Composites as they are written

An operator is an array under its label, in a map if it is a member of another one. A walk
counts the containers it is in, and it counts a container only when it meets something there.
-/

section
variable {H : Host}

theorem encodeClaimSets_eq_ok {css : List ClaimSet} : ∀ {vs : List Value},
    encodeClaimSets H css = .ok vs ↔ List.Forall₂ (fun cs v => encodeClaimSet H cs = .ok v) css vs := by
  induction css with
  | nil =>
    intro vs
    rw [encodeClaimSets, Except.ok.injEq, List.forall₂_nil_left_iff, eq_comm]
  | cons cs css ih =>
    intro vs
    rw [encodeClaimSets, Except.bind_eq_ok, List.forall₂_cons_left_iff]
    constructor
    · rintro ⟨v, hv, h⟩
      obtain ⟨ws, hws, h⟩ := Except.bind_eq_ok.mp h
      exact ⟨v, ws, hv, ih.mp hws, (Except.pure_eq_ok.mp h).symm⟩
    · rintro ⟨v, ws, hv, hws, rfl⟩
      exact ⟨v, hv, Except.bind_eq_ok.mpr ⟨ws, ih.mpr hws, rfl⟩⟩

theorem encodeCompositeClaim_eq_ok {c : CompositeClaim} {v : Value} :
    encodeCompositeClaim H c = .ok v ↔ ∃ vs, v = .array vs ∧
      List.Forall₂ (fun cs v => encodeClaimSet H cs = .ok v) c.claims vs := by
  obtain ⟨op, claims⟩ := c
  rw [encodeCompositeClaim, Except.map_eq_ok]
  constructor
  · rintro ⟨vs, hvs, rfl⟩
    exact ⟨vs, rfl, encodeClaimSets_eq_ok.mp hvs⟩
  · rintro ⟨vs, rfl, hvs⟩
    exact ⟨vs, encodeClaimSets_eq_ok.mpr hvs, rfl⟩

theorem encodeClaimSet_composite {c : CompositeClaim} {v : Value} :
    encodeClaimSet H (.composite c) = .ok v ↔
      ∃ w, encodeCompositeClaim H c = .ok w ∧ v = .map [(i64Value c.op.claimId, w)] := by
  rw [encodeClaimSet, Except.bind_eq_ok]
  refine exists_congr fun w => and_congr_right fun _ => ?_
  exact Except.pure_eq_ok.trans eq_comm

/-- A scalar claim set stands in its composite as its claim map. -/
theorem encodeClaimSet_scalar {u : CatToken} (h : u.ScalarCore) {v : Value} :
    encodeClaimSet H (.token u) = .ok v ↔ ∃ m b,
      Cat.claimsMap (compositeValues H u.composite) u = .ok m ∧
        H.cbor.write (claimsValue m) = .ok b ∧ v = claimsValue m := by
  rw [encodeClaimSet, Except.bind_eq_ok]
  constructor
  · rintro ⟨b, hb, hread⟩
    obtain ⟨m, hm, hw⟩ := encodePayload_ok hb
    split at hread
    · cases hread
    · rename_i w r hr
      obtain rfl := Except.pure_eq_ok.mp hread
      exact ⟨m, b, hm, hw, (H.cbor.read_of_write hw hr).1.trans (h.normal hm)⟩
  · rintro ⟨m, b, hm, hw, rfl⟩
    refine ⟨b, ?_, ?_⟩
    · rw [encodePayload_eq]
      exact Except.bind_eq_ok.mpr ⟨m, hm, Failure.lift_eq_ok.mpr (writeCbor_eq_ok.mpr hw)⟩
    · rw [H.cbor.read_written hw (Nat.lt_of_le_of_lt (h.height_le hm) (by decide)), h.normal hm]
      rfl

/-- How a member of a composite is written, when `P` is how the composites in it are. -/
inductive MemberWritten (H : Host) (P : CompositeClaim → Value → Prop) : ClaimSet → Value → Prop
  | token {u : CatToken} {m : List (Int64 × Value)} {b : Bytes} (hu : u.ScalarCore)
      (hm : Cat.claimsMap (compositeValues H u.composite) u = .ok m)
      (hb : H.cbor.write (claimsValue m) = .ok b) : MemberWritten H P (.token u) (claimsValue m)
  | composite {c : CompositeClaim} {w : Value} (hw : P c w) :
      MemberWritten H P (.composite c) (.map [(i64Value c.op.claimId, w)])

/-- **Induction over written composites**: what follows for a composite from its members, with one
    operator fewer to nest, holds of every composite over scalar claim sets. -/
theorem written_induction {P : Nat → CompositeClaim → Value → Prop}
    (step : ∀ (n : Nat) (c : CompositeClaim) (vs : List Value),
      List.Forall₂ (MemberWritten H (P n)) c.claims vs → P (n + 1) c (.array vs)) {n : Nat} :
    ∀ {c : CompositeClaim} {v : Value}, c.NestsAtMost n → (∀ u ∈ c.claimSets, u.ScalarCore) →
      encodeCompositeClaim H c = .ok v → P n c v := by
  induction n with
  | zero => exact fun hn => hn.elim
  | succ n ih =>
    intro c v hn hsets hv
    obtain ⟨vs, rfl, hvs⟩ := encodeCompositeClaim_eq_ok.mp hv
    apply step
    have hmem : ∀ cs ∈ c.claims, cs ∈ c.claims := fun _ h => h
    refine ((List.forall₂_and_left _ _).mpr ⟨hmem, hvs⟩).imp fun cs v h => ?_
    obtain ⟨hcs, hv⟩ := h
    cases cs with
    | token u =>
      have hu : u.ScalarCore := hsets u (CompositeClaim.mem_claimSets.mpr ⟨_, hcs, by
        rw [ClaimSet.claimSets, u.claimSets_eq]
        exact List.mem_cons_self⟩)
      obtain ⟨m, b, hm, hb, rfl⟩ := (encodeClaimSet_scalar hu).mp hv
      exact .token hu hm hb
    | composite c' =>
      obtain ⟨w, hw, rfl⟩ := encodeClaimSet_composite.mp hv
      refine .composite (ih (hn c' hcs) (fun u hu => ?_) hw)
      exact hsets u (CompositeClaim.mem_claimSets.mpr ⟨_, hcs, by rwa [ClaimSet.claimSets]⟩)

variable {n : Nat} {c : CompositeClaim} {v : Value}

/-- **Composites over scalar claim sets are encoded.** -/
theorem encode_scalars (hall : H.cbor.WritesAll) : ∀ {c : CompositeClaim}, c.NestsAtMost n →
    (∀ u ∈ c.claimSets, u.ScalarCore) → (∀ u ∈ c.claimSets, u.ScalarsFit .default) →
      ∃ v, encodeCompositeClaim H c = .ok v := by
  induction n with
  | zero => exact fun hn => hn.elim
  | succ n ih =>
    intro c hn hsets hfit
    have hmember : ∀ cs ∈ c.claims, ∃ v, encodeClaimSet H cs = .ok v := by
      intro cs hcs
      have hmem : ∀ u ∈ cs.claimSets, u ∈ c.claimSets :=
        fun u hu => CompositeClaim.mem_claimSets.mpr ⟨cs, hcs, hu⟩
      cases cs with
      | token u =>
        have hself := hmem u (by
          rw [ClaimSet.claimSets, u.claimSets_eq]
          exact List.mem_cons_self)
        obtain ⟨b, hb⟩ := (hsets u hself).encode (hfit u hself) hall
        obtain ⟨m, hm, hw⟩ := encodePayload_ok hb
        exact ⟨_, (encodeClaimSet_scalar (hsets u hself)).mpr ⟨m, b, hm, hw, rfl⟩⟩
      | composite c' =>
        rw [ClaimSet.claimSets] at hmem
        obtain ⟨w, hw⟩ := ih (hn c' hcs) (fun u hu => hsets u (hmem u hu))
          fun u hu => hfit u (hmem u hu)
        exact ⟨_, encodeClaimSet_composite.mpr ⟨w, hw, rfl⟩⟩
    obtain ⟨vs, hvs⟩ := List.exists_forall₂ hmember
    exact ⟨_, encodeCompositeClaim_eq_ok.mpr ⟨vs, rfl, hvs⟩⟩

theorem normal_scalars (hn : c.NestsAtMost n) (hsets : ∀ u ∈ c.claimSets, u.ScalarCore)
    (hv : encodeCompositeClaim H c = .ok v) : v.Normal := by
  refine written_induction (P := fun _ _ v => v.Normal) (fun n c vs hvs => ?_) hn hsets hv
  rw [Value.normal_array]
  intro v hv
  obtain ⟨cs, -, hw⟩ := hvs.exists_of_mem_right hv
  cases hw with
  | token hu hm _ => exact hu.normal hm
  | composite hw =>
    rw [Value.normal_map, List.forall_mem_singleton]
    exact ⟨rfl, hw⟩

/-- Two containers for an operator. -/
theorem height_scalars (hn : c.NestsAtMost n) (hsets : ∀ u ∈ c.claimSets, u.ScalarCore)
    (hv : encodeCompositeClaim H c = .ok v) : v.height ≤ 2 * n := by
  refine written_induction (P := fun n _ v => v.height ≤ 2 * n) (fun n c vs hvs => ?_) hn hsets hv
  refine Value.height_array fun v hv => ?_
  obtain ⟨cs, -, hw⟩ := hvs.exists_of_mem_right hv
  cases hw with
  | token hu hm _ => exact Nat.le_trans (hu.height_le hm) (Nat.le_add_left _ _)
  | composite hw =>
    refine (height_map (n := 2 * n) ?_).trans (Nat.add_comm 1 _).le
    rw [List.forall_mem_singleton]
    exact ⟨Nat.zero_le _, hw⟩

theorem walkDepth_array_lt {vs : List Value} {n : Nat} :
    walkDepth (.array vs) ≤ n ↔ ∀ v ∈ vs, walkDepth v < n := by
  rw [walkDepth]
  induction vs with
  | nil => simp [walkDepthItems]
  | cons v vs ih =>
    rw [walkDepthItems, Nat.max_le, ih, List.forall_mem_cons, Nat.add_comm]
    exact Iff.rfl

/-- **The nesting check and the depth of a composite**: the check comes two containers further for
    every operator, and one more if there is a claim in the innermost. -/
theorem walkDepth_scalars (hn : c.NestsAtMost (n + 1)) (hsets : ∀ u ∈ c.claimSets, u.ScalarCore)
    (hv : encodeCompositeClaim H c = .ok v) : walkDepth v ≤ 2 * n + 1 ↔ ¬c.CarriesAt n := by
  let P : Nat → CompositeClaim → Value → Prop := fun n c v =>
    ∃ k, n = k + 1 ∧ (walkDepth v ≤ 2 * k + 1 ↔ ¬c.CarriesAt k)
  have step : ∀ (n : Nat) (c : CompositeClaim) (vs : List Value),
      List.Forall₂ (MemberWritten H (P n)) c.claims vs → P (n + 1) c (.array vs) := by
    intro n c vs hvs
    refine ⟨n, rfl, ?_⟩
    rw [walkDepth_array_lt]
    cases n with
    | zero =>
      -- the members are claim sets, and an empty one is no container to walk into
      constructor
      · rintro h ⟨u, hu, hne⟩
        obtain ⟨v, hv, hw⟩ := hvs.exists_of_mem_left hu
        cases hw with
        | token _ hm _ => exact (walkDepth_claimsValue hm).mp (Nat.le_of_lt_succ (h _ hv)) hne
      · intro h v hv
        obtain ⟨cs, hcs, hw⟩ := hvs.exists_of_mem_right hv
        cases hw with
        | @token u m b _ hm _ =>
          exact Nat.lt_succ_of_le ((walkDepth_claimsValue hm).mpr fun hne => h ⟨u, hcs, hne⟩)
        | composite hw =>
          obtain ⟨k, hk, -⟩ := hw
          cases hk
    | succ n =>
      constructor
      · rintro h ⟨c', hc', hcarries⟩
        obtain ⟨v, hv, hw⟩ := hvs.exists_of_mem_left hc'
        cases hw with
        | composite hw =>
          obtain ⟨k, hk, hiff⟩ := hw
          obtain rfl : n = k := Nat.succ.inj hk
          have hmap := walkDepth_map_lt.mp (Nat.le_of_lt_succ (h _ hv)) _ List.mem_cons_self
          exact hiff.mp (Nat.le_of_lt_succ hmap) hcarries
      · intro h v hv
        obtain ⟨cs, hcs, hw⟩ := hvs.exists_of_mem_right hv
        cases hw with
        | token hu hm _ =>
          exact Nat.lt_of_le_of_lt ((walkDepth_le_height _).trans (hu.height_le hm)) (by omega)
        | @composite c' w hw =>
          obtain ⟨k, hk, hiff⟩ := hw
          obtain rfl : n = k := Nat.succ.inj hk
          have hle := hiff.mpr fun hcarries => h ⟨c', hcs, hcarries⟩
          refine Nat.lt_succ_of_le (walkDepth_map_lt.mpr ?_)
          rw [List.forall_mem_singleton]
          exact Nat.lt_succ_of_le hle
  obtain ⟨k, hk, hiff⟩ := written_induction (P := P) step hn hsets hv
  obtain rfl : n = k := Nat.succ.inj hk
  exact hiff

/-- A claim set in a composite takes no more room by itself than the composite. -/
theorem size_scalars (hn : c.NestsAtMost n) (hsets : ∀ u ∈ c.claimSets, u.ScalarCore)
    (hv : encodeCompositeClaim H c = .ok v) {x : Item} (hx : v.WrittenAs x) :
    ∀ u ∈ c.claimSets, ∀ b, encodePayload H u = .ok b → b.length ≤ x.wire.length := by
  refine written_induction (P := fun _ c v => ∀ x, v.WrittenAs x → ∀ u ∈ c.claimSets, ∀ b,
    encodePayload H u = .ok b → b.length ≤ x.wire.length) (fun n c vs hvs => ?_) hn hsets hv x hx
  rintro x ⟨xs, rfl, -, hxs⟩ u hu b hb
  obtain ⟨cs, hcs, hu⟩ := CompositeClaim.mem_claimSets.mp hu
  obtain ⟨v, hv, hw⟩ := hvs.exists_of_mem_left hcs
  obtain ⟨y, hy, hle⟩ := hxs.mem hv
  rw [Item.wire, List.length_append]
  refine Nat.le_trans ?_ (Nat.le_trans hle (Nat.le_add_left _ _))
  cases hw with
  | @token u' m b' hu' hm hb' =>
    -- a scalar claim set has no composites, so it is this one, written as it stands here
    rw [ClaimSet.claimSets, u'.claimSets_eq, hu'.flat.composite] at hu
    obtain rfl := List.mem_singleton.mp hu
    obtain ⟨m', hm', hw'⟩ := encodePayload_ok hb
    obtain rfl := Except.ok.inj (hm.symm.trans hm')
    obtain ⟨z, hz, rfl⟩ := H.cbor.write_sound hw'
    rw [hz.unique (hu'.floatFree hm) hy]
  | @composite c' w hw =>
    rw [ClaimSet.claimSets] at hu
    obtain ⟨ys, rfl, -, hys⟩ := hy
    obtain ⟨z, hz, hle'⟩ := hys.mem List.mem_cons_self
    rw [Item.wire, List.length_append]
    exact Nat.le_trans (hw z hz u hu b hb) (Nat.le_trans hle' (Nat.le_add_left _ _))

end

/-! ## Reading

The decoder's own limit is on operators, and the counters see every member once. Both are bounds
on the composite as a tree, so reading succeeds or fails by the tree and not by the bytes.
-/

/-- What reading a scalar claim set costs. -/
def CatToken.scalarCost (u : CatToken) : DecodeCounters :=
  (u.claims.map fun d => itemCost 1 + d.cost).sum

mutual
/-- What reading a composite over scalar claim sets costs: an item for each member. -/
def CompositeClaim.cost : CompositeClaim → DecodeCounters
  | ⟨_, claims⟩ => claimSetsCost claims
def ClaimSet.cost : ClaimSet → DecodeCounters
  | .token u => itemCost 1 + u.scalarCost
  | .composite c => itemCost 1 + c.cost
def claimSetsCost : List ClaimSet → DecodeCounters
  | [] => 0
  | cs :: css => cs.cost + claimSetsCost css
end

theorem claimSetsCost_eq (css : List ClaimSet) : claimSetsCost css = (css.map ClaimSet.cost).sum := by
  induction css with
  | nil => rfl
  | cons cs css ih => rw [claimSetsCost, ih, List.map_cons, List.sum_cons]

theorem CompositeClaim.cost_eq (c : CompositeClaim) : c.cost = (c.claims.map ClaimSet.cost).sum := by
  obtain ⟨op, claims⟩ := c
  rw [cost, claimSetsCost_eq]

section
variable {H : Host}

/-- The claims of a scalar claim set are read as they are. -/
theorem CatToken.ScalarCore.withinLimits {limits : CwtLimits} {u : CatToken} (h : u.ScalarCore)
    (hfit : u.ScalarsFit limits) (hw : Within limits u.scalarCost) : u.WithinLimits limits := by
  refine ⟨fun d hd => ?_, hw⟩
  have hhas := (mem_standard.mp (h.flat.mem_claims.mp hd).1).1
  have hscalar := h.isScalar hd
  cases d with
  | iss s => exact hfit.1 s hhas
  | exp n | nbf n | cti b => trivial
  | _ => exact absurd hscalar Bool.false_ne_true

/-- Claims that are no composites are read alike whatever reads composites. -/
theorem YieldsEntries.swap {limits : CwtLimits} {A B : CompositeDecoder}
    {es : List (Value × Value)} {xs : List (DecodedClaim × DecodeCounters)}
    (h : YieldsEntries H limits A es xs)
    (hxs : ∀ x ∈ xs, isCompositeKey (i64Value x.1.label) = false ∧ Within limits x.2) :
    YieldsEntries H limits B es xs := by
  unfold YieldsEntries at h ⊢
  induction h with
  | nil => exact .nil
  | cons hx _ ih =>
    rw [List.forall_mem_cons] at hxs
    obtain ⟨⟨hplain, hw⟩, hrest⟩ := hxs
    exact .cons ⟨hx.1, (hx.2.form hplain hw).yields hplain⟩ (ih hrest)

/-- **A scalar claim set is read** wherever its cost fits, however deep it stands. -/
theorem CatToken.ScalarCore.returns {u : CatToken} (h : u.ScalarCore) (hfit : u.ScalarsFit .default)
    {b : Bytes} (hb : encodePayload H u = .ok b)
    (hsize : b.length ≤ CwtLimits.default.maxCborPayloadSize) (hw : Within .default u.scalarCost)
    (fuel : Nat) : ∃ u', Returns .default (decodePayloadWith H .default
      (decodeCompositeClaimWithCounters H .default fuel) b) u' u.scalarCost := by
  have hlimits := h.withinLimits hfit hw
  have hpor : ∀ p, u.cat.catpor = some p →
      F64.le (F64.ofInt 0) p.probability = true ∧ F64.le p.probability (F64.ofInt 1) = true := by
    intro p hp
    rw [h] at hp
    cases hp
  obtain ⟨s, hs⟩ := h.flat.decode hlimits h.construction hb hsize hpor h.keysGiven
  obtain ⟨⟨s, c⟩, hrun, rfl⟩ := Except.map_eq_ok.mp hs
  obtain ⟨-, hcost, -⟩ := decodeCounters_written hb hrun
  obtain ⟨es, xs, hy, -, rfl, hwithin⟩ := decodePayloadWithLimitsAndCounters_eq_ok.mp hrun
  have hsum : costOf xs = u.scalarCost :=
    hcost.trans (h.flat.readCost_eq hlimits h.construction hb hpor)
  refine ⟨tokenOf xs, ?_⟩
  rw [← hsum]
  refine .of_counts (decodePayloadWith_counts
    (decodeCompositeClaimWithCounters_metered H .default fuel) b) ⟨es, xs, ?_, rfl, rfl⟩
  refine ⟨hy.size_le, hy.read_eq, hy.depth_le, hy.keys, hy.entries.swap fun x hx => ?_, hy.room⟩
  refine ⟨?_, within_of_mem_costOf hwithin hx⟩
  -- the keys of the map are the labels of scalar claims
  obtain ⟨m, hm, hwrite⟩ := encodePayload_ok hb
  have hback := (H.cbor.read_of_write hwrite hy.read_eq).1.trans (h.normal hm)
  rw [claimsValue, Value.map.injEq] at hback
  have hkey : i64Value x.1.label ∈ es.map Prod.fst := by
    rw [hy.entries.labels, List.map_map]
    exact List.mem_map_of_mem hx
  rw [hback, List.map_map] at hkey
  obtain ⟨e, he, heq⟩ := List.mem_map.mp hkey
  rw [← heq]
  exact h.plainKey hm he

variable {n : Nat} {c : CompositeClaim} {v : Value}

theorem itemCost_le_cost (cs : ClaimSet) : ∃ rest, cs.cost = itemCost 1 + rest := by
  cases cs with
  | token u => exact ⟨_, rfl⟩
  | composite c => exact ⟨_, rfl⟩

/-- Every member of a composite costs an item. -/
theorem length_le_cost (css : List ClaimSet) : css.length ≤ (claimSetsCost css).totalItems := by
  induction css with
  | nil => exact Nat.le_refl _
  | cons cs css ih =>
    obtain ⟨rest, hrest⟩ := itemCost_le_cost cs
    rw [claimSetsCost, hrest]
    show css.length + 1 ≤ 1 + rest.totalItems + (claimSetsCost css).totalItems
    omega

theorem within_of_mem_claims {limits : CwtLimits} (h : Within limits c.cost) {cs : ClaimSet}
    (hcs : cs ∈ c.claims) : Within limits cs.cost := by
  rw [c.cost_eq] at h
  exact within_of_mem_sum h (List.mem_map_of_mem hcs)

/-- A composite that is within the limits can be written. -/
theorem writable_scalars (hn : c.NestsAtMost n) (hsets : ∀ u ∈ c.claimSets, u.ScalarCore)
    (hv : encodeCompositeClaim H c = .ok v) (hw : Within .default c.cost) : v.Writable := by
  refine written_induction (P := fun _ c v => Within .default c.cost → v.Writable)
    (fun n c vs hvs hw => ?_) hn hsets hv hw
  rw [Value.writable_array]
  constructor
  · have hle := length_le_cost c.claims
    have hitems : (claimSetsCost c.claims).totalItems ≤ 10000 := by
      rw [claimSetsCost_eq, ← c.cost_eq]
      exact hw.items
    rw [← hvs.length_eq]
    omega
  · intro v hv
    obtain ⟨cs, hcs, hmember⟩ := hvs.exists_of_mem_right hv
    have hwithin := within_of_mem_claims hw hcs
    cases hmember with
    | token _ _ hb => exact H.cbor.writable_of_write hb
    | @composite c' w hwrite =>
      rw [ClaimSet.cost, add_comm] at hwithin
      rw [Value.writable_map, List.forall_mem_singleton]
      exact ⟨Nat.one_lt_two_pow (by decide), Value.writable_integer _, hwrite hwithin.of_add⟩

/-- A map that is not a lone composite is read as a payload. -/
theorem decodeClaimSet_token {limits : CwtLimits} {nested : CompositeDecoder}
    {payload : Bytes → Decode CatToken} {depth : Nat} {es : List (Value × Value)} {b : Bytes}
    (hkey : ∀ k v, es = [(k, v)] → isCompositeKey k = false) (hb : H.cbor.write (.map es) = .ok b) :
    decodeClaimSet H limits nested payload depth (.map es) = (do
      countItem limits
      return .token (← payload b)) := by
  unfold decodeClaimSet decodeClaimSet.decodeTokenSet
  dsimp only
  rw [hb]
  split
  · rename_i k v
    rw [hkey k v rfl]
    rfl
  · rfl

/-- A lone composite is read as one. -/
theorem decodeClaimSet_composite {limits : CwtLimits} {nested : CompositeDecoder}
    {payload : Bytes → Decode CatToken} {depth : Nat} {id : Int64} {w : Value}
    (hkey : isCompositeKey (i64Value id) = true) :
    decodeClaimSet H limits nested payload depth (.map [(i64Value id, w)]) = (do
      countItem limits
      return .composite (← nested id w (depth + 1))) := by
  unfold decodeClaimSet
  dsimp only
  rw [if_pos hkey]
  simp only [i64Value, Integer.toI64?_ofI64]
  rfl

theorem isCompositeKey_claimId (op : CompositeOperator) :
    isCompositeKey (i64Value op.claimId) = true := by
  cases op <;> decide

theorem ofClaimId_isOk {id : Int64} (h : isCompositeKey (i64Value id) = true) :
    ∃ op, CompositeOperator.ofClaimId id = .ok op := by
  rcases (isCompositeKey_i64Value id).mp h with rfl | rfl | rfl
  · exact ⟨.or, rfl⟩
  · exact ⟨.nor, rfl⟩
  · exact ⟨.and, rfl⟩

/-- Under a label of a composite, the value is read wherever the decoder's own limit leaves room for
    `n` operators, if the claim sets and the costs are within the limits. -/
def ReadWithin (H : Host) (n : Nat) (c : CompositeClaim) (v : Value) : Prop :=
  (∀ u ∈ c.claimSets, u.ScalarsFit .default) →
  (∀ u ∈ c.claimSets, ∀ b, encodePayload H u = .ok b →
    b.length ≤ CwtLimits.default.maxCborPayloadSize) →
  Within .default c.cost → ∀ (fuel depth : Nat) (id : Int64), n ≤ fuel →
    depth + n ≤ CwtLimits.default.maxNestingDepth → isCompositeKey (i64Value id) = true →
      ∃ c', Returns .default (decodeCompositeClaimWithCounters H .default fuel id v depth) c' c.cost

/-- A member of a composite is read at its cost. -/
theorem MemberWritten.returns {cs : ClaimSet} {w : Value}
    (h : MemberWritten H (ReadWithin H n) cs w) (hfit : ∀ u ∈ cs.claimSets, u.ScalarsFit .default)
    (hsize : ∀ u ∈ cs.claimSets, ∀ b, encodePayload H u = .ok b →
      b.length ≤ CwtLimits.default.maxCborPayloadSize) (hw : Within .default cs.cost)
    {fuel depth : Nat} (hfuel : n ≤ fuel) (hdepth : depth + 1 + n ≤ CwtLimits.default.maxNestingDepth) :
    ∃ cs', Returns .default (decodeClaimSet H .default
      (decodeCompositeClaimWithCounters H .default fuel)
      (decodePayloadWith H .default (decodeCompositeClaimWithCounters H .default fuel)) depth w)
      cs' cs.cost := by
  have hitem : Returns .default (countItem .default) () (itemCost 1) :=
    .of_counts Counts.countItem rfl
  cases h with
  | @token u m b hu hm hb =>
    have hself : u ∈ (ClaimSet.token u).claimSets := by
      rw [ClaimSet.claimSets, u.claimSets_eq]
      exact List.mem_cons_self
    have henc : encodePayload H u = .ok b := by
      rw [encodePayload_eq]
      exact Except.bind_eq_ok.mpr ⟨m, hm, Failure.lift_eq_ok.mpr (writeCbor_eq_ok.mpr hb)⟩
    have hkey : ∀ k v, m.map (fun e => (i64Value e.1, e.2)) = [(k, v)] →
        isCompositeKey k = false := by
      intro k v heq
      have hmem : (k, v) ∈ m.map (fun e => (i64Value e.1, e.2)) := by
        rw [heq]
        exact List.mem_cons_self
      obtain ⟨e, he, heq⟩ := List.mem_map.mp hmem
      obtain ⟨rfl, -⟩ := Prod.mk.inj heq
      exact hu.plainKey hm he
    rw [ClaimSet.cost, add_comm] at hw
    obtain ⟨u', hu'⟩ := hu.returns (hfit u hself) henc (hsize u hself b henc) hw.of_add fuel
    have hret := hu'.bind (f := fun u => pure (ClaimSet.token u)) (.ret _)
    rw [add_zero] at hret
    refine ⟨.token u', ?_⟩
    rw [claimsValue, decodeClaimSet_token hkey hb, ClaimSet.cost]
    exact hitem.bind hret
  | @composite c w hread =>
    rw [ClaimSet.cost, add_comm] at hw
    rw [ClaimSet.claimSets] at hfit hsize
    have hid := isCompositeKey_claimId c.op
    obtain ⟨c', hc'⟩ := hread hfit hsize hw.of_add fuel (depth + 1) _ hfuel hdepth hid
    have hret := hc'.bind (f := fun c => pure (ClaimSet.composite c)) (.ret _)
    rw [add_zero] at hret
    refine ⟨.composite c', ?_⟩
    rw [decodeClaimSet_composite hid, ClaimSet.cost]
    exact hitem.bind hret

/-- **A composite over scalar claim sets is read**, whatever its operators and members, where the
    decoder's own limit leaves room for its nesting. -/
theorem returns_scalars (hn : c.NestsAtMost n) (hsets : ∀ u ∈ c.claimSets, u.ScalarCore)
    (hv : encodeCompositeClaim H c = .ok v) : ReadWithin H n c v := by
  refine written_induction (fun n c vs hvs => ?_) hn hsets hv
  intro hfit hsize hw fuel depth id hfuel hdepth hid
  obtain ⟨fuel, rfl⟩ : ∃ k, fuel = k + 1 := ⟨fuel - 1, by omega⟩
  obtain ⟨op, hop⟩ := ofClaimId_isOk hid
  have hfuel' : n ≤ fuel := Nat.le_of_succ_le_succ hfuel
  have hdepth' : depth + 1 + n ≤ CwtLimits.default.maxNestingDepth :=
    Nat.le_trans (by omega) hdepth
  have hmem : ∀ cs ∈ c.claims, cs ∈ c.claims := fun _ h => h
  have hmembers := ((List.forall₂_and_left _ _).mpr ⟨hmem, hvs⟩).imp fun cs w h =>
    h.2.returns (fun u hu => hfit u (CompositeClaim.mem_claimSets.mpr ⟨cs, h.1, hu⟩))
      (fun u hu => hsize u (CompositeClaim.mem_claimSets.mpr ⟨cs, h.1, hu⟩))
      (within_of_mem_claims hw h.1) hfuel' hdepth'
  obtain ⟨css', hcss'⟩ := Returns.traverse (List.forall₂_map_right_iff.mpr hmembers.flip)
  rw [← c.cost_eq] at hcss'
  have hret := hcss'.bind (f := fun claims => pure (CompositeClaim.mk op claims)) (.ret _)
  rw [add_zero] at hret
  refine ⟨⟨op, css'⟩, ?_⟩
  intro s hs
  rw [decodeCompositeClaimWithCounters]
  refine StateT.guard_eq_ok.mpr ⟨Nat.not_le.mpr (by omega), ?_⟩
  refine StateT.bind_eq_ok.mpr ⟨op, s, StateT.lift_eq_ok.mpr ⟨hop, rfl⟩, ?_⟩
  exact hret s hs

end

end Cat
