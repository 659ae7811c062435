import Cat.Cwt.EncodeSpec
import Cat.Cwt.Ordering
import Cat.Lib.Cbor.Normal

/-!
# The keys of an encoded payload

The decoder wants the keys of a map once and in order, so an encoder that is to be understood
has to write them so. `encodePayload` sorts its maps by label and not by the order of
deterministic encoding, and it writes two rules or two headers of one name one after the other.
`encodePayload_keysChecked_iff` says of which tokens the payload passes all the same.

Deterministic order compares the encoded keys. For labels that are not negative this is their
order as numbers, and for negative labels it is the reverse one, behind the others. So sorting
by number goes wrong as soon as a negative label stands beside any other one (`rankSorted_iff`),
and this is the condition `NegativeAlone`, at the top of a payload and in `catif`, which has
claim keys for labels too. The other conditions are about keys that come from lists: a rule for
one URI component twice, a header twice, a kind of match twice. A custom claim brings a value of
its own, whose maps must pass by themselves.

`KeysDistinct` puts these together for one set of claims and `KeysGiven` for a token with all
the claim sets in its composites. The condition is on the token as it was built and computes
nothing of the encoding.

The proof goes over the table of encoders once (`passes_of_encoder`): most claims are written as
values without maps, or with maps whose labels are some of an ascending list, and pass whatever
they hold. The six that are left are the conditions. Composites are by induction on the tree,
since a claim set inside is a payload again.
-/

set_option autoImplicit false

namespace Cat

open Cbor

/-! ## Orders of labels

The writer sorts by the number of a label and the reader wants the order of the encodings. The
two are the same on the labels of the profile, all of which are positive, and part where a
negative label meets another.
-/

/-- The rank of a label is its place in deterministic order, and no two labels share one. -/
theorem labelRank_inj {a b : Int64} : labelRank a = labelRank b ↔ a = b := by
  have ha := a.toInt_lt
  have hb := b.toInt_lt
  rw [← Int64.toInt_inj]
  unfold labelRank
  split <;> split <;> omega

theorem rankSorted_nodup {ids : List Int64}
    (h : ids.Pairwise fun a b => labelRank a < labelRank b) : ids.Nodup :=
  h.imp fun hlt heq => by
    rw [heq] at hlt
    exact Int.lt_irrefl _ hlt

/-- Labels in the order of their sizes are in deterministic order unless a negative one is
    among others. -/
theorem rankSorted_iff {ids : List Int64} (h : ids.Pairwise fun a b => a.toInt < b.toInt) :
    (ids.Pairwise fun a b => labelRank a < labelRank b) ↔
      ∀ a ∈ ids, a.toInt < 0 → ∀ b ∈ ids, b = a := by
  constructor
  · intro hr a ha hneg b hb
    have : Std.Symm fun x y : Int64 => (labelRank x < labelRank y ∧ x.toInt < y.toInt) ∨
        (labelRank y < labelRank x ∧ y.toInt < x.toInt) := ⟨fun _ _ hxy => hxy.symm⟩
    have hboth : ids.Pairwise fun x y => (labelRank x < labelRank y ∧ x.toInt < y.toInt) ∨
        (labelRank y < labelRank x ∧ y.toInt < x.toInt) := (hr.and h).imp Or.inl
    by_contra hne
    have ha' := a.toInt_lt
    have hb' := b.toInt_lt
    rcases hboth.forall ha hb fun heq => hne heq.symm with ⟨hrank, hlt⟩ | ⟨hrank, hlt⟩ <;>
      · unfold labelRank at hrank
        split_ifs at hrank <;> omega
  · intro hneg
    refine h.imp_of_mem fun {a b} ha hb hlt => ?_
    by_cases ha0 : a.toInt < 0
    · have := hneg a ha ha0 b hb
      rw [this] at hlt
      exact absurd hlt (Int.lt_irrefl _)
    · unfold labelRank
      rw [if_pos (by omega), if_pos (by omega)]
      exact hlt

/-- Sorted by label, a map has its labels in deterministic order if no two are the same. -/
theorem sortIntegerKeyedMap_labels {es : List (Value × Value)} {ids : List Int64}
    (h : es.map Prod.fst = ids.map i64Value) :
    ∃ sorted : List Int64, (sortIntegerKeyedMap es).map Prod.fst = sorted.map i64Value ∧
      ((sorted.Pairwise fun a b => labelRank a < labelRank b) ↔ ids.Nodup) := by
  have hkey : ∀ id, integerSortKey (i64Value id) = id := fun id => by
    show (Integer.ofI64 id).toI64?.getD _ = id
    rw [Integer.toI64?_ofI64, Option.getD_some]
  have hrank : sortIntegerKeyedMap es = es.mergeSort fun a b =>
      decide (labelRank (integerSortKey a.1) ≤ labelRank (integerSortKey b.1)) := by
    unfold sortIntegerKeyedMap
    congr 1
    funext a b
    rw [decide_eq_decide, ne_eq, cborCanonicalKeyCmp_eq_gt, not_lt]
  have hids : ids = es.map fun e => integerSortKey e.1 := by
    calc ids = (ids.map i64Value).map integerSortKey := by
          rw [List.map_map]; simp [Function.comp_def, hkey]
      _ = _ := by rw [← h, List.map_map]; rfl
  have hmem : ∀ e ∈ es, e.1 = i64Value (integerSortKey e.1) := fun e he => by
    have : e.1 ∈ ids.map i64Value := by rw [← h]; exact List.mem_map_of_mem he
    obtain ⟨id, -, hid⟩ := List.mem_map.mp this
    rw [← hid, hkey]
  have hsorted : (sortIntegerKeyedMap es).map Prod.fst =
      ((sortIntegerKeyedMap es).map fun e => integerSortKey e.1).map i64Value := by
    rw [List.map_map]
    refine List.map_congr_left fun e he => hmem e ?_
    rw [hrank] at he
    exact (List.mergeSort_perm _ _).mem_iff.mp he
  refine ⟨_, hsorted, ?_⟩
  rw [hids, hrank]
  have hinj : Function.Injective labelRank := fun a b => labelRank_inj.mp
  have := List.pairwise_lt_mergeSort (fun e : Value × Value => labelRank (integerSortKey e.1)) es
  rw [List.pairwise_map] at this ⊢
  rw [this, ← List.nodup_map_iff hinj, List.map_map]
  rfl

/-! ## The condition

It is stated on the token, so that whoever issues one can look at it before it is written.
Labels alone decide at the top; further down it is names of headers, components and kinds of
matches, since these become keys; custom values bring maps of their own.
-/

/-- The labels of the profile, in source order, and whether a token has a claim under them.
    A confirmation or DPoP settings with nothing in them are no claim. -/
def CatToken.standardClaims (t : CatToken) : List (Int64 × Bool) :=
  [(claimIss, t.core.iss.isSome), (claimAud, t.core.aud.isSome), (claimExp, t.core.exp.isSome),
    (claimNbf, t.core.nbf.isSome), (claimCti, t.core.cti.isSome),
    (claimCatreplay, t.cat.catreplay.isSome), (claimCatpor, t.cat.catpor.isSome),
    (claimCatv, t.cat.catv.isSome), (claimCatnip, t.cat.catnip.isSome),
    (claimCatu, t.cat.catu.isSome), (claimCatm, t.cat.catm.isSome),
    (claimCatalpn, t.cat.catalpn.isSome), (claimCath, t.cat.cath.isSome),
    (claimCatgeoiso3166, t.cat.catgeoiso3166.isSome),
    (claimCatgeocoord, t.cat.catgeocoord.isSome), (claimGeohash, t.cat.geohash.isSome),
    (claimCatgeoalt, t.cat.catgeoalt.isSome), (claimCattpk, t.cat.cattpk.isSome),
    (claimSub, t.informational.sub.isSome), (claimIat, t.informational.iat.isSome),
    (claimCatifdata, t.informational.catifdata.isSome),
    (claimCnf, t.dpop.cnf.any fun c => c.ckt.isSome || !c.jkt.isEmpty),
    (claimCatdpop, t.dpop.catdpop.any fun s =>
      s.window.isSome || s.honorJti.isSome || s.crit.isSome),
    (claimCatif, t.request.catif.isSome), (claimCatr, t.request.catr.isSome),
    (claimMoqt, t.moqt.moqt.isSome), (claimMoqtReval, t.moqt.moqtReval.isSome),
    (claimOr, t.composite.orClaim.isSome), (claimNor, t.composite.norClaim.isSome),
    (claimAnd, t.composite.andClaim.isSome)]

def CustomClaims.labels (c : CustomClaims) : List Int64 := c.entries.map Prod.fst

/-- The labels under which a token has a claim. -/
def CatToken.labels (t : CatToken) : List Int64 :=
  (t.standardClaims.filter (·.2)).map (·.1) ++ t.custom.labels

/-- The label of a match in its map. -/
def MatchValue.matchType : MatchValue → Int64
  | .exact _ => matchExact
  | .pre _ => matchPrefix
  | .suf _ => matchSuffix
  | .contains _ => matchContains
  | .regex _ => matchRegex
  | .sha256 _ => matchSha256
  | .sha512_256 _ => matchSha512_256

/-- No kind of match twice. -/
def MatchesDistinct (ms : List MatchValue) : Prop := (ms.map MatchValue.matchType).Nodup

/-- No negative label besides another. -/
def NegativeAlone (ids : List Int64) : Prop := ∀ a ∈ ids, a.toInt < 0 → ∀ b ∈ ids, b = a

/-- What the keys of a claim set's maps come down to: no negative label among others at the
    top or in `catif`, no URI component, header or match twice, and custom values whose own
    maps pass. -/
structure KeysDistinct (t : CatToken) : Prop where
  labels : NegativeAlone t.labels
  catu : ∀ rs, t.cat.catu = some rs →
    (rs.map (·.component)).Nodup ∧ ∀ r ∈ rs, MatchesDistinct r.matches_
  cath : ∀ rs, t.cat.cath = some rs →
    (rs.map (·.name)).Nodup ∧ ∀ r ∈ rs, MatchesDistinct r.matches_
  catif : ∀ as, t.request.catif = some as →
    (as.map (·.1)).Nodup ∧ NegativeAlone (as.map (·.1)) ∧
      ∀ a ∈ as, ∀ hs ∈ a.2.headers, (hs.map (·.1)).Nodup
  custom : ∀ e ∈ t.custom.entries, e.2.readBack.ValueMaps KeysChecked

mutual
/-- `KeysDistinct` of the token and of the claim sets in its composites. A composite that a
    custom claim takes the label of is not written. -/
def CatToken.KeysGiven : CatToken → Prop
  | ⟨core, cat, informational, dpop, request, ⟨orC, norC, andC⟩, moqt, custom⟩ =>
    KeysDistinct ⟨core, cat, informational, dpop, request, ⟨orC, norC, andC⟩, moqt, custom⟩ ∧
      (claimOr ∉ custom.labels → keysGiven? orC) ∧ (claimNor ∉ custom.labels → keysGiven? norC) ∧
      (claimAnd ∉ custom.labels → keysGiven? andC)
def keysGiven? : Option CompositeClaim → Prop
  | none => True
  | some c => c.KeysGiven
def CompositeClaim.KeysGiven : CompositeClaim → Prop
  | ⟨_, claims⟩ => allKeysGiven claims
def ClaimSet.KeysGiven : ClaimSet → Prop
  | .token t => t.KeysGiven
  | .composite c => c.KeysGiven
def allKeysGiven : List ClaimSet → Prop
  | [] => True
  | cs :: css => cs.KeysGiven ∧ allKeysGiven css
end

/-! ## One claim

The check passes a value by its maps (`Passes`), and most claims have either none, or one whose
keys are fixed and in order. What remains are the rules and `catif`, whose keys come from the
token.
-/

/-- A value all of whose maps pass, as they are read back. -/
def Passes (v : Value) : Prop := v.readBack.ValueMaps KeysChecked

theorem passes_of_flat {v : Value} (h : v.Flat) : Passes v := by
  rw [Passes, h.readBack]
  exact h.valueMaps

/-- Passing goes down the value: an array passes if its elements do, a map also asks for its own
    keys. -/
theorem passes_array {vs : List Value} : Passes (.array vs) ↔ ∀ v ∈ vs, Passes v := by
  rw [Passes, Value.readBack, Value.readBackList_eq, Value.valueMaps_array, List.forall_mem_map]
  rfl

theorem passes_map {es : List (Value × Value)} : Passes (.map es) ↔
    KeysChecked (es.map fun e => (e.1.readBack, e.2.readBack)) ∧ ∀ e ∈ es, Passes e.2 := by
  rw [Passes, Value.readBack, Value.readBackEntries_eq, Value.valueMaps_map, List.forall_mem_map]
  rfl

/-- A map with labels for keys. -/
theorem passes_labels {es : List (Value × Value)} {ids : List Int64}
    (h : es.map Prod.fst = ids.map i64Value) :
    Passes (.map es) ↔ (ids.Pairwise fun a b => labelRank a < labelRank b) ∧
      ∀ e ∈ es, Passes e.2 := by
  have hback : (es.map fun e => (e.1.readBack, e.2.readBack)).map Prod.fst = ids.map i64Value := by
    calc _ = (es.map Prod.fst).map Value.readBack := by rw [List.map_map, List.map_map]; rfl
      _ = _ := by rw [h, List.map_map]; rfl
  rw [passes_map, keysChecked_labels hback]

/-- A map with texts for keys. -/
theorem passes_texts {es : List (Value × Value)} {names : List String}
    (h : es.map Prod.fst = names.map .text) :
    Passes (.map es) ↔ names.Nodup ∧ ∀ e ∈ es, Passes e.2 := by
  have hback : (es.map fun e => (e.1.readBack, e.2.readBack)).map Prod.fst = names.map .text := by
    calc _ = (es.map Prod.fst).map Value.readBack := by rw [List.map_map, List.map_map]; rfl
      _ = _ := by rw [h, List.map_map]; rfl
  rw [passes_map, keysChecked_texts hback]

theorem keysChecked_singleton (e : Value × Value) : KeysChecked [e] := by
  obtain ⟨k, v⟩ := e
  constructor
  · unfold fingerprints
    rw [List.filterMap_cons]
    cases keyFingerprint k <;> simp
  · cases k with
    | integer i => exact List.pairwise_singleton _ _
    | _ => exact List.Pairwise.nil

theorem passes_tag {t : UInt64} {v : Value} (h : Passes v) : Passes (.tag t v) := by
  rw [Passes, Value.readBack]
  unfold Value.ofTag
  split
  · dsimp only; split <;> trivial
  · dsimp only; split <;> trivial
  · exact h

theorem whenSome_eq_ok {α : Type} {x : Option α} {f : α → Except Failure Value} {v : Value} :
    whenSome x f = .ok (some v) ↔ ∃ a, x = some a ∧ f a = .ok v := by
  cases x with
  | none => simp [whenSome]
  | some a => simp [whenSome, Except.map_eq_ok]

theorem whenSome_isSome {α : Type} {x : Option α} {f : α → Except Failure Value} {r : Option Value}
    (h : whenSome x f = .ok r) : r.isSome = x.isSome := by
  cases x with
  | none =>
    obtain rfl := Except.ok.inj h
    rfl
  | some a =>
    obtain ⟨v, -, rfl⟩ := Except.map_eq_ok.mp h
    rfl

/-! ### Values without maps -/

theorem flat_textArray (ss : List String) : (textArray ss).Flat := by
  rw [textArray, Value.flat_array, List.forall_mem_map]
  intro s _
  trivial

theorem flat_textOrArray (ss : List String) : (textOrArray ss).Flat := by
  unfold textOrArray
  split
  · trivial
  · exact flat_textArray _

theorem flat_encodeNumberShortest (f : F64) : (encodeNumberShortest f).Flat := by
  unfold encodeNumberShortest
  split <;> trivial

theorem flat_encodeBinaryMatch {m : BinaryMatch} {v : Value} (h : encodeBinaryMatch m = .ok v) :
    v.Flat := by
  unfold encodeBinaryMatch at h
  split at h
  · exact absurd h (by simp)
  all_goals
    obtain rfl := Except.ok.inj h
    trivial

theorem flat_encodeNamespaceMatches {ns : List NamespaceMatch} :
    ∀ {seen : Bool} {vs : List Value}, encodeNamespaceMatches seen ns = .ok vs →
      ∀ v ∈ vs, v.Flat := by
  induction ns with
  | nil =>
    intro seen vs h
    obtain rfl := Except.ok.inj h
    simp
  | cons n ns ih =>
    intro seen vs h
    unfold encodeNamespaceMatches at h
    obtain ⟨-, h₁⟩ := Except.guard_eq_ok.mp h
    obtain ⟨v, hv, h₂⟩ := Except.bind_eq_ok.mp h₁
    obtain ⟨vs', hvs, h₃⟩ := Except.bind_eq_ok.mp h₂
    obtain rfl := Except.pure_eq_ok.mp h₃
    refine List.forall_mem_cons.mpr ⟨?_, ih hvs⟩
    unfold encodeNamespaceMatch at hv
    split at hv
    · obtain rfl := Except.ok.inj hv
      trivial
    · split at hv
      · exact absurd hv (by simp)
      · exact flat_encodeBinaryMatch hv

/-- The namespace matches of an encoded scope, when it has any. -/
def scopeNamespaces (scope : MoqtScope) : Except CatError (List Value) :=
  if scope.namespaceMatches.isEmpty then .ok []
  else do return [.array (← encodeNamespaceMatches false scope.namespaceMatches)]

/-- Its track match, behind an empty array where there are no namespace matches. -/
def scopeTrack (scope : MoqtScope) : Except CatError (List Value) :=
  match scope.trackMatch with
  | none => .ok []
  | some m => do
    if m.matchType = .any then
      throw (.invalidClaimValue "Track wildcard must use Option::None, not BinaryMatch::Any")
    let v ← encodeBinaryMatch m
    return (if scope.namespaceMatches.isEmpty then [.array []] else []) ++ [v]

/-- The encoder of a scope as three parts in a row, each of which may fail or be empty. -/
theorem encodeScope_eq (scope : MoqtScope) : encodeScope scope = (do
    if scope.actions.isEmpty then
      throw (.invalidClaimValue "MOQT scope must have at least one action")
    let ns ← scopeNamespaces scope
    let track ← scopeTrack scope
    return .array ([.array (scope.actions.map fun a => i64Value (Int64.ofInt a.toI32.toInt))] ++
      ns ++ track)) := by
  obtain ⟨actions, namespaceMatches, trackMatch⟩ := scope
  unfold encodeScope scopeNamespaces scopeTrack
  cases actions with
  | nil => rfl
  | cons a as =>
    cases namespaceMatches with
    | nil =>
      cases trackMatch with
      | none => rfl
      | some m =>
        by_cases hm : m.matchType = .any
        · simp only [hm]
          rfl
        · simp only [hm, if_false]
          cases encodeBinaryMatch m <;> rfl
    | cons n ns =>
      simp only [List.isEmpty_cons, Bool.false_eq_true, if_false]
      cases encodeNamespaceMatches false (n :: ns) with
      | error e => rfl
      | ok vs =>
        cases trackMatch with
        | none => rfl
        | some m =>
          by_cases hm : m.matchType = .any
          · simp only [hm]
            rfl
          · simp only [hm, if_false]
            cases encodeBinaryMatch m <;> rfl

theorem flat_encodeScope {scope : MoqtScope} {v : Value} (h : encodeScope scope = .ok v) :
    v.Flat := by
  rw [encodeScope_eq] at h
  obtain ⟨-, h₁⟩ := Except.guard_eq_ok.mp h
  obtain ⟨ns, hns, h₂⟩ := Except.bind_eq_ok.mp h₁
  obtain ⟨track, htrack, h₃⟩ := Except.bind_eq_ok.mp h₂
  obtain rfl := Except.pure_eq_ok.mp h₃
  rw [Value.flat_array, List.forall_mem_append, List.forall_mem_append, List.forall_mem_singleton,
    Value.flat_array, List.forall_mem_map]
  refine ⟨⟨fun a _ => trivial, ?_⟩, ?_⟩
  · unfold scopeNamespaces at hns
    split at hns
    · obtain rfl := Except.ok.inj hns
      simp
    · obtain ⟨vs, hvs, h⟩ := Except.bind_eq_ok.mp hns
      obtain rfl := Except.pure_eq_ok.mp h
      rw [List.forall_mem_singleton, Value.flat_array]
      exact flat_encodeNamespaceMatches hvs
  · unfold scopeTrack at htrack
    split at htrack
    · obtain rfl := Except.ok.inj htrack
      simp
    · obtain ⟨-, h₁⟩ := Except.guard_eq_ok.mp htrack
      obtain ⟨v, hv, h₂⟩ := Except.bind_eq_ok.mp h₁
      obtain rfl := Except.pure_eq_ok.mp h₂
      rw [List.forall_mem_append, List.forall_mem_singleton]
      refine ⟨?_, flat_encodeBinaryMatch hv⟩
      split <;> simp [Value.flat_array]

/-! ### Values with maps that are always in order -/

theorem passes_encodeNetworkIdentifier {n : NetworkIdentifier} {v : Value}
    (h : encodeNetworkIdentifier n = .ok v) : Passes v := by
  unfold encodeNetworkIdentifier at h
  split at h
  · obtain rfl := Except.ok.inj h
    exact passes_tag (passes_of_flat trivial)
  · obtain rfl := Except.ok.inj h
    exact passes_tag (passes_of_flat trivial)
  · dsimp only at h
    split at h
    · exact absurd h (by simp)
    · obtain rfl := Except.ok.inj h
      refine passes_tag (passes_map.mpr ⟨keysChecked_singleton _, ?_⟩)
      rw [List.forall_mem_singleton]
      exact passes_of_flat trivial
  · obtain rfl := Except.ok.inj h
    exact passes_of_flat trivial
  · obtain rfl := Except.ok.inj h
    exact passes_of_flat ⟨trivial, trivial, trivial⟩

/-- A map whose labels are some of an ascending list, with values without maps. The optional members
    of a record are of this kind, whichever of them are there. -/
theorem passes_members {es : List (Value × Value)} {ids all : List Int64}
    (hes : es.map Prod.fst = ids.map i64Value) (hsub : ids.Sublist all)
    (hall : all.Pairwise fun a b => labelRank a < labelRank b) (hflat : ∀ e ∈ es, e.2.Flat) :
    Passes (.map es) :=
  (passes_labels hes).mpr ⟨hall.sublist hsub, fun e he => passes_of_flat (hflat e he)⟩

/-- The labels of optional members. -/
def optLabel {α : Type} (label : Int64) (x : Option α) : List Int64 :=
  if x.isSome then [label] else []

theorem optMember_keys {α : Type} (label : Int64) (x : Option α) (f : α → Value) :
    (optMember label x f).map Prod.fst = (optLabel label x).map i64Value := by
  cases x <;> rfl

theorem optLabel_sublist {α : Type} (label : Int64) (x : Option α) :
    (optLabel label x).Sublist [label] := by
  cases x with
  | none => exact List.nil_sublist _
  | some a => exact List.Sublist.refl _

theorem optMember_flat {α : Type} {label : Int64} {x : Option α} {f : α → Value}
    (hf : ∀ a, (f a).Flat) : ∀ e ∈ optMember label x f, e.2.Flat := by
  cases x with
  | none => simp [optMember]
  | some a => simpa [optMember] using hf a

/-- What a renewal is encoded as. -/
def catrMap (r : CatRenewal) : List (Value × Value) :=
  [(i64Value catrType, u32Value r.renewalType.toU32)] ++
    optMember catrExpadd r.expadd encodeNumberShortest ++
    optMember catrDeadline r.deadline encodeNumberShortest ++
    optMember catrCookieName r.cookieName .text ++
    optMember catrHeaderName r.headerName .text ++
    optMember catrAdditionalCookieParams r.cookieParams textArray ++
    optMember catrAdditionalHeaderParams r.headerParams textArray ++
    optMember catrStatusCode r.statusCode u32Value

theorem passes_catrMap (r : CatRenewal) : Passes (.map (catrMap r)) := by
  let ids := [catrType] ++ optLabel catrExpadd r.expadd ++ optLabel catrDeadline r.deadline ++
    optLabel catrCookieName r.cookieName ++ optLabel catrHeaderName r.headerName ++
    optLabel catrAdditionalCookieParams r.cookieParams ++
    optLabel catrAdditionalHeaderParams r.headerParams ++ optLabel catrStatusCode r.statusCode
  have hkeys : (catrMap r).map Prod.fst = ids.map i64Value := by
    simp only [catrMap, ids, List.map_append, optMember_keys]
    rfl
  have hsub : ids.Sublist ([catrType] ++ [catrExpadd] ++ [catrDeadline] ++ [catrCookieName] ++
      [catrHeaderName] ++ [catrAdditionalCookieParams] ++ [catrAdditionalHeaderParams] ++
      [catrStatusCode]) := by
    repeat' apply List.Sublist.append
    all_goals first | exact List.Sublist.refl _ | exact optLabel_sublist _ _
  refine passes_members hkeys hsub (by decide) ?_
  simp only [catrMap, List.forall_mem_append, List.forall_mem_singleton]
  refine ⟨⟨⟨⟨⟨⟨⟨trivial, ?_⟩, ?_⟩, ?_⟩, ?_⟩, ?_⟩, ?_⟩, ?_⟩
  · exact optMember_flat flat_encodeNumberShortest
  · exact optMember_flat flat_encodeNumberShortest
  · exact optMember_flat fun _ => trivial
  · exact optMember_flat fun _ => trivial
  · exact optMember_flat flat_textArray
  · exact optMember_flat flat_textArray
  · exact optMember_flat fun _ => trivial

theorem passes_cnfMap (c : ConfirmationClaim) : Passes (.map (cnfMap c)) := by
  let ids := optLabel cnfCkt c.ckt ++ (if c.jkt.isEmpty then [] else [cnfJkt])
  have hkeys : (cnfMap c).map Prod.fst = ids.map i64Value := by
    unfold cnfMap
    rw [List.map_append, List.map_append]
    congr 1
    · cases c.ckt <;> rfl
    · split <;> rfl
  have hsub : ids.Sublist ([cnfCkt] ++ [cnfJkt]) := by
    apply List.Sublist.append
    · exact optLabel_sublist _ _
    · split
      · exact List.nil_sublist _
      · exact List.Sublist.refl _
  refine passes_members hkeys hsub (by decide) ?_
  unfold cnfMap
  rw [List.forall_mem_append]
  refine ⟨?_, ?_⟩
  · cases c.ckt <;> simp [Value.Flat]
  · split <;> simp [Value.Flat]

theorem passes_catdpopMap (s : CatDpopSettings) : Passes (.map (catdpopMap s)) := by
  let ids := optLabel catdpopWindow s.window ++ optLabel catdpopHonorJti s.honorJti ++
    optLabel catdpopCrit s.crit
  have hkeys : (catdpopMap s).map Prod.fst = ids.map i64Value := by
    simp only [catdpopMap, ids, List.map_append]
    congr 1
    · congr 1
      · cases s.window <;> rfl
      · cases s.honorJti <;> rfl
    · cases s.crit <;> rfl
  have hsub : ids.Sublist ([catdpopWindow] ++ [catdpopHonorJti] ++ [catdpopCrit]) := by
    repeat' apply List.Sublist.append
    all_goals exact optLabel_sublist _ _
  refine passes_members hkeys hsub (by decide) ?_
  simp only [catdpopMap, List.forall_mem_append]
  refine ⟨⟨?_, ?_⟩, ?_⟩
  · cases s.window <;> simp [i64Value, Value.Flat]
  · cases s.honorJti <;> simp [i64Value, Value.Flat]
  · cases s.crit with
    | none => simp
    | some ks =>
      rw [List.forall_mem_singleton, Value.flat_array, List.forall_mem_map]
      exact fun _ _ => trivial

/-! ### Rules -/

theorem encodeMatchValue_key (m : MatchValue) : (encodeMatchValue m).1 = i64Value m.matchType := by
  cases m <;> rfl

theorem encodeMatchValue_flat (m : MatchValue) : (encodeMatchValue m).2.Flat := by
  cases m <;> trivial

theorem forall_mem_sortIntegerKeyedMap {P : Value × Value → Prop} {es : List (Value × Value)} :
    (∀ e ∈ sortIntegerKeyedMap es, P e) ↔ ∀ e ∈ es, P e :=
  forall_congr' fun _ => imp_congr_left (List.mergeSort_perm _ _).mem_iff

/-- A map sorted by label passes when no label is twice. -/
theorem passes_sorted {es : List (Value × Value)} {ids : List Int64}
    (hes : es.map Prod.fst = ids.map i64Value) :
    Passes (.map (sortIntegerKeyedMap es)) ↔ ids.Nodup ∧ ∀ e ∈ es, Passes e.2 := by
  obtain ⟨sorted, hsorted, hiff⟩ := sortIntegerKeyedMap_labels hes
  rw [passes_labels hsorted, hiff, forall_mem_sortIntegerKeyedMap]

theorem passes_encodeMatchMap (ms : List MatchValue) :
    Passes (encodeMatchMap ms) ↔ MatchesDistinct ms := by
  have hkeys : (ms.map encodeMatchValue).map Prod.fst =
      (ms.map MatchValue.matchType).map i64Value := by
    rw [List.map_map, List.map_map]
    exact List.map_congr_left fun m _ => encodeMatchValue_key m
  rw [encodeMatchMap, passes_sorted hkeys, MatchesDistinct, and_iff_left]
  rw [List.forall_mem_map]
  exact fun m _ => passes_of_flat (encodeMatchValue_flat m)

theorem passes_catu (rs : List UriMatchRule) :
    Passes (.map (sortIntegerKeyedMap
      (rs.map fun rule => (i64Value rule.component, encodeMatchMap rule.matches_)))) ↔
      (rs.map (·.component)).Nodup ∧ ∀ r ∈ rs, MatchesDistinct r.matches_ := by
  have hkeys : (rs.map fun rule => (i64Value rule.component, encodeMatchMap rule.matches_)).map
      Prod.fst = (rs.map (·.component)).map i64Value := by
    rw [List.map_map, List.map_map]
    rfl
  rw [passes_sorted hkeys, List.forall_mem_map]
  simp only [passes_encodeMatchMap]

theorem passes_cath (rs : List HeaderMatchRule) :
    Passes (.map (rs.map fun rule => (.text rule.name, encodeMatchMap rule.matches_))) ↔
      (rs.map (·.name)).Nodup ∧ ∀ r ∈ rs, MatchesDistinct r.matches_ := by
  have hkeys : (rs.map fun rule => (Value.text rule.name, encodeMatchMap rule.matches_)).map
      Prod.fst = (rs.map (·.name)).map .text := by
    rw [List.map_map, List.map_map]
    rfl
  rw [passes_texts hkeys, List.forall_mem_map]
  simp only [passes_encodeMatchMap]

theorem passes_encodeCatifAction (a : CatIfAction) :
    Passes (encodeCatifAction a) ↔ ∀ hs ∈ a.headers, (hs.map (·.1)).Nodup := by
  have hheaders : ∀ hs : List (String × String),
      Passes (.map (hs.map fun h => (.text h.1, .text h.2))) ↔ (hs.map (·.1)).Nodup := fun hs => by
    have hkeys : (hs.map fun h => (Value.text h.1, Value.text h.2)).map Prod.fst =
        (hs.map (·.1)).map .text := by
      rw [List.map_map, List.map_map]
      rfl
    rw [passes_texts hkeys, and_iff_left]
    rw [List.forall_mem_map]
    exact fun _ _ => passes_of_flat trivial
  have hempty : Passes (.map []) := (hheaders []).mpr List.nodup_nil
  obtain ⟨status, headers, kid⟩ := a
  rw [encodeCatifAction, passes_array]
  have hstatus : Passes (u32Value status) := passes_of_flat trivial
  cases headers with
  | none =>
    refine iff_of_true ?_ (by simp)
    cases kid with
    | none => simpa using hstatus
    | some k =>
      have hk : Passes (.text k) := passes_of_flat trivial
      simpa using ⟨hstatus, hempty, hk⟩
  | some hs =>
    have hhs := hheaders hs
    cases kid with
    | none => simp [hstatus, hhs]
    | some k =>
      have hk : Passes (.text k) := passes_of_flat trivial
      simp [hstatus, hk, hhs]

theorem passes_catif (as : List (Int64 × CatIfAction)) :
    Passes (.map ((as.mergeSort fun a b => a.1.toInt ≤ b.1.toInt).map
      fun e => (i64Value e.1, encodeCatifAction e.2))) ↔
      (as.map (·.1)).Nodup ∧ NegativeAlone (as.map (·.1)) ∧
        ∀ a ∈ as, ∀ hs ∈ a.2.headers, (hs.map (·.1)).Nodup := by
  generalize hsorted : as.mergeSort (fun a b => a.1.toInt ≤ b.1.toInt) = sorted
  have hperm : sorted.Perm as := by
    rw [← hsorted]
    exact List.mergeSort_perm _ _
  have hkeys : (sorted.map fun e => (i64Value e.1, encodeCatifAction e.2)).map Prod.fst =
      (sorted.map (·.1)).map i64Value := by
    rw [List.map_map, List.map_map]
    rfl
  have hstrict := List.pairwise_lt_mergeSort (fun e : Int64 × CatIfAction => e.1.toInt) as
  rw [hsorted, List.pairwise_map] at hstrict
  have hnodup : (as.map fun e => e.1.toInt).Nodup ↔ (as.map (·.1)).Nodup := by
    have hinj : Function.Injective Int64.toInt := fun a b => Int64.toInt_inj.mp
    rw [← List.nodup_map_iff hinj, List.map_map]
    rfl
  have halone : NegativeAlone (sorted.map (·.1)) ↔ NegativeAlone (as.map (·.1)) := by
    unfold NegativeAlone
    simp only [(hperm.map (·.1)).mem_iff]
  rw [passes_labels hkeys, List.forall_mem_map]
  simp only [passes_encodeCatifAction, hperm.mem_iff]
  rw [← and_assoc]
  refine and_congr_left' ?_
  constructor
  · intro hrank
    have hnd : (as.map (·.1)).Nodup := (hperm.map (·.1)).nodup_iff.mp (rankSorted_nodup hrank)
    have hlt : (sorted.map (·.1)).Pairwise fun a b => a.toInt < b.toInt := by
      rw [List.pairwise_map]
      exact hstrict.mpr (hnodup.mpr hnd)
    exact ⟨hnd, halone.mp ((rankSorted_iff hlt).mp hrank)⟩
  · rintro ⟨hnd, hneg⟩
    have hlt : (sorted.map (·.1)).Pairwise fun a b => a.toInt < b.toInt := by
      rw [List.pairwise_map]
      exact hstrict.mpr (hnodup.mpr hnd)
    exact (rankSorted_iff hlt).mpr (halone.mpr hneg)

/-! ## The table of claims

One case for each encoder, and each is the lemma about its value. Nothing else here looks at the
encoders one by one.
-/

/-- A claim that is encoded without fail, as a value without maps. -/
theorem passes_whenSome {α : Type} {x : Option α} {g : α → Value} (hg : ∀ a, (g a).Flat) {v : Value}
    (h : whenSome x (fun a => .ok (g a)) = .ok (some v)) : Passes v := by
  obtain ⟨a, -, ha⟩ := whenSome_eq_ok.mp h
  obtain rfl := Except.ok.inj ha
  exact passes_of_flat (hg a)

theorem flat_u32Value (n : UInt32) : (u32Value n).Flat := trivial
theorem flat_i64Value (n : Int64) : (i64Value n).Flat := trivial
theorem flat_text (s : String) : (Value.text s).Flat := trivial
theorem flat_bytes (b : Bytes) : (Value.bytes b).Flat := trivial

theorem passes_encodeCatpor {t : CatToken} {v : Value} (h : encodeCatpor t = .ok (some v)) :
    Passes v := by
  obtain ⟨p, -, hp⟩ := whenSome_eq_ok.mp h
  obtain ⟨_, -, hp⟩ := Except.bind_eq_ok.mp hp
  obtain rfl := Except.pure_eq_ok.mp hp
  refine passes_of_flat (Value.flat_array.mpr ?_)
  cases p.expiration <;> simp [Value.Flat, i64Value, flat_encodeNumberShortest]

theorem passes_encodeCatnip {t : CatToken} {v : Value} (h : encodeCatnip t = .ok (some v)) :
    Passes v := by
  obtain ⟨ns, -, hns⟩ := whenSome_eq_ok.mp h
  obtain ⟨vs, hvs, hv⟩ := Except.bind_eq_ok.mp hns
  obtain rfl := Except.pure_eq_ok.mp hv
  refine passes_array.mpr fun w hw => ?_
  obtain ⟨n, -, hn⟩ := (Except.mapM'_eq_ok.mp hvs).exists_of_mem_right hw
  exact passes_encodeNetworkIdentifier hn

theorem passes_encodeCatgeocoord {t : CatToken} {v : Value}
    (h : encodeCatgeocoord t = .ok (some v)) : Passes v := by
  obtain ⟨zs, -, hzs⟩ := whenSome_eq_ok.mp h
  obtain ⟨_, -, hv⟩ := Except.bind_eq_ok.mp hzs
  obtain rfl := Except.pure_eq_ok.mp hv
  refine passes_of_flat (Value.flat_array.mpr ?_)
  rw [List.forall_mem_map]
  intro z _
  rw [Value.flat_array]
  simp [flat_encodeNumberShortest, flat_u32Value]

theorem passes_encodeCatgeoalt {t : CatToken} {v : Value} (h : encodeCatgeoalt t = .ok (some v)) :
    Passes v := by
  obtain ⟨a, -, ha⟩ := whenSome_eq_ok.mp h
  obtain ⟨_, -, ha⟩ := Except.bind_eq_ok.mp ha
  obtain ⟨_, -, ha⟩ := Except.bind_eq_ok.mp ha
  obtain rfl := Except.pure_eq_ok.mp ha
  refine passes_of_flat (Value.flat_array.mpr ?_)
  simp [flat_encodeNumberShortest]

theorem passes_encodeMoqt {t : CatToken} {v : Value} (h : encodeMoqt t = .ok (some v)) :
    Passes v := by
  obtain ⟨scopes, -, hs⟩ := whenSome_eq_ok.mp h
  obtain ⟨vs, hvs, hv⟩ := Except.bind_eq_ok.mp hs
  obtain rfl := Except.pure_eq_ok.mp hv
  refine passes_of_flat (Value.flat_array.mpr fun w hw => ?_)
  obtain ⟨scope, -, hscope⟩ :=
    (Except.mapM'_eq_ok.mp (Failure.lift_eq_ok.mp hvs)).exists_of_mem_right hw
  exact flat_encodeScope hscope

theorem passes_encodeMoqtReval {t : CatToken} {v : Value}
    (h : encodeMoqtReval t = .ok (some v)) : Passes v := by
  obtain ⟨f, -, hf⟩ := whenSome_eq_ok.mp h
  obtain ⟨_, -, hf⟩ := Except.bind_eq_ok.mp hf
  obtain rfl := Except.pure_eq_ok.mp hf
  exact passes_of_flat (flat_encodeNumberShortest f)

/-- A claim whose map is dropped when it has no members. -/
theorem unlessEmpty_eq_ok {es : List (Value × Value)} {v : Value} :
    unlessEmpty es = .ok (some v) ↔ es ≠ [] ∧ v = .map es := by
  unfold unlessEmpty
  cases es with
  | nil => simp
  | cons e es => simp [eq_comm]

theorem passes_encodeCnf {t : CatToken} {v : Value} (h : encodeCnf t = .ok (some v)) :
    Passes v := by
  unfold encodeCnf at h
  split at h
  · exact absurd h (by simp)
  · rename_i c _
    obtain ⟨-, rfl⟩ := unlessEmpty_eq_ok.mp h
    exact passes_cnfMap c

theorem passes_encodeCatdpop {t : CatToken} {v : Value} (h : encodeCatdpop t = .ok (some v)) :
    Passes v := by
  unfold encodeCatdpop at h
  split at h
  · exact absurd h (by simp)
  · rename_i s _
    obtain ⟨-, rfl⟩ := unlessEmpty_eq_ok.mp h
    exact passes_catdpopMap s

theorem passes_encodeCatr {t : CatToken} {v : Value} (h : encodeCatr t = .ok (some v)) :
    Passes v := by
  obtain ⟨r, -, hr⟩ := whenSome_eq_ok.mp h
  obtain rfl := Except.ok.inj hr
  exact passes_catrMap r

/-- The labels of the claims whose maps may fail to pass. -/
def conditionLabels : List Int64 := [claimCatu, claimCath, claimCatif, claimOr, claimNor, claimAnd]

/-- All other claims pass. One case for each encoder of the table, none of which needs the token. -/
theorem passes_of_encoder {c : CompositeValues} {t : CatToken} {k : Int64}
    {enc : CatToken → Encoded} {v : Value} (he : (k, enc) ∈ claimEncoders c)
    (hk : k ∉ conditionLabels) (h : enc t = .ok (some v)) : Passes v := by
  have hcond : ∀ {k}, k ∈ conditionLabels → k ∉ conditionLabels → Passes v :=
    fun hmem hnot => absurd hmem hnot
  simp only [claimEncoders, List.mem_cons, Prod.mk.injEq, List.not_mem_nil, or_false] at he
  rcases he with ⟨rfl, rfl⟩ | ⟨rfl, rfl⟩ | ⟨rfl, rfl⟩ | ⟨rfl, rfl⟩ | ⟨rfl, rfl⟩ | ⟨rfl, rfl⟩ |
    ⟨rfl, rfl⟩ | ⟨rfl, rfl⟩ | ⟨rfl, rfl⟩ | ⟨rfl, rfl⟩ | ⟨rfl, rfl⟩ | ⟨rfl, rfl⟩ | ⟨rfl, rfl⟩ |
    ⟨rfl, rfl⟩ | ⟨rfl, rfl⟩ | ⟨rfl, rfl⟩ | ⟨rfl, rfl⟩ | ⟨rfl, rfl⟩ | ⟨rfl, rfl⟩ | ⟨rfl, rfl⟩ |
    ⟨rfl, rfl⟩ | ⟨rfl, rfl⟩ | ⟨rfl, rfl⟩ | ⟨rfl, rfl⟩ | ⟨rfl, rfl⟩ | ⟨rfl, rfl⟩ | ⟨rfl, rfl⟩ |
    ⟨rfl, rfl⟩ | ⟨rfl, rfl⟩ | ⟨rfl, rfl⟩
  · exact passes_whenSome flat_text h
  · exact passes_whenSome flat_textArray h
  · exact passes_whenSome flat_i64Value h
  · exact passes_whenSome flat_i64Value h
  · exact passes_whenSome flat_bytes h
  · exact passes_whenSome (fun r : ReplayProtection => flat_u32Value r.toU32) h
  · exact passes_encodeCatpor h
  · exact passes_whenSome flat_u32Value h
  · exact passes_encodeCatnip h
  · exact hcond (by decide) hk
  · exact passes_whenSome flat_textArray h
  · exact passes_whenSome (fun as : List Bytes => Value.flat_array.mpr (by simp [flat_bytes])) h
  · exact hcond (by decide) hk
  · exact passes_whenSome flat_textArray h
  · exact passes_encodeCatgeocoord h
  · exact passes_whenSome flat_textOrArray h
  · exact passes_encodeCatgeoalt h
  · exact passes_whenSome flat_bytes h
  · exact passes_whenSome flat_text h
  · exact passes_whenSome flat_i64Value h
  · exact passes_whenSome flat_textOrArray h
  · exact passes_encodeCnf h
  · exact passes_encodeCatdpop h
  · exact hcond (by decide) hk
  · exact passes_encodeCatr h
  · exact passes_encodeMoqt h
  · exact passes_encodeMoqtReval h
  · exact hcond (by decide) hk
  · exact hcond (by decide) hk
  · exact hcond (by decide) hk

/-! ### Which claims there are -/

theorem unlessEmpty_isSome {es : List (Value × Value)} {r : Option Value}
    (h : unlessEmpty es = .ok r) : r.isSome = !es.isEmpty := by
  obtain rfl := Except.ok.inj h
  cases es <;> rfl

theorem cnfMap_isEmpty (c : ConfirmationClaim) :
    (!(cnfMap c).isEmpty) = (c.ckt.isSome || !c.jkt.isEmpty) := by
  obtain ⟨jkt, ckt⟩ := c
  cases ckt <;> cases jkt <;> rfl

theorem catdpopMap_isEmpty (s : CatDpopSettings) :
    (!(catdpopMap s).isEmpty) = (s.window.isSome || s.honorJti.isSome || s.crit.isSome) := by
  obtain ⟨crit, window, honorJti, -⟩ := s
  cases crit <;> cases window <;> cases honorJti <;> rfl

section
variable (H : Host)

theorem encodeCompositeClaim?_isSome {c : Option CompositeClaim} {r : Option Value}
    (h : encodeCompositeClaim? H c = .ok r) : r.isSome = c.isSome := by
  cases c with
  | none =>
    rw [encodeCompositeClaim?] at h
    obtain rfl := Except.ok.inj h
    rfl
  | some c =>
    rw [encodeCompositeClaim?] at h
    obtain ⟨v, -, rfl⟩ := Except.map_eq_ok.mp h
    rfl

end

theorem encodeCnf_isSome {t : CatToken} {r : Option Value} (h : encodeCnf t = .ok r) :
    r.isSome = t.dpop.cnf.any fun c => c.ckt.isSome || !c.jkt.isEmpty := by
  unfold encodeCnf at h
  cases hc : t.dpop.cnf with
  | none =>
    rw [hc] at h
    obtain rfl := Except.ok.inj h
    rfl
  | some c =>
    rw [hc] at h
    rw [unlessEmpty_isSome h, cnfMap_isEmpty]
    rfl

theorem encodeCatdpop_isSome {t : CatToken} {r : Option Value} (h : encodeCatdpop t = .ok r) :
    r.isSome = t.dpop.catdpop.any fun s =>
      s.window.isSome || s.honorJti.isSome || s.crit.isSome := by
  unfold encodeCatdpop at h
  cases hs : t.dpop.catdpop with
  | none =>
    rw [hs] at h
    obtain rfl := Except.ok.inj h
    rfl
  | some s =>
    rw [hs] at h
    rw [unlessEmpty_isSome h, catdpopMap_isEmpty]
    rfl

/-- An encoder yields a value just for the claims there are. This is what connects the condition,
    which looks at the token, with the labels of the payload. -/
theorem standardClaims_spec (H : Host) (t : CatToken) :
    List.Forall₂ (fun (x : Int64 × (CatToken → Encoded)) (y : Int64 × Bool) =>
        x.1 = y.1 ∧ ∀ r, x.2 t = .ok r → r.isSome = y.2)
      (claimEncoders (compositeValues H t.composite)) t.standardClaims := by
  unfold claimEncoders CatToken.standardClaims
  repeat' refine List.Forall₂.cons ⟨rfl, fun r h => ?_⟩ ?_
  all_goals first
    | exact List.Forall₂.nil
    | exact whenSome_isSome h
    | exact encodeCompositeClaim?_isSome H h
    | exact encodeCnf_isSome h
    | exact encodeCatdpop_isSome h

/-- All encoders of an encoded token succeed. -/
theorem insertions_each {t : CatToken} {encs : List (Int64 × (CatToken → Encoded))} :
    ∀ {es : List (Int64 × Value)}, insertions t encs = .ok es → ∀ x ∈ encs, ∃ r, x.2 t = .ok r := by
  induction encs with
  | nil => intro es _ x hx; exact absurd hx List.not_mem_nil
  | cons y encs ih =>
    obtain ⟨label, enc⟩ := y
    intro es h
    obtain ⟨r, hr, h⟩ := Except.bind_eq_ok.mp h
    refine List.forall_mem_cons.mpr ⟨⟨r, hr⟩, ?_⟩
    cases r with
    | none => exact ih h
    | some v =>
      obtain ⟨es', hes', -⟩ := Except.bind_eq_ok.mp h
      exact ih hes'

/-- And the way back. -/
theorem insertions_of_each {t : CatToken} {encs : List (Int64 × (CatToken → Encoded))}
    (h : ∀ x ∈ encs, ∃ r, x.2 t = .ok r) : ∃ es, insertions t encs = .ok es := by
  induction encs with
  | nil => exact ⟨[], rfl⟩
  | cons x encs ih =>
    rw [List.forall_mem_cons] at h
    obtain ⟨r, hr⟩ := h.1
    obtain ⟨es, hes⟩ := ih h.2
    cases r with
    | none => exact ⟨es, Except.bind_eq_ok.mpr ⟨none, hr, hes⟩⟩
    | some v =>
      refine ⟨(x.1, v) :: es, Except.bind_eq_ok.mpr ⟨some v, hr, ?_⟩⟩
      exact Except.bind_eq_ok.mpr ⟨es, hes, rfl⟩

/-! ## The token -/

section
variable {H : Host} {t : CatToken} {m : List (Int64 × Value)}

/-- The value of a claim there is. -/
theorem mem_claimsMap_of_encoder (h : claimsMap (compositeValues H t.composite) t = .ok m)
    {k : Int64} {enc : CatToken → Encoded} {v : Value}
    (henc : (k, enc) ∈ claimEncoders (compositeValues H t.composite)) (hv : enc t = .ok (some v))
    (hk : k ∉ t.custom.labels) : (k, v) ∈ m :=
  ((claimsMap_ok h).2 k v).mpr (.inr ⟨hk, enc, henc, hv⟩)

/-- The labels of the claim map are those of the token. -/
theorem claimsMap_labels (h : claimsMap (compositeValues H t.composite) t = .ok m) {k : Int64} :
    k ∈ m.map Prod.fst ↔ k ∈ t.labels := by
  obtain ⟨-, hmem⟩ := claimsMap_ok h
  obtain ⟨es, hes, -⟩ := Except.bind_eq_ok.mp h
  have heach := insertions_each hes
  have hspec := standardClaims_spec H t
  rw [CatToken.labels, List.mem_append]
  constructor
  · intro hk
    obtain ⟨⟨k, v⟩, he, rfl⟩ := List.mem_map.mp hk
    rcases (hmem k v).mp he with hc | ⟨-, enc, henc, hv⟩
    · exact .inr (List.mem_map_of_mem hc)
    · obtain ⟨⟨k', p⟩, hp, rfl, hsome⟩ := hspec.exists_of_mem_left henc
      have hpres := hsome _ hv
      exact .inl (List.mem_map.mpr ⟨_, List.mem_filter.mpr ⟨hp, hpres.symm⟩, rfl⟩)
  · intro hk
    by_cases hc : k ∈ t.custom.labels
    · obtain ⟨⟨k, v⟩, he, rfl⟩ := List.mem_map.mp hc
      exact List.mem_map_of_mem ((hmem k v).mpr (.inl he))
    · rcases hk with hk | hk
      · obtain ⟨⟨k, p⟩, hp, rfl⟩ := List.mem_map.mp hk
        obtain ⟨hp, htrue⟩ := List.mem_filter.mp hp
        obtain ⟨⟨k', enc⟩, henc, heq, hsome⟩ := hspec.exists_of_mem_right hp
        obtain rfl : k' = k := heq
        obtain ⟨r, hr⟩ := heach _ henc
        have hpres := hsome r hr
        cases r with
        | none => exact absurd (hpres.trans htrue) Bool.false_ne_true
        | some v => exact List.mem_map_of_mem (mem_claimsMap_of_encoder h henc hr hc)
      · exact absurd hk hc

/-- A claim map passes when its labels are in order and its values pass. -/
theorem passes_claimsValue (h : claimsMap (compositeValues H t.composite) t = .ok m) :
    Passes (claimsValue m) ↔ NegativeAlone t.labels ∧ ∀ e ∈ m, Passes e.2 := by
  have hkeys : (m.map fun e => (i64Value e.1, e.2)).map Prod.fst = (m.map Prod.fst).map i64Value := by
    rw [List.map_map, List.map_map]
    rfl
  have hsorted : (m.map Prod.fst).Pairwise fun a b => a.toInt < b.toInt := by
    rw [List.pairwise_map]
    exact (claimsMap_ok h).1
  have halone : NegativeAlone (m.map Prod.fst) ↔ NegativeAlone t.labels := by
    unfold NegativeAlone
    simp only [claimsMap_labels h]
  rw [claimsValue, passes_labels hkeys, rankSorted_iff hsorted]
  refine and_congr halone ?_
  rw [List.forall_mem_map]

/-- A claim the token has is in its claim map. -/
theorem mem_claimsMap_of_present (h : claimsMap (compositeValues H t.composite) t = .ok m)
    {k : Int64} {enc : CatToken → Encoded} {α : Type} {x : Option α} {a : α}
    (henc : (k, enc) ∈ claimEncoders (compositeValues H t.composite))
    (hsome : ∀ r, enc t = .ok r → r.isSome = x.isSome) (hx : x = some a)
    (hk : k ∉ t.custom.labels) : ∃ v, enc t = .ok (some v) ∧ (k, v) ∈ m := by
  obtain ⟨es, hes, -⟩ := Except.bind_eq_ok.mp h
  obtain ⟨r, hr⟩ := insertions_each hes _ henc
  have hpres := hsome r hr
  rw [hx] at hpres
  obtain ⟨v, rfl⟩ := Option.isSome_iff_exists.mp hpres
  exact ⟨v, hr, mem_claimsMap_of_encoder h henc hr hk⟩

end

/-- The composites of a claim set pass as their claim sets are given. -/
def CompositesPass (H : Host) (c : Option CompositeClaim) : Prop :=
  ∀ v, encodeCompositeClaim? H c = .ok (some v) → (Passes v ↔ keysGiven? c)

section
variable {H : Host} {t : CatToken} {m : List (Int64 × Value)}

/-- A composite in the claim map. -/
theorem passes_composite (h : claimsMap (compositeValues H t.composite) t = .ok m)
    {k : Int64} {c : Option CompositeClaim} (hc : CompositesPass H c)
    (henc : (k, fun _ => encodeCompositeClaim? H c) ∈
      claimEncoders (compositeValues H t.composite))
    (hall : ∀ e ∈ m, Passes e.2) (hk : k ∉ t.custom.labels) : keysGiven? c := by
  cases c with
  | none => exact trivial
  | some c =>
    obtain ⟨v, hv, hmem⟩ := mem_claimsMap_of_present h henc
      (fun _ => encodeCompositeClaim?_isSome H) rfl hk
    exact (hc v hv).mp (hall _ hmem)

/-- A claim in the claim map whose value is made of one field. -/
theorem passes_field (h : claimsMap (compositeValues H t.composite) t = .ok m) {k : Int64}
    {enc : CatToken → Encoded} {α : Type} {x : Option α} {g : α → Value} {D : α → Prop}
    (henc : (k, enc) ∈ claimEncoders (compositeValues H t.composite))
    (hfield : enc t = whenSome x fun a => .ok (g a)) (hg : ∀ a, Passes (g a) ↔ D a)
    (hk : isReservedClaimId k = true) (hall : ∀ e ∈ m, Passes e.2) : ∀ a, x = some a → D a := by
  intro a ha
  have hv : enc t = .ok (some (g a)) := by
    rw [hfield, ha]
    rfl
  exact (hg a).mp (hall _ (mem_claimsMap_of_encoder h henc hv (reserved_not_custom hk)))

theorem passes_of_field {α : Type} {x : Option α} {g : α → Value} {D : α → Prop} {v : Value}
    (hv : whenSome x (fun a => .ok (g a)) = .ok (some v)) (hg : ∀ a, Passes (g a) ↔ D a)
    (hD : ∀ a, x = some a → D a) : Passes v := by
  obtain ⟨a, ha, hok⟩ := whenSome_eq_ok.mp hv
  obtain rfl := Except.ok.inj hok
  exact (hg a).mpr (hD a ha)

/-- **The keys of one claim set**, given those of its composites. -/
theorem passes_iff_of_composites (h : claimsMap (compositeValues H t.composite) t = .ok m)
    (hor : CompositesPass H t.composite.orClaim) (hnor : CompositesPass H t.composite.norClaim)
    (hand : CompositesPass H t.composite.andClaim) :
    Passes (claimsValue m) ↔ KeysDistinct t ∧
      (claimOr ∉ t.custom.labels → keysGiven? t.composite.orClaim) ∧
      (claimNor ∉ t.custom.labels → keysGiven? t.composite.norClaim) ∧
      (claimAnd ∉ t.custom.labels → keysGiven? t.composite.andClaim) := by
  have hcatu : (claimCatu, encodeCatu) ∈ claimEncoders (compositeValues H t.composite) := by
    simp [claimEncoders]
  have hcath : (claimCath, encodeCath) ∈ claimEncoders (compositeValues H t.composite) := by
    simp [claimEncoders]
  have hcatif : (claimCatif, encodeCatif) ∈ claimEncoders (compositeValues H t.composite) := by
    simp [claimEncoders]
  have horC : (claimOr, fun _ => encodeCompositeClaim? H t.composite.orClaim) ∈
      claimEncoders (compositeValues H t.composite) := by
    simp [claimEncoders, compositeValues]
  have hnorC : (claimNor, fun _ => encodeCompositeClaim? H t.composite.norClaim) ∈
      claimEncoders (compositeValues H t.composite) := by
    simp [claimEncoders, compositeValues]
  have handC : (claimAnd, fun _ => encodeCompositeClaim? H t.composite.andClaim) ∈
      claimEncoders (compositeValues H t.composite) := by
    simp [claimEncoders, compositeValues]
  rw [passes_claimsValue h]
  constructor
  · rintro ⟨hlabels, hall⟩
    refine ⟨⟨hlabels, passes_field h hcatu rfl passes_catu (by decide) hall,
      passes_field h hcath rfl passes_cath (by decide) hall,
      passes_field h hcatif rfl passes_catif (by decide) hall, ?_⟩,
      passes_composite h hor horC hall, passes_composite h hnor hnorC hall,
      passes_composite h hand handC hall⟩
    intro e he
    exact hall e (((claimsMap_ok h).2 e.1 e.2).mpr (.inl he))
  · rintro ⟨hd, hor', hnor', hand'⟩
    refine ⟨hd.labels, fun ⟨k, v⟩ he => ?_⟩
    rcases ((claimsMap_ok h).2 k v).mp he with hc | ⟨hk, enc, henc, hv⟩
    · exact hd.custom _ hc
    -- Only these six fields can be written with a key given twice.
    by_cases hcond : k ∈ conditionLabels
    · simp only [conditionLabels, List.mem_cons, List.not_mem_nil, or_false] at hcond
      rcases hcond with rfl | rfl | rfl | rfl | rfl | rfl
      · obtain rfl := claimEncoders_unique henc hcatu
        exact passes_of_field hv passes_catu hd.catu
      · obtain rfl := claimEncoders_unique henc hcath
        exact passes_of_field hv passes_cath hd.cath
      · obtain rfl := claimEncoders_unique henc hcatif
        exact passes_of_field hv passes_catif hd.catif
      · obtain rfl := claimEncoders_unique henc horC
        exact (hor v hv).mpr (hor' hk)
      · obtain rfl := claimEncoders_unique henc hnorC
        exact (hnor v hv).mpr (hnor' hk)
      · obtain rfl := claimEncoders_unique henc handC
        exact (hand v hv).mpr (hand' hk)
    · exact passes_of_encoder henc hcond hv

end

/-! ## All claim sets -/

section
variable {H : Host}

mutual
theorem CatToken.passes_iff : (t : CatToken) → {m : List (Int64 × Value)} →
    claimsMap (compositeValues H t.composite) t = .ok m →
    (Passes (claimsValue m) ↔ t.KeysGiven)
  | ⟨core, cat, informational, dpop, request, ⟨orC, norC, andC⟩, moqt, custom⟩, m, h => by
    rw [CatToken.KeysGiven]
    exact passes_iff_of_composites h (compositesPass orC) (compositesPass norC)
      (compositesPass andC)
theorem compositesPass : (c : Option CompositeClaim) → CompositesPass H c
  | none => fun v h => by
    rw [encodeCompositeClaim?] at h
    exact absurd h (by simp)
  | some c => fun v h => by
    rw [encodeCompositeClaim?] at h
    obtain ⟨w, hw, heq⟩ := Except.map_eq_ok.mp h
    obtain rfl := Option.some.inj heq
    rw [keysGiven?]
    exact CompositeClaim.passes_iff c hw
theorem CompositeClaim.passes_iff : (c : CompositeClaim) → {v : Value} →
    encodeCompositeClaim H c = .ok v → (Passes v ↔ c.KeysGiven)
  | ⟨op, claims⟩, v, h => by
    rw [encodeCompositeClaim] at h
    obtain ⟨vs, hvs, rfl⟩ := Except.map_eq_ok.mp h
    rw [CompositeClaim.KeysGiven, passes_array]
    exact allPass_iff claims hvs
theorem ClaimSet.passes_iff : (cs : ClaimSet) → {v : Value} →
    encodeClaimSet H cs = .ok v → (Passes v ↔ cs.KeysGiven)
  | .token t, v, h => by
    rw [encodeClaimSet] at h
    obtain ⟨b, hb, h⟩ := Except.bind_eq_ok.mp h
    obtain ⟨m, hm, hw⟩ := encodePayload_ok hb
    split at h
    · exact absurd h (by simp)
    · rename_i w r hr
      obtain rfl := Except.pure_eq_ok.mp h
      obtain ⟨hread, -⟩ := H.cbor.read_of_write hw hr
      have hback : w.readBack = w := H.cbor.normal_of_read hr
      have hpass : Passes w ↔ Passes (claimsValue m) := by
        rw [Passes, hback, hread]
        rfl
      rw [hpass, ClaimSet.KeysGiven]
      exact CatToken.passes_iff t hm
  | .composite c, v, h => by
    rw [encodeClaimSet] at h
    obtain ⟨w, hw, h⟩ := Except.bind_eq_ok.mp h
    obtain rfl := Except.pure_eq_ok.mp h
    rw [ClaimSet.KeysGiven, passes_map, List.forall_mem_singleton,
      CompositeClaim.passes_iff c hw]
    exact and_iff_right (keysChecked_singleton _)
theorem allPass_iff : (css : List ClaimSet) → {vs : List Value} →
    encodeClaimSets H css = .ok vs → ((∀ v ∈ vs, Passes v) ↔ allKeysGiven css)
  | [], vs, h => by
    rw [encodeClaimSets] at h
    obtain rfl := Except.ok.inj h
    simp [allKeysGiven]
  | cs :: css, vs, h => by
    rw [encodeClaimSets] at h
    obtain ⟨v, hv, h⟩ := Except.bind_eq_ok.mp h
    obtain ⟨vs', hvs, h⟩ := Except.bind_eq_ok.mp h
    obtain rfl := Except.pure_eq_ok.mp h
    rw [List.forall_mem_cons, allKeysGiven, ClaimSet.passes_iff cs hv, allPass_iff css hvs]
end

/-- **The payload of a token passes the ordering check of the decoder at every map** exactly
    when the keys of its claim sets are given once and none of them is negative among
    others.

    The encoder goes through its claims by number, the decoder expects them by encoded key; the two
    orders differ for negative labels, which are encoded behind the others. The maps inside of
    claims are written from lists, in which nothing keeps a key from standing twice. -/
theorem encodePayload_keysChecked_iff {t : CatToken} {b : Bytes} (h : encodePayload H t = .ok b) :
    ∃ v, Denotes b v ∧ (v.ValueMaps KeysChecked ↔ t.KeysGiven) := by
  obtain ⟨m, hm, hw⟩ := encodePayload_ok h
  exact ⟨_, H.cbor.denotes_of_write hw, CatToken.passes_iff t hm⟩

end

/-- A token with an issuer and a custom claim below zero. -/
def privateLabelToken : CatToken :=
  { CatToken.new with
    core := { iss := some "A" }
    custom := CustomClaims.empty.insert (-1) (.integer (.ofI64 7)) (by decide) }

/-- Its payload: the claim below zero stands first. -/
def privateLabelPayload : Bytes := [0xa2, 0x20, 0x07, 0x01, 0x61, 0x41]

theorem encodePayload_privateLabelToken :
    encodePayload .reference privateLabelToken = .ok privateLabelPayload := by
  decide +kernel

theorem encodePayload_keysChecked_iff_privateLabel :
    ∃ v, Denotes privateLabelPayload v ∧ (v.ValueMaps KeysChecked ↔ privateLabelToken.KeysGiven) :=
  encodePayload_keysChecked_iff encodePayload_privateLabelToken

/-- In deterministic order a label below zero stands last. -/
theorem encodePayload_not_keysChecked :
    ¬∀ (H : Host) (t : CatToken) (b : Bytes) (v : Value), encodePayload H t = .ok b →
      Denotes b v → v.ValueMaps KeysChecked := by
  intro h
  let es : List (Value × Value) :=
    [(i64Value (-1), .integer (.ofI64 7)), (i64Value claimIss, .text "A")]
  have hread : Host.reference.cbor.read cborMaxRecursionDepth privateLabelPayload =
      .ok (.map es, []) := rfl
  have hpass := h _ _ _ _ encodePayload_privateLabelToken (Codec.denotes_of_read _ hread)
  have hkeys : es.map Prod.fst = [-1, claimIss].map i64Value := rfl
  have hranks := (keysChecked_labels hkeys).mp (Value.valueMaps_map.mp hpass).1
  revert hranks
  decide

end Cat
