import Cat.Cwt.Written

/-!
# Custom claims and the rest of the token

A custom claim goes into the same map as the claims of the profile. `set_custom_claim` refuses
the labels of the profile, but its list lacks those of the composites: under one of these a
custom claim takes the place of the token's composite. Under any other label the rest of the
token reads as before, wherever the larger payload is read at all (`setCustomClaim_frame_iff`).

Whether it is read is a question of its own, and has an exact answer too. No label below zero
may come to stand among others, the value must be one the decoder takes, and there must be room
for it. `CustomFits` is the list, and is about the claim that is added and about sums; that a
token without the claim was decodable is given.

The sums are compared as sums: the cost of the larger token is that of the smaller one plus the
cost of the claim, or minus the one it replaces (`readCost_insert`, `readCost_with`). Both
cases, a new label and one already taken, are brought to the same form through `claimsWithout`,
the claims of the token without that label.
-/

set_option autoImplicit false

namespace Cat

open Cbor DecodeCounters

/-- `CatToken::set_custom_claim`. -/
def CatToken.setCustomClaim (t : CatToken) (key : Int64) (value : Value) :
    Except CatError CatToken :=
  if h : isReservedClaimId key = false then .ok { t with custom := t.custom.insert key value h }
  else .error (.invalidClaimValue
    s!"Claim ID {key.toInt} is reserved and cannot be set as a custom claim")

/-- The claims of the profile are the same in both tokens. -/
structure SameStandard (s s' : CatToken) : Prop where
  core : s.core = s'.core
  cat : s.cat = s'.cat
  informational : s.informational = s'.informational
  dpop : s.dpop = s'.dpop
  request : s.request = s'.request
  composite : s.composite = s'.composite
  moqt : s.moqt = s'.moqt

attribute [ext] CoreClaims CatClaims InformationalClaims DpopClaims RequestClaims CompositeClaims
  MoqtClaims

/-- Two tokens with the same claims of the profile have the same fields for them. -/
theorem sameStandard_of_has {s s' : CatToken}
    (h : ∀ d : DecodedClaim, d.isCustom = false → (s.Has d ↔ s'.Has d)) : SameStandard s s' := by
  -- a field is told by the values it may have
  have field {α : Type} {o o' : Option α} (g : α → DecodedClaim) (hg : ∀ x, (g x).isCustom = false)
      (hs : ∀ x, s.Has (g x) ↔ o = some x) (hs' : ∀ x, s'.Has (g x) ↔ o' = some x) : o = o' :=
    Option.ext fun x => (hs x).symm.trans ((h (g x) (hg x)).trans (hs' x))
  constructor
  · apply CoreClaims.ext
    · exact field .iss (fun _ => rfl) (fun _ => Iff.rfl) fun _ => Iff.rfl
    · exact field .aud (fun _ => rfl) (fun _ => Iff.rfl) fun _ => Iff.rfl
    · exact field .exp (fun _ => rfl) (fun _ => Iff.rfl) fun _ => Iff.rfl
    · exact field .nbf (fun _ => rfl) (fun _ => Iff.rfl) fun _ => Iff.rfl
    · exact field .cti (fun _ => rfl) (fun _ => Iff.rfl) fun _ => Iff.rfl
  · apply CatClaims.ext
    · exact field .catreplay (fun _ => rfl) (fun _ => Iff.rfl) fun _ => Iff.rfl
    · exact field .catpor (fun _ => rfl) (fun _ => Iff.rfl) fun _ => Iff.rfl
    · exact field .catv (fun _ => rfl) (fun _ => Iff.rfl) fun _ => Iff.rfl
    · exact field .catnip (fun _ => rfl) (fun _ => Iff.rfl) fun _ => Iff.rfl
    · exact field .catu (fun _ => rfl) (fun _ => Iff.rfl) fun _ => Iff.rfl
    · exact field .catm (fun _ => rfl) (fun _ => Iff.rfl) fun _ => Iff.rfl
    · exact field .catalpn (fun _ => rfl) (fun _ => Iff.rfl) fun _ => Iff.rfl
    · exact field .cath (fun _ => rfl) (fun _ => Iff.rfl) fun _ => Iff.rfl
    · exact field .catgeoiso3166 (fun _ => rfl) (fun _ => Iff.rfl) fun _ => Iff.rfl
    · exact field (fun x => .catgeocoord (some x)) (fun _ => rfl) (fun _ => Iff.rfl) fun _ => Iff.rfl
    · exact field (fun x => .geohash (some x)) (fun _ => rfl) (fun _ => Iff.rfl) fun _ => Iff.rfl
    · exact field .catgeoalt (fun _ => rfl) (fun _ => Iff.rfl) fun _ => Iff.rfl
    · exact field .cattpk (fun _ => rfl) (fun _ => Iff.rfl) fun _ => Iff.rfl
  · apply InformationalClaims.ext
    · exact field .sub (fun _ => rfl) (fun _ => Iff.rfl) fun _ => Iff.rfl
    · exact field .iat (fun _ => rfl) (fun _ => Iff.rfl) fun _ => Iff.rfl
    · exact field (fun x => .catifdata (some x)) (fun _ => rfl) (fun _ => Iff.rfl) fun _ => Iff.rfl
  · apply DpopClaims.ext
    · exact field (fun x => .cnf (some x)) (fun _ => rfl) (fun _ => Iff.rfl) fun _ => Iff.rfl
    · exact field .catdpop (fun _ => rfl) (fun _ => Iff.rfl) fun _ => Iff.rfl
  · apply RequestClaims.ext
    · exact field (fun x => .catif (some x)) (fun _ => rfl) (fun _ => Iff.rfl) fun _ => Iff.rfl
    · exact field (fun x => .catr (some x)) (fun _ => rfl) (fun _ => Iff.rfl) fun _ => Iff.rfl
  · apply CompositeClaims.ext
    · exact field .orClaim (fun _ => rfl) (fun _ => Iff.rfl) fun _ => Iff.rfl
    · exact field .norClaim (fun _ => rfl) (fun _ => Iff.rfl) fun _ => Iff.rfl
    · exact field .andClaim (fun _ => rfl) (fun _ => Iff.rfl) fun _ => Iff.rfl
  · apply MoqtClaims.ext
    · exact field .moqt (fun _ => rfl) (fun _ => Iff.rfl) fun _ => Iff.rfl
    · exact field .moqtReval (fun _ => rfl) (fun _ => Iff.rfl) fun _ => Iff.rfl

/-! ## The claims of the larger token

A token with one more custom claim has its claims and the new one, unless the label belongs to a
composite: then the new claim stands in for that.
-/

section
variable {H : Host} {limits : CwtLimits} {t t₂ : CatToken} {key : Int64} {v : Value}

/-- The call succeeds for a label that is not reserved, and inserts. -/
theorem setCustomClaim_ok (h : t.setCustomClaim key v = .ok t₂) :
    ∃ hid, t₂ = { t with custom := t.custom.insert key v hid } := by
  unfold CatToken.setCustomClaim at h
  split at h
  · rename_i hid
    exact ⟨hid, (Except.ok.inj h).symm⟩
  · exact absurd h (by simp)

/-- A label that is neither reserved nor a composite's is none of the profile. -/
theorem not_mem_claimLabels {key : Int64} (hid : isReservedClaimId key = false)
    (hcomp : isCompositeKey (i64Value key) = false) : key ∉ claimLabels := by
  intro h
  rw [← Bool.not_eq_true, isCompositeKey_i64Value] at hcomp
  have hall : claimLabels.all (fun k => isReservedClaimId k || k == claimOr || k == claimNor ||
      k == claimAnd) = true := by decide
  have hkey := List.all_eq_true.mp hall key h
  simp only [Bool.or_eq_true, beq_iff_eq, or_assoc] at hkey
  rcases hkey with hres | hkey
  · rw [hid] at hres
    exact absurd hres Bool.false_ne_true
  · exact hcomp hkey

/-- Every claim that is no custom claim has a label of the profile. -/
theorem label_mem_claimLabels {d : DecodedClaim} (h : d.isCustom = false) :
    d.label ∈ claimLabels := by
  cases d with
  | custom id hid v => exact absurd h.symm Bool.false_ne_true
  | _ => simp only [DecodedClaim.label]; decide

theorem mem_labels_insert {c : CustomClaims} {key id : Int64} {v : Value}
    (hid : isReservedClaimId key = false) :
    id ∈ (c.insert key v hid).labels ↔ id ∈ c.labels ∨ id = key := by
  have hmem (c : CustomClaims) : id ∈ c.labels ↔ ∃ x, (id, x) ∈ c.entries := by
    unfold CustomClaims.labels
    rw [List.mem_map]
    constructor
    · rintro ⟨⟨k, x⟩, he, rfl⟩
      exact ⟨x, he⟩
    · rintro ⟨x, he⟩
      exact ⟨(id, x), he, rfl⟩
  rw [hmem, hmem]
  simp only [mem_insert]
  constructor
  · rintro ⟨x, ⟨he, -⟩ | ⟨rfl, -⟩⟩
    · exact .inl ⟨x, he⟩
    · exact .inr rfl
  · intro h
    by_cases hk : id = key
    · exact ⟨v, .inr ⟨hk, rfl⟩⟩
    · rcases h with ⟨x, he⟩ | hk'
      · exact ⟨x, .inl ⟨he, hk⟩⟩
      · exact absurd hk' hk

/-- A new custom claim takes the place of what was under its label. -/
theorem mem_claims_insert (hid : isReservedClaimId key = false) (hkey : key ∉ claimLabels)
    {d : DecodedClaim} :
    d ∈ CatToken.claims { t with custom := t.custom.insert key v hid } ↔
      d = .custom key hid v ∨ d ∈ t.claims ∧ d.label ≠ key := by
  rw [mem_claims, mem_claims]
  by_cases hcustom : d.isCustom = true
  · cases d with
    | custom id hid' x =>
      show (id, x) ∈ (t.custom.insert key v hid).entries ∧ _ ↔ _
      rw [mem_insert]
      constructor
      · rintro ⟨⟨he, hne⟩ | ⟨rfl, rfl⟩, -, -⟩
        · exact .inr ⟨⟨he, rfl, fun h => absurd h.symm Bool.false_ne_true⟩, hne⟩
        · exact .inl rfl
      · rintro (heq | ⟨⟨he, -, -⟩, hne⟩)
        · cases heq
          exact ⟨.inr ⟨rfl, rfl⟩, rfl, fun h => absurd h.symm Bool.false_ne_true⟩
        · exact ⟨.inl ⟨he, hne⟩, rfl, fun h => absurd h.symm Bool.false_ne_true⟩
    | _ => exact absurd hcustom Bool.false_ne_true
  · rw [Bool.not_eq_true] at hcustom
    have hlabel : d.label ≠ key := fun heq => hkey (heq ▸ label_mem_claimLabels hcustom)
    have hhas : CatToken.Has { t with custom := t.custom.insert key v hid } d ↔ t.Has d := by
      cases d with
      | custom id hid' x => exact absurd hcustom.symm Bool.false_ne_true
      | catgeocoord x | geohash x | catifdata x | cnf x | catif x | catr x => cases x <;> exact Iff.rfl
      | _ => exact Iff.rfl
    have hne : d ≠ .custom key hid v := by
      rintro rfl
      exact Bool.false_ne_true hcustom.symm
    show _ ∧ _ ∧ (_ → d.label ∉ (t.custom.insert key v hid).labels) ↔ _
    rw [hhas, mem_labels_insert hid]
    constructor
    · rintro ⟨h, hw, hk⟩
      exact .inr ⟨⟨h, hw, fun _ hmem => hk hcustom (.inl hmem)⟩, hlabel⟩
    · rintro (heq | ⟨⟨h, hw, hk⟩, -⟩)
      · exact absurd heq hne
      · refine ⟨h, hw, fun _ hmem => ?_⟩
        rcases hmem with hmem | heq
        · exact hk hcustom hmem
        · exact hlabel heq

/-- The claims of a token without the one under a label. -/
def CatToken.claimsWithout (t : CatToken) (key : Int64) : List DecodedClaim :=
  t.claims.filter fun d => d.label != key

theorem claims_insert_perm (hid : isReservedClaimId key = false) (hkey : key ∉ claimLabels) :
    (CatToken.claims { t with custom := t.custom.insert key v hid }).Perm
      (.custom key hid v :: t.claimsWithout key) := by
  have hnd : (DecodedClaim.custom key hid v :: t.claimsWithout key).Nodup := by
    refine List.nodup_cons.mpr ⟨fun hmem => ?_, (claims_nodup t).of_map.filter _⟩
    have hne := (List.mem_filter.mp hmem).2
    rw [bne_iff_ne] at hne
    exact hne rfl
  refine (List.perm_ext_iff_of_nodup (claims_nodup _).of_map hnd).mpr fun d => ?_
  unfold CatToken.claimsWithout
  rw [mem_claims_insert hid hkey, List.mem_cons, List.mem_filter, bne_iff_ne]

/-- Without a custom claim under the label, none is left out. -/
theorem claimsWithout_eq (hkey : key ∉ claimLabels) (hnew : key ∉ t.custom.labels) :
    t.claimsWithout key = t.claims := by
  unfold CatToken.claimsWithout
  rw [List.filter_eq_self]
  intro d hd
  rw [bne_iff_ne]
  rintro rfl
  cases hcustom : d.isCustom with
  | false => exact hkey (label_mem_claimLabels hcustom)
  | true =>
    cases d with
    | custom id hid x => exact hnew (List.mem_map_of_mem (mem_claims.mp hd).1)
    | _ => exact absurd hcustom Bool.false_ne_true

/-- And with one, it is this one. -/
theorem claims_perm_claimsWithout (hid : isReservedClaimId key = false) {x : Value}
    (hold : (key, x) ∈ t.custom.entries) :
    t.claims.Perm (.custom key hid x :: t.claimsWithout key) := by
  have hmem : DecodedClaim.custom key hid x ∈ t.claims :=
    mem_claims.mpr ⟨hold, rfl, fun h => absurd h.symm Bool.false_ne_true⟩
  have hnd : (DecodedClaim.custom key hid x :: t.claimsWithout key).Nodup := by
    refine List.nodup_cons.mpr ⟨fun hmem => ?_, (claims_nodup t).of_map.filter _⟩
    have hne := (List.mem_filter.mp hmem).2
    rw [bne_iff_ne] at hne
    exact hne rfl
  refine (List.perm_ext_iff_of_nodup (claims_nodup t).of_map hnd).mpr fun d => ?_
  unfold CatToken.claimsWithout
  rw [List.mem_cons, List.mem_filter, bne_iff_ne]
  constructor
  · intro hd
    by_cases hlabel : d.label = key
    · exact .inl (List.inj_on_of_nodup_map (claims_nodup t) hd hmem hlabel)
    · exact .inr ⟨hd, hlabel⟩
  · rintro (rfl | ⟨hd, -⟩)
    · exact hmem
    · exact hd

/-! ## What is read

A custom value is kept as it is read back, whatever it is, and no limit but that on their number
counts it.
-/

/-- A custom claim is read as it is read back, and costs nothing. -/
theorem reads_custom (hid : isReservedClaimId key = false)
    (hcomp : isCompositeKey (i64Value key) = false) {d : DecodedClaim} {c : DecodeCounters} :
    ReadsAs H limits (.custom key hid v) d c ↔ d = .custom key hid v.readBack ∧ c = 0 := by
  have h : ReadsAs H limits (.custom key hid v) (.custom key hid v.readBack) 0 :=
    .of_form rfl ⟨rfl, rfl⟩ rfl hcomp (within_zero limits)
  constructor
  · exact fun hd => hd.unique h
  · rintro ⟨rfl, rfl⟩
    exact h

/-! ## Whether it is read

The larger payload has to be in order, within the size and not too deep. All of this is told
from the smaller one and the new value.
-/

theorem mem_labels_update (hid : isReservedClaimId key = false) {id : Int64} :
    id ∈ CatToken.labels { t with custom := t.custom.insert key v hid } ↔ id ∈ key :: t.labels := by
  show id ∈ _ ++ (t.custom.insert key v hid).labels ↔ id ∈ key :: (_ ++ _)
  rw [List.mem_append, List.mem_cons, List.mem_append, mem_labels_insert hid]
  constructor
  · rintro (h | h | h)
    · exact .inr (.inl h)
    · exact .inr (.inr h)
    · exact .inl h
  · rintro (h | h | h)
    · exact .inr (.inr h)
    · exact .inl h
    · exact .inr (.inl h)

theorem NegativeAlone.congr {as bs : List Int64} (h : ∀ id, id ∈ as ↔ id ∈ bs) :
    NegativeAlone as ↔ NegativeAlone bs := by
  unfold NegativeAlone
  simp only [h]

theorem standardClaims_labels (t : CatToken) :
    t.standardClaims.map Prod.fst = claimLabels := rfl

/-- The labels of the profile are not negative. -/
theorem negativeAlone_of_no_custom {t : CatToken} (h : t.custom.entries = []) :
    NegativeAlone t.labels := by
  have hnonneg : claimLabels.all (fun k => 0 ≤ k.toInt) = true := by decide
  intro a ha hneg
  have ha' : a ∈ claimLabels := by
    rw [CatToken.labels, CustomClaims.labels, h, List.map_nil, List.append_nil] at ha
    obtain ⟨e, he, rfl⟩ := List.mem_map.mp ha
    rw [← standardClaims_labels t]
    exact List.mem_map_of_mem (List.mem_of_mem_filter he)
  exact absurd hneg (Int.not_lt.mpr (of_decide_eq_true (List.all_eq_true.mp hnonneg a ha')))

theorem keysGiven_iff : t.KeysGiven ↔ KeysDistinct t ∧
    (claimOr ∉ t.custom.labels → keysGiven? t.composite.orClaim) ∧
    (claimNor ∉ t.custom.labels → keysGiven? t.composite.norClaim) ∧
    (claimAnd ∉ t.custom.labels → keysGiven? t.composite.andClaim) := by
  obtain ⟨core, cat, informational, dpop, request, ⟨orC, norC, andC⟩, moqt, custom⟩ := t
  rw [CatToken.KeysGiven]

/-- The condition on keys for the larger token, from that for the smaller one: one label more, and
    the maps of the new value. -/
theorem keysGiven_insert (hid : isReservedClaimId key = false) (h : t.KeysGiven) :
    CatToken.KeysGiven { t with custom := t.custom.insert key v hid } ↔
      NegativeAlone (key :: t.labels) ∧ v.readBack.ValueMaps KeysChecked := by
  have hlabels := NegativeAlone.congr fun _ => mem_labels_update (t := t) (v := v) hid
  obtain ⟨hk, hor, hnor, hand⟩ := keysGiven_iff.mp h
  rw [keysGiven_iff]
  constructor
  · rintro ⟨hk', -⟩
    refine ⟨hlabels.mp hk'.labels, hk'.custom (key, v) ?_⟩
    exact (mem_insert hid).mpr (.inr ⟨rfl, rfl⟩)
  · rintro ⟨hneg, hmaps⟩
    have hleft {id : Int64} (hid' : id ∉ (t.custom.insert key v hid).labels) :
        id ∉ t.custom.labels := fun hmem => hid' ((mem_labels_insert hid).mpr (.inl hmem))
    refine ⟨⟨hlabels.mpr hneg, hk.catu, hk.cath, hk.catif, ?_⟩, fun h => hor (hleft h),
      fun h => hnor (hleft h), fun h => hand (hleft h)⟩
    rintro ⟨id, x⟩ he
    rcases (mem_insert hid).mp he with ⟨he, -⟩ | ⟨-, rfl⟩
    · exact hk.custom _ he
    · exact hmaps

/-- What is asked of a custom claim for the token to be read with it: that its label is not a
    composite's, that no label below zero comes to stand among others, that its value is one
    the decoder takes, and that there is room for it. -/
structure CustomFits (H : Host) (limits : CwtLimits) (t : CatToken) (key : Int64) (v : Value)
    (b : Bytes) (c : DecodeCounters) : Prop where
  label : key ≠ claimOr ∧ key ≠ claimNor ∧ key ≠ claimAnd
  alone : NegativeAlone (key :: t.labels)
  maps : v.readBack.ValueMaps KeysChecked
  depth_lt : walkDepth v.readBack < limits.maxNestingDepth
  readable : ∃ r, H.cbor.read cborMaxRecursionDepth b = .ok r
  size_le : b.length ≤ limits.maxCborPayloadSize
  room : key ∈ t.custom.labels ∨ c.totalItems < limits.maxTotalItems ∧
    t.claims.countP DecodedClaim.staysCustom < limits.maxCustomClaims

theorem isCompositeKey_false {key : Int64} : isCompositeKey (i64Value key) = false ↔
    key ≠ claimOr ∧ key ≠ claimNor ∧ key ≠ claimAnd := by
  rw [← Bool.not_eq_true, isCompositeKey_i64Value, not_or, not_or]

/-- The sums over the claims with the new one, against those without. -/
theorem readCost_insert (hid : isReservedClaimId key = false)
    (hcomp : isCompositeKey (i64Value key) = false) :
    CatToken.readCost H limits { t with custom := t.custom.insert key v hid } =
      itemCost 1 + ((t.claimsWithout key).map fun d => itemCost 1 + d.readCost H limits).sum := by
  have hperm := claims_insert_perm (t := t) (v := v) hid (not_mem_claimLabels hid hcomp)
  rw [CatToken.readCost, (hperm.map _).sum_eq, List.map_cons, List.sum_cons,
    ((reads_custom hid hcomp).mpr ⟨rfl, rfl⟩).cost_eq, add_zero]

theorem readCost_with (hid : isReservedClaimId key = false)
    (hcomp : isCompositeKey (i64Value key) = false) {x : Value}
    (hold : (key, x) ∈ t.custom.entries) :
    t.readCost H limits =
      itemCost 1 + ((t.claimsWithout key).map fun d => itemCost 1 + d.readCost H limits).sum := by
  rw [CatToken.readCost, ((claims_perm_claimsWithout hid hold).map _).sum_eq, List.map_cons,
    List.sum_cons, ((reads_custom hid hcomp).mpr ⟨rfl, rfl⟩).cost_eq, add_zero]

theorem staysCustom_custom (hid : isReservedClaimId key = false)
    (hcomp : isCompositeKey (i64Value key) = false) (x : Value) :
    (DecodedClaim.custom key hid x).staysCustom = true := by
  show (true && !isCompositeKey (i64Value key)) = true
  rw [hcomp]
  rfl

/-- **A token with one more custom claim is decodable** when the claim fits. -/
theorem decodable_insert_iff (hid : isReservedClaimId key = false)
    (hcomp : isCompositeKey (i64Value key) = false) {b b' : Bytes}
    (hok : Decodable H limits t b) :
    Decodable H limits { t with custom := t.custom.insert key v hid } b' ↔
      CustomFits H limits t key v b' (t.readCost H limits) := by
  have hkey := not_mem_claimLabels hid hcomp
  have hmem {d : DecodedClaim} := mem_claims_insert (t := t) (v := v) hid hkey (d := d)
  have hperm := claims_insert_perm (t := t) (v := v) hid hkey
  have hcount : (CatToken.claims { t with custom := t.custom.insert key v hid }).countP
      DecodedClaim.staysCustom = (t.claimsWithout key).countP DecodedClaim.staysCustom + 1 := by
    rw [hperm.countP_eq, List.countP_cons, if_pos (staysCustom_custom hid hcomp v)]
  have hcost : CatToken.readCost H limits { t with custom := t.custom.insert key v hid } = _ :=
    readCost_insert hid hcomp
  constructor
  · intro hok'
    obtain ⟨hneg, hmaps⟩ := (keysGiven_insert hid hok.keys).mp hok'.keys
    refine ⟨isCompositeKey_false.mp hcomp, hneg, hmaps, ?_, hok'.readable, hok'.size_le, ?_⟩
    · exact hok'.depth_le _ (hmem.mpr (.inl rfl)) v rfl
    · by_cases hold : key ∈ t.custom.labels
      · exact .inl hold
      · have hroom := hok'.room
        have hitems := hok'.within.items
        rw [hcount, claimsWithout_eq hkey hold] at hroom
        rw [hcost, claimsWithout_eq hkey hold] at hitems
        refine .inr ⟨?_, hroom⟩
        have hone : (itemCost 1).totalItems = 1 := rfl
        rw [totalItems_add, hone] at hitems
        exact Nat.lt_of_lt_of_le (Nat.lt_add_of_pos_left Nat.one_pos) hitems
  · intro hfits
    refine ⟨hfits.size_le, hfits.readable, fun d hd w hw => ?_,
      (keysGiven_insert hid hok.keys).mpr ⟨hfits.alone, hfits.maps⟩, fun d hd => ?_, ?_, ?_⟩
    · rcases hmem.mp hd with rfl | ⟨hd, -⟩
      · obtain rfl := Option.some.inj (Except.ok.inj hw)
        exact hfits.depth_lt
      · exact hok.depth_le d hd w hw
    · rcases hmem.mp hd with rfl | ⟨hd, -⟩
      · exact ⟨_, _, (reads_custom hid hcomp).mpr ⟨rfl, rfl⟩⟩
      · exact hok.reads d hd
    · rw [hcount]
      rcases hfits.room with hold | ⟨-, hroom⟩
      · -- the old claim under the label gives up its room
        obtain ⟨⟨k, x⟩, he, rfl⟩ := List.mem_map.mp hold
        have hroom := hok.room
        rw [(claims_perm_claimsWithout hid he).countP_eq, List.countP_cons,
          if_pos (staysCustom_custom hid hcomp x)] at hroom
        exact hroom
      · exact Nat.succ_le_of_lt (Nat.lt_of_le_of_lt (List.filter_sublist.countP_le) hroom)
    · rw [hcost]
      by_cases hold : key ∈ t.custom.labels
      · obtain ⟨⟨k, x⟩, he, rfl⟩ := List.mem_map.mp hold
        rw [← readCost_with hid hcomp he]
        exact hok.within
      · obtain ⟨hitems, -⟩ := hfits.room.resolve_left hold
        rw [claimsWithout_eq hkey hold]
        -- A new label costs one item and one place among the custom claims.
        have hone : (itemCost 1).totalItems = 1 := rfl
        have hwithin := hok.within
        refine ⟨?_, ?_, ?_, ?_⟩
        · rw [totalItems_add, hone]
          rw [CatToken.readCost] at hitems
          omega
        · exact (Nat.zero_add _).le.trans hwithin.strings
        · exact (Nat.zero_add _).le.trans hwithin.regexes
        · exact (Nat.zero_add _).le.trans hwithin.uris

/-- **A custom claim leaves the rest of the token alone**: with it the token decodes to the same
    claims of the profile, and its label is none of theirs, exactly when the claim fits.

    A label is refused if it is on a list of reserved ones. The three labels of the composites are
    not on it, and custom claims are inserted last, so there a custom claim takes the place of a
    composite. The rest of the condition is the order of the labels and room: for the value, for one
    more item and for one more claim. -/
theorem setCustomClaim_frame_iff {b b' : Bytes} {s : CatToken} {c : DecodeCounters}
    (hset : t.setCustomClaim key v = .ok t₂) (h : encodePayload H t = .ok b)
    (hdec : decodePayloadWithLimitsAndCounters H limits b {} = .ok (s, c))
    (h' : encodePayload H t₂ = .ok b') :
    ((∃ s', decodePayloadWithLimits H limits b' = .ok s' ∧ SameStandard s s') ∧
        key ∉ claimLabels) ↔ CustomFits H limits t key v b' c := by
  obtain ⟨hid, rfl⟩ := setCustomClaim_ok hset
  obtain ⟨hok, rfl, hhas⟩ := decodeCounters_written h hdec
  constructor
  · rintro ⟨⟨s', hdec', -⟩, hkey⟩
    have hcomp : isCompositeKey (i64Value key) = false := by
      refine isCompositeKey_false.mpr ⟨?_, ?_, ?_⟩ <;>
      · rintro rfl
        exact hkey (by decide)
    exact (decodable_insert_iff hid hcomp hok).mp (decode_written_ok h' hdec').1
  · intro hfits
    have hcomp := isCompositeKey_false.mpr hfits.label
    have hkey := not_mem_claimLabels hid hcomp
    obtain ⟨s', hs'⟩ := ((decodable_insert_iff hid hcomp hok).mpr hfits).decode h'
    refine ⟨⟨s', hs', sameStandard_of_has fun d hd => ?_⟩, hkey⟩
    rw [hhas, (decode_written_ok h' hs').2]
    refine and_congr_left' ⟨?_, ?_⟩
    · rintro ⟨x, hx, cost, hr⟩
      refine ⟨x, (mem_claims_insert hid hkey).mpr (.inr ⟨hx, ?_⟩), cost, hr⟩
      -- what is read as a claim of the profile has a label of the profile
      rintro rfl
      rw [← hr.label] at hkey
      exact hkey (label_mem_claimLabels hd)
    · rintro ⟨x, hx, cost, hr⟩
      rcases (mem_claims_insert hid hkey).mp hx with rfl | ⟨hx, -⟩
      · obtain ⟨rfl, -⟩ := (reads_custom hid hcomp).mp hr
        exact absurd hd.symm Bool.false_ne_true
      · exact ⟨x, hx, cost, hr⟩

end

/-- A token that must not be used where the issuer is `A`. -/
def notIssuerA : CatToken :=
  { CatToken.new with
    composite := ⟨none, some ⟨.nor, [.token { CatToken.new with core := { iss := some "A" } }]⟩, none⟩ }

def notIssuerAPayload : Bytes := [0xa1, 0x19, 0x01, 0x45, 0x81, 0xa1, 0x01, 0x61, 0x41]

/-- The same with an empty array under a private label. -/
def notIssuerAMarked : CatToken :=
  { notIssuerA with custom := CustomClaims.empty.insert 1000 (.array []) (by decide) }

def notIssuerAMarkedPayload : Bytes :=
  [0xa2, 0x19, 0x01, 0x45, 0x81, 0xa1, 0x01, 0x61, 0x41, 0x19, 0x03, 0xe8, 0x80]

theorem setCustomClaim_frame_iff_marked :
    ∃ s c, decodePayloadWithLimitsAndCounters .reference .default notIssuerAPayload {} = .ok (s, c) ∧
      (((∃ s', decodePayloadWithLimits .reference .default notIssuerAMarkedPayload = .ok s' ∧
          SameStandard s s') ∧ 1000 ∉ claimLabels) ↔
        CustomFits .reference .default notIssuerA 1000 (.array []) notIssuerAMarkedPayload c) := by
  have hok : (decodePayloadWithLimitsAndCounters .reference .default notIssuerAPayload {}).isOk =
      true := by decide +kernel
  cases hdec : decodePayloadWithLimitsAndCounters .reference .default notIssuerAPayload {} with
  | error e =>
    rw [hdec] at hok
    cases hok
  | ok x =>
    have hset : notIssuerA.setCustomClaim 1000 (.array []) = .ok notIssuerAMarked := rfl
    exact ⟨x.1, x.2, rfl, setCustomClaim_frame_iff hset (by decide +kernel) hdec
      (by decide +kernel)⟩

/-- The same with an empty array under the label of the `nor`. -/
def notIssuerAMasked : CatToken :=
  { notIssuerA with custom := CustomClaims.empty.insert claimNor (.array []) (by decide) }

/-- The empty array takes the place of the `nor`, which then refuses no issuer. -/
theorem setCustomClaim_not_frame :
    ¬∀ (H : Host) (t t₂ s : CatToken) (key : Int64) (v : Value) (b b' : Bytes),
      t.setCustomClaim key v = .ok t₂ → encodePayload H t = .ok b → decodePayload H b = .ok s →
      encodePayload H t₂ = .ok b' → ∃ s', decodePayload H b' = .ok s' ∧ SameStandard s s' := by
  intro h
  have hlength (b : Bytes) (s : CatToken) (hs : decodePayload .reference b = .ok s) :
      (decodePayload .reference b).map (fun t => t.composite.norClaim.map (·.claims.length)) =
        .ok (s.composite.norClaim.map (·.claims.length)) := by
    rw [hs]
    rfl
  have hbefore : (decodePayload .reference notIssuerAPayload).map
      (fun t => t.composite.norClaim.map (·.claims.length)) = .ok (some 1) := by decide +kernel
  have hafter : (decodePayload .reference [0xa1, 0x19, 0x01, 0x45, 0x80]).map
      (fun t => t.composite.norClaim.map (·.claims.length)) = .ok (some 0) := by decide +kernel
  cases hdec : decodePayload .reference notIssuerAPayload with
  | error e =>
    rw [hdec] at hbefore
    cases hbefore
  | ok s =>
    obtain ⟨s', hs', hsame⟩ := h .reference notIssuerA notIssuerAMasked s claimNor (.array [])
      notIssuerAPayload [0xa1, 0x19, 0x01, 0x45, 0x80] rfl (by decide +kernel) hdec
      (by decide +kernel)
    have hone := (hlength _ s hdec).symm.trans hbefore
    have hzero := (hlength _ s' hs').symm.trans hafter
    rw [← hsame.composite] at hzero
    rw [hone] at hzero
    cases hzero

end Cat
