import Cat.Cwt.Fields

/-!
# Payloads that are accepted

The way back from `DecodesTo`: a payload whose keys are in order and whose values have the forms
of their claims is decoded, as long as what the claims cost stays within the limits
(`decodePayloadWith_of`). A claim that `Accepts` a value does so wherever it stands, so entries
are put together without looking at the counters in between.

The way there, from a decoded payload to what it was made of, is in `DecodeSpec`, and it holds
with no condition. The way back needs one, because the decoder stops at the first count that is
over a limit, also if the rest of the payload would have been in order. With costs that add up
it is enough to look at the total: a sum within the limits has all its partial sums within them.
-/

set_option autoImplicit false

namespace Cat

open Cbor DecodeCounters

section
variable {H : Host} {limits : CwtLimits} {composite : CompositeDecoder}

/-! ## One claim -/

theorem isReservedClaimId_cases {id : Int64} (h : isReservedClaimId id = false) :
    ∀ k ∈ reservedClaimIds, id ≠ k := by
  rintro k hk rfl
  rw [isReservedClaimId, List.contains_iff_mem.mpr hk] at h
  exact absurd h (by simp)

/-- The arm of the labels outside the profile. -/
theorem decodeClaim_custom {n : Nat} {id : Int64} {v : Value} (h : isReservedClaimId id = false)
    (hc : isCompositeKey (i64Value id) = false) :
    decodeClaim H limits composite n id v = (do
      if n ≥ limits.maxCustomClaims then
        throw (.invalidClaimValue s!"Too many custom claims (max {limits.maxCustomClaims})")
      return .custom id h v) := by
  have hne := isReservedClaimId_cases h
  rw [← Bool.not_eq_true, isCompositeKey_i64Value, not_or, not_or] at hc
  unfold decodeClaim
  iterate 27 rw [if_neg (hne _ (by decide))]
  rw [if_neg hc.1, if_neg hc.2.1, if_neg hc.2.2, dif_pos h]

/-- The value is decoded to the claim at this cost, wherever it stands; a custom claim if
    there is room for one more. -/
def Accepts (H : Host) (limits : CwtLimits) (composite : CompositeDecoder) (v : Value)
    (d : DecodedClaim) (c : DecodeCounters) : Prop :=
  ∀ n s, (isReservedClaimId d.label = false → n < limits.maxCustomClaims) →
    Within limits (s + c) → decodeClaim H limits composite n d.label v s = .ok (d, s + c)

theorem accepts_arm {α : Type} {R : α → DecodeCounters → Prop} {m : Decode α}
    {f : α → DecodedClaim} {v : Value} {x : α} {c : DecodeCounters} (hm : Counts limits m R)
    (harm : ∀ n, decodeClaim H limits composite n (f x).label v = m >>= fun a => pure (f a))
    (hx : R x c) : Accepts H limits composite v (f x) c := by
  intro n s _ hs
  rw [harm]
  exact StateT.bind_eq_ok.mpr ⟨x, s + c, hm.complete hx hs, StateT.pure_eq_ok.mpr ⟨rfl, rfl⟩⟩

/-- **A value in the form of a claim is accepted.** -/
theorem ClaimForm.accepts {v : Value} {d : DecodedClaim} {c : DecodeCounters}
    (h : ClaimForm H limits v d c) (hd : isCompositeKey (i64Value d.label) = false) :
    Accepts H limits composite v d c := by
  cases d with
  | iss x => exact accepts_arm (f := .iss) (decodeIss_counts v) (fun _ => rfl) h
  | aud x => exact accepts_arm (f := .aud) (decodeAud_counts v) (fun _ => rfl) h
  | exp x => exact accepts_arm (f := .exp) (decodeNumericDate_counts H _ v) (fun _ => rfl) h
  | nbf x => exact accepts_arm (f := .nbf) (decodeNumericDate_counts H _ v) (fun _ => rfl) h
  | cti x => exact accepts_arm (f := .cti) (decodeCti_counts v) (fun _ => rfl) h
  | catreplay x => exact accepts_arm (f := .catreplay) (decodeCatreplay_counts v) (fun _ => rfl) h
  | catpor x => exact accepts_arm (f := .catpor) (decodeCatpor_counts H v) (fun _ => rfl) h
  | catv x => exact accepts_arm (f := .catv) (decodeCatv_counts v) (fun _ => rfl) h
  | catnip x => exact accepts_arm (f := .catnip) (decodeCatnip_counts v) (fun _ => rfl) h
  | catu x => exact accepts_arm (f := .catu) (decodeCatu_counts v) (fun _ => rfl) h
  | catm x => exact accepts_arm (f := .catm) (decodeCatm_counts v) (fun _ => rfl) h
  | catalpn x => exact accepts_arm (f := .catalpn) (decodeCatalpn_counts v) (fun _ => rfl) h
  | cath x => exact accepts_arm (f := .cath) (decodeCath_counts v) (fun _ => rfl) h
  | catgeoiso3166 x =>
    exact accepts_arm (f := .catgeoiso3166) (decodeCatgeoiso3166_counts v) (fun _ => rfl) h
  | catgeocoord x =>
    exact accepts_arm (f := .catgeocoord) (decodeCatgeocoord_counts H v) (fun _ => rfl) h
  | geohash x => exact accepts_arm (f := .geohash) (decodeGeohash_counts v) (fun _ => rfl) h
  | catgeoalt x => exact accepts_arm (f := .catgeoalt) (decodeCatgeoalt_counts v) (fun _ => rfl) h
  | cattpk x => exact accepts_arm (f := .cattpk) (decodeCattpk_counts v) (fun _ => rfl) h
  | sub x => exact accepts_arm (f := .sub) (decodeSub_counts v) (fun _ => rfl) h
  | iat x => exact accepts_arm (f := .iat) (decodeNumericDate_counts H _ v) (fun _ => rfl) h
  | catifdata x => exact accepts_arm (f := .catifdata) (decodeCatifdata_counts v) (fun _ => rfl) h
  | cnf x => exact accepts_arm (f := .cnf) (decodeCnf_counts v) (fun _ => rfl) h
  | catdpop x => exact accepts_arm (f := .catdpop) (decodeCatdpop_counts v) (fun _ => rfl) h
  | catif x => exact accepts_arm (f := .catif) (decodeCatif_counts H v) (fun _ => rfl) h
  | catr x => exact accepts_arm (f := .catr) (decodeCatr_counts v) (fun _ => rfl) h
  | moqt x => exact accepts_arm (f := .moqt) (decodeMoqt_counts v) (fun _ => rfl) h
  | moqtReval x => exact accepts_arm (f := .moqtReval) (decodeMoqtReval_counts v) (fun _ => rfl) h
  | custom id hid x =>
    obtain ⟨rfl, rfl⟩ := h
    intro n s hn _
    have hn := Nat.not_le.mpr (hn hid)
    show decodeClaim H limits composite n id x s = _
    rw [decodeClaim_custom hid hd, StateT.guard_eq_ok]
    exact ⟨hn, StateT.pure_eq_ok.mpr ⟨rfl, (add_zero s).symm⟩⟩
  | orClaim x =>
    have hno : isCompositeKey (i64Value claimOr) = true := by decide
    exact absurd (hno.symm.trans hd) (by simp)
  | norClaim x =>
    have hno : isCompositeKey (i64Value claimNor) = true := by decide
    exact absurd (hno.symm.trans hd) (by simp)
  | andClaim x =>
    have hno : isCompositeKey (i64Value claimAnd) = true := by decide
    exact absurd (hno.symm.trans hd) (by simp)

/-! ## A claim map -/

/-- Entries with the claims they are decoded to and what these cost. -/
def AcceptsEntries (H : Host) (limits : CwtLimits) (composite : CompositeDecoder)
    (es : List (Value × Value)) (xs : List (DecodedClaim × DecodeCounters)) : Prop :=
  List.Forall₂ (fun e x => e.1 = i64Value x.1.label ∧ Accepts H limits composite e.2 x.1 x.2) es xs

/-- An item and its claim, for every entry. -/
def entriesCost (xs : List (DecodedClaim × DecodeCounters)) : DecodeCounters :=
  (xs.map fun x => itemCost 1 + x.2).sum

def customClaims (xs : List (DecodedClaim × DecodeCounters)) : Nat :=
  xs.countP fun x => !isReservedClaimId x.1.label

/-- Claims that cost nothing count as items alone. -/
theorem entriesCost_free {xs : List (DecodedClaim × DecodeCounters)} (h : ∀ x ∈ xs, x.2 = 0) :
    entriesCost xs = itemCost xs.length := by
  induction xs with
  | nil => rfl
  | cons x xs ih =>
    rw [List.forall_mem_cons] at h
    rw [entriesCost, List.map_cons, List.sum_cons, ← entriesCost, ih h.2, h.1, add_zero]
    apply ext_counts
    · simp [itemCost, Nat.add_comm]
    · rfl
    · rfl
    · rfl

theorem within_itemCost {n : Nat} (h : n ≤ limits.maxTotalItems) : Within limits (itemCost n) :=
  ⟨h, Nat.zero_le _, Nat.zero_le _, Nat.zero_le _⟩

theorem custom_len_assign (t : CatToken) (d : DecodedClaim) :
    (t.assign d).custom.len ≤ t.custom.len + if isReservedClaimId d.label then 0 else 1 := by
  have hother : (t.assign d).custom = t.custom →
      (t.assign d).custom.len ≤ t.custom.len + if isReservedClaimId d.label then 0 else 1 :=
    fun h => by rw [h]; exact Nat.le_add_right _ _
  cases d with
  | custom id h v =>
    have hlen : (t.custom.entries.filter fun e => e.1 != id).length ≤ t.custom.entries.length :=
      List.length_filter_le _ _
    show (t.custom.insert id v h).entries.length ≤ t.custom.entries.length + _
    rw [CustomClaims.insert, List.length_append, List.length_singleton]
    have : (if isReservedClaimId (DecodedClaim.custom id h v).label then 0 else 1) = 1 :=
      if_neg (by rw [show (DecodedClaim.custom id h v).label = id from rfl, h]; simp)
    omega
  | catgeocoord x | geohash x | catifdata x | cnf x | catif x | catr x =>
    cases x <;> exact hother rfl
  | _ => exact hother rfl

/-- One entry of a claim map, in front of the others. -/
theorem decodeEntries_cons {t : CatToken} {d : DecodedClaim} {v : Value}
    {es : List (Value × Value)} {s c : DecodeCounters} (hs : Within limits (s + itemCost 1))
    (hdec : decodeClaim H limits composite t.custom.len d.label v (s + itemCost 1) =
      .ok (d, s + itemCost 1 + c)) :
    decodeEntries H limits composite t ((i64Value d.label, v) :: es) s =
      decodeEntries H limits composite (t.assign d) es (s + itemCost 1 + c) := by
  have hcount : countItem limits s = .ok ((), s + itemCost 1) := Counts.countItem.complete rfl hs
  have hid : decodeClaimId (i64Value d.label) = .ok d.label := decodeClaimId_eq_ok.mpr rfl
  rw [decodeEntries]
  show Except.bind (countItem limits s) _ = _
  rw [hcount]
  show Except.bind ((StateT.lift (decodeClaimId (i64Value d.label)) : Decode Int64) _) _ = _
  rw [hid]
  show Except.bind (decodeClaim H limits composite t.custom.len d.label v (s + itemCost 1)) _ = _
  rw [hdec]
  rfl

/-- **A claim map is decoded** when its entries are accepted and their costs fit. -/
theorem decodeEntries_of {es : List (Value × Value)} {xs : List (DecodedClaim × DecodeCounters)}
    (h : AcceptsEntries H limits composite es xs) : ∀ {t : CatToken} {s : DecodeCounters},
      t.custom.len + customClaims xs ≤ limits.maxCustomClaims →
      Within limits (s + entriesCost xs) →
      decodeEntries H limits composite t es s =
        .ok ((xs.map Prod.fst).foldl CatToken.assign t, s + entriesCost xs) := by
  induction h with
  | nil =>
    intro t s _ _
    show (Except.ok (t, s) : Except CatError (CatToken × DecodeCounters)) = .ok (t, s + 0)
    rw [add_zero]
  | @cons e x es xs hx _ ih =>
    obtain ⟨k, v⟩ := e
    obtain ⟨d, c⟩ := x
    obtain ⟨hk, hacc⟩ := hx
    obtain rfl : k = i64Value d.label := hk
    intro t s hroom hs
    have hcost : s + entriesCost ((d, c) :: xs) = s + itemCost 1 + c + entriesCost xs := by
      rw [entriesCost, List.map_cons, List.sum_cons, ← entriesCost]
      simp only [add_assoc]
    have hcustom : customClaims ((d, c) :: xs) =
        customClaims xs + if isReservedClaimId d.label then 0 else 1 := by
      rw [customClaims, List.countP_cons, ← customClaims]
      cases isReservedClaimId d.label <;> rfl
    rw [hcost] at hs ⊢
    rw [hcustom] at hroom
    rw [decodeEntries_cons hs.of_add.of_add]
    · refine ih ?_ hs
      have := custom_len_assign t d
      omega
    · refine hacc _ _ (fun hres => ?_) hs.of_add
      rw [hres] at hroom
      simp only [Bool.false_eq_true, if_false] at hroom
      omega

theorem readClaimsMap_eq_ok {b : Bytes} {es : List (Value × Value)} :
    readClaimsMap H limits b = .ok es ↔ b.length ≤ limits.maxCborPayloadSize ∧
      H.cbor.read cborMaxRecursionDepth b = .ok (.map es, []) ∧
      validateCborMapOrderingLimited es limits.maxNestingDepth = .ok () := by
  constructor
  · exact readClaimsMap_ok
  · rintro ⟨hsize, hread, hord⟩
    refine Except.guard_eq_ok.mpr ⟨not_lt.mpr hsize, ?_⟩
    rw [hread]
    show ((validateCborMapOrderingLimited es limits.maxNestingDepth) >>= fun _ => pure es) = _
    exact Except.bind_eq_ok.mpr ⟨(), hord, rfl⟩

/-- **A payload is decoded** when its map is read, is in order and within the nesting limit,
    and its entries are accepted. -/
theorem decodePayloadWith_of {b : Bytes} {es : List (Value × Value)}
    {xs : List (DecodedClaim × DecodeCounters)} {s : DecodeCounters}
    (hsize : b.length ≤ limits.maxCborPayloadSize)
    (hread : H.cbor.read cborMaxRecursionDepth b = .ok (.map es, []))
    (hdepth : walkDepth (.map es) ≤ limits.maxNestingDepth)
    (hkeys : (Value.map es).ValueMaps KeysChecked) (hes : AcceptsEntries H limits composite es xs)
    (hroom : customClaims xs ≤ limits.maxCustomClaims)
    (hs : Within limits (s + entriesCost xs)) :
    decodePayloadWith H limits composite b s =
      .ok ((xs.map Prod.fst).foldl CatToken.assign .new, s + entriesCost xs) := by
  have hord := validateCborMapOrderingLimited_eq_ok.mpr ⟨hdepth, hkeys⟩
  refine StateT.bind_eq_ok.mpr ⟨es, s, ?_, ?_⟩
  · exact StateT.lift_eq_ok.mpr ⟨readClaimsMap_eq_ok.mpr ⟨hsize, hread, hord⟩, rfl⟩
  · refine decodeEntries_of hes ?_ hs
    show 0 + customClaims xs ≤ _
    rwa [Nat.zero_add]

end

end Cat
