import Cat.Cwt.RecordForms
import Cat.Cwt.Sets
import Cat.Lib.FiniteMaps

/-!
# What a decoded token holds

The token of a payload holds just the claims its entries decode to (`DecodesTo.has_iff`), and
each claim has one of the accepted forms (`ClaimForm`). So a field of the token and the entry
under its label say the same thing, whichever field it is.

A token is a record and a payload is a list of entries. To say something about all claims at
once, the record is seen as a list too: `Has` is whether a token holds a claim, stated for any
`DecodedClaim`, and it is decided by the one field that the claim is about. With it, the
statements about the single fields are one statement about claims.

The last part lifts this from a token to all the claim sets in it. What a claim set meets
exactly when its map does, all claim sets of a token meet exactly when all maps of the payload
do; results about ranges and about keys at every depth are this one at a property of their own.
-/

set_option autoImplicit false

namespace Cat

open Cbor DecodeCounters

/-! ## The claims of a token -/

/-- Whether the claim assigns anything. -/
def DecodedClaim.IsSet : DecodedClaim → Prop
  | .catgeocoord none | .geohash none | .catifdata none | .cnf none | .catif none
  | .catr none => False
  | _ => True

/-- The field that a claim assigns has what the claim says. -/
def CatToken.Has (t : CatToken) : DecodedClaim → Prop
  | .iss x => t.core.iss = some x
  | .aud x => t.core.aud = some x
  | .exp x => t.core.exp = some x
  | .nbf x => t.core.nbf = some x
  | .cti x => t.core.cti = some x
  | .catreplay x => t.cat.catreplay = some x
  | .catpor x => t.cat.catpor = some x
  | .catv x => t.cat.catv = some x
  | .catnip x => t.cat.catnip = some x
  | .catu x => t.cat.catu = some x
  | .catm x => t.cat.catm = some x
  | .catalpn x => t.cat.catalpn = some x
  | .cath x => t.cat.cath = some x
  | .catgeoiso3166 x => t.cat.catgeoiso3166 = some x
  | .catgeocoord (some x) => t.cat.catgeocoord = some x
  | .geohash (some x) => t.cat.geohash = some x
  | .catgeoalt x => t.cat.catgeoalt = some x
  | .cattpk x => t.cat.cattpk = some x
  | .sub x => t.informational.sub = some x
  | .iat x => t.informational.iat = some x
  | .catifdata (some x) => t.informational.catifdata = some x
  | .cnf (some x) => t.dpop.cnf = some x
  | .catdpop x => t.dpop.catdpop = some x
  | .catif (some x) => t.request.catif = some x
  | .catr (some x) => t.request.catr = some x
  | .moqt x => t.moqt.moqt = some x
  | .moqtReval x => t.moqt.moqtReval = some x
  | .orClaim x => t.composite.orClaim = some x
  | .norClaim x => t.composite.norClaim = some x
  | .andClaim x => t.composite.andClaim = some x
  | .custom id _ x => (id, x) ∈ t.custom.entries
  | .catgeocoord none | .geohash none | .catifdata none | .cnf none | .catif none
  | .catr none => False

theorem mem_insert {c : CustomClaims} {id id' : Int64} {v v' : Value}
    (h : isReservedClaimId id' = false) :
    (id, v) ∈ (c.insert id' v' h).entries ↔
      ((id, v) ∈ c.entries ∧ id ≠ id') ∨ (id = id' ∧ v = v') := by
  show _ ∈ c.entries.filter _ ++ [_] ↔ _
  rw [List.mem_append, List.mem_filter, List.mem_singleton, Prod.mk.injEq, bne_iff_ne]

theorem not_has_new (d : DecodedClaim) : ¬CatToken.new.Has d := by
  cases d with
  | custom id h v => exact List.not_mem_nil
  | catgeocoord x | geohash x | catifdata x | cnf x | catif x | catr x =>
    cases x <;> simp [CatToken.Has, CatToken.new]
  | _ => simp [CatToken.Has, CatToken.new, CompositeClaims.default]

theorem isSet_of_has {t : CatToken} {d : DecodedClaim} (h : t.Has d) : d.IsSet := by
  cases d with
  | catgeocoord x | geohash x | catifdata x | cnf x | catif x | catr x =>
    cases x with
    | none => exact h
    | some x => trivial
  | _ => trivial

theorem has_assign_self {t : CatToken} {d : DecodedClaim} (h : d.IsSet) : (t.assign d).Has d := by
  cases d with
  | catgeocoord x | geohash x | catifdata x | cnf x | catif x | catr x =>
    cases x with
    | none => exact h.elim
    | some x => rfl
  | custom id hid v => exact (mem_insert hid).mpr (.inr ⟨rfl, rfl⟩)
  | _ => rfl

/-- A claim that the assignment of another brings about is that other one. -/
theorem eq_of_has_assign {t : CatToken} {d d' : DecodedClaim} (h : (t.assign d').Has d)
    (hn : ¬t.Has d) : d = d' := by
  unfold CatToken.Has CatToken.assign at h
  split at h <;> first
    | exact h.elim
    | (split at h <;> first
        | exact absurd h hn
        | (obtain rfl := Option.some.inj h; rfl)
        | skip)
  rename_i hid _
  rcases (mem_insert hid).mp h with ⟨h, -⟩ | ⟨rfl, rfl⟩
  · exact absurd h hn
  · rfl

/-- Claims under other labels leave a claim as it is. -/
theorem has_assign_other {t : CatToken} {d d' : DecodedClaim} (h : d'.label ≠ d.label) :
    (t.assign d').Has d ↔ t.Has d := by
  unfold CatToken.Has CatToken.assign
  split <;> first
    | exact Iff.rfl
    | (split <;> first
        | exact Iff.rfl
        | exact absurd rfl h
        | skip)
  rename_i hid _
  refine (mem_insert hid).trans ⟨?_, fun hmem => .inl ⟨hmem, fun heq => h heq.symm⟩⟩
  rintro (⟨hmem, -⟩ | ⟨rfl, -⟩)
  · exact hmem
  · exact absurd rfl h

/-- A token as a record of claims. -/
def tokenRecord : Record CatToken DecodedClaim Int64 where
  assign := CatToken.assign
  label := DecodedClaim.label
  Has := CatToken.Has
  IsSet := DecodedClaim.IsSet
  isSet_of_has := isSet_of_has
  has_assign_self := has_assign_self
  has_assign_other := has_assign_other
  eq_of_has_assign := eq_of_has_assign

/-! ## Claims and fields -/

section
variable {H : Host} {limits : CwtLimits} {composite : CompositeDecoder}

/-- **A decoded token holds the claims its entries decode to, and no others.** -/
theorem DecodesTo.has_iff {b : Bytes} {es : List (Value × Value)} {ds : List DecodedClaim}
    {t : CatToken} (h : DecodesTo H limits composite b es ds t) {d : DecodedClaim} :
    t.Has d ↔ d ∈ ds ∧ d.IsSet := by
  rw [h.token_eq]
  exact tokenRecord.has_foldl h.nodup not_has_new

/-- The form of a claim's value, and what it costs. Composite claims have their own account
    in `Cat.Cwt.Sets`. -/
def ClaimForm (H : Host) (limits : CwtLimits) (v : Value) : DecodedClaim → DecodeCounters → Prop
  | .iss x | .sub x => TextForm limits v x
  | .aud x => AudForm limits v x
  | .exp x | .nbf x | .iat x => fun c => DateForm v x ∧ c = 0
  | .cti x | .cattpk x => fun c => v = .bytes x ∧ c = 0
  | .catreplay x => fun c => v = u32Value x.toU32 ∧ c = 0
  | .catpor x => fun c => CatporForm v x ∧ c = 0
  | .catv x => fun c => v = u32Value x ∧ c = 0
  | .catnip x => fun c => CatnipForm limits v x ∧ c = itemCost x.length
  | .catu x => fun c => v = .map (x.map uriRuleEntry) ∧ c = (x.map uriRuleCost).sum
  | .catm x => fun c => (v = textArray x ∧ x.length ≤ 50) ∧ c = itemCost x.length
  | .catalpn x => fun c => (v = .array (x.map .bytes) ∧ x.length ≤ 50) ∧ c = itemCost x.length
  | .cath x => fun c => v = .map (x.map headerRuleEntry) ∧ c = (x.map headerRuleCost).sum
  | .catgeoiso3166 x => fun c => v = textArray x ∧ c = itemCost x.length
  | .catgeocoord x => CatgeocoordForm v x
  | .geohash x => fun c => GeohashForm v x ∧ c = 0
  | .catgeoalt x => fun c => CatgeoaltForm v x ∧ c = 0
  | .catifdata x => TextsForm v x
  | .cnf x => fun c => CnfForm v x ∧ c = 0
  | .catdpop x => fun c => CatdpopForm v x ∧ c = 0
  | .catif x => CatifForm H v x
  | .catr x => CatrForm v x
  | .moqt x => fun c => MoqtForm limits v x ∧ c = 0
  | .moqtReval x => fun c => (numericValue v = some x ∧ x.Ordinary) ∧ c = 0
  | .orClaim _ | .norClaim _ | .andClaim _ => fun _ => True
  | .custom _ _ x => fun c => x = v ∧ c = 0

/-- **A claim that is no composite has its form, and moves the counters by what it costs.** -/
theorem DecodedFrom.form {n : Nat} {v : Value} {s s' : DecodeCounters} {d : DecodedClaim}
    (h : DecodedFrom H limits composite n v s s' d)
    (hd : isCompositeKey (i64Value d.label) = false) :
    ∃ c, ClaimForm H limits v d c ∧ s' = s + c ∧ (Within limits s → Within limits s') := by
  rw [← Bool.not_eq_true, isCompositeKey_i64Value] at hd
  cases d with
  | iss x => exact (decodeIss_counts v).sound h
  | aud x => exact (decodeAud_counts v).sound h
  | exp x => exact (decodeNumericDate_counts H _ v).sound h
  | nbf x => exact (decodeNumericDate_counts H _ v).sound h
  | cti x => exact (decodeCti_counts v).sound h
  | catreplay x => exact (decodeCatreplay_counts v).sound h
  | catpor x => exact (decodeCatpor_counts H v).sound h
  | catv x => exact (decodeCatv_counts v).sound h
  | catnip x => exact (decodeCatnip_counts v).sound h
  | catu x => exact (decodeCatu_counts v).sound h
  | catm x => exact (decodeCatm_counts v).sound h
  | catalpn x => exact (decodeCatalpn_counts v).sound h
  | cath x => exact (decodeCath_counts v).sound h
  | catgeoiso3166 x => exact (decodeCatgeoiso3166_counts v).sound h
  | catgeocoord x => exact (decodeCatgeocoord_counts H v).sound h
  | geohash x => exact (decodeGeohash_counts v).sound h
  | catgeoalt x => exact (decodeCatgeoalt_counts v).sound h
  | cattpk x => exact (decodeCattpk_counts v).sound h
  | sub x => exact (decodeSub_counts v).sound h
  | iat x => exact (decodeNumericDate_counts H _ v).sound h
  | catifdata x => exact (decodeCatifdata_counts v).sound h
  | cnf x => exact (decodeCnf_counts v).sound h
  | catdpop x => exact (decodeCatdpop_counts v).sound h
  | catif x => exact (decodeCatif_counts H v).sound h
  | catr x => exact (decodeCatr_counts v).sound h
  | moqt x => exact (decodeMoqt_counts v).sound h
  | moqtReval x => exact (decodeMoqtReval_counts v).sound h
  | custom id hid x =>
    obtain ⟨rfl, rfl, -⟩ := h
    exact ⟨0, ⟨rfl, rfl⟩, (add_zero _).symm, fun hs => hs⟩
  | orClaim x => exact absurd (.inl rfl) hd
  | norClaim x => exact absurd (.inr (.inl rfl)) hd
  | andClaim x => exact absurd (.inr (.inr rfl)) hd

/-- The entry a claim of the token comes from. -/
theorem DecodesTo.entry_of_has {b : Bytes} {es : List (Value × Value)} {ds : List DecodedClaim}
    {t : CatToken} (h : DecodesTo H limits composite b es ds t) {d : DecodedClaim}
    (hd : isCompositeKey (i64Value d.label) = false) (hhas : t.Has d) :
    ∃ v c, (i64Value d.label, v) ∈ es ∧ ClaimForm H limits v d c := by
  obtain ⟨v, hv, n, s, s', hdec⟩ := h.mem_entries (h.has_iff.mp hhas).1
  obtain ⟨c, hc, -⟩ := (decodeClaim_ok hdec).2.form hd
  exact ⟨v, c, hv, hc⟩

/-- The claim an entry brings about, by the arm of the match on its label. -/
theorem DecodesTo.arm {α : Type} {R : α → DecodeCounters → Prop} {m : Decode α} {b : Bytes}
    {es : List (Value × Value)} {ds : List DecodedClaim} {t : CatToken} {id : Int64} {v : Value}
    (h : DecodesTo H limits composite b es ds t) (f : α → DecodedClaim) (hm : Counts limits m R)
    (harm : ∀ n, decodeClaim H limits composite n id v = m >>= fun a => pure (f a))
    (hv : (i64Value id, v) ∈ es) : ∃ a c, R a c ∧ ((f a).IsSet → t.Has (f a)) := by
  obtain ⟨d, hd, -, n, s, s', hdec⟩ := h.mem_claims hv
  rw [harm] at hdec
  obtain ⟨a, s₁, ha, hp⟩ := StateT.bind_eq_ok.mp hdec
  obtain ⟨rfl, -⟩ := StateT.pure_eq_ok.mp hp
  obtain ⟨c, hc, -⟩ := hm.sound ha
  exact ⟨a, c, hc, fun hset => h.has_iff.mpr ⟨hd, hset⟩⟩

/-! ## All claim sets of a payload -/

/-- The meter that measures nothing. -/
def Meter.nothing (H : Host) (limits : CwtLimits) : Meter H limits where
  reading _ := 0
  weigh _ := 0
  countItem _ := rfl
  claim _ _ := rfl
  composite _ := rfl

/-- **What a claim set meets exactly when its map does, all claim sets of a token meet
    exactly when all maps of the payload do.** -/
theorem decodePayload_forall {P : CatToken → Prop} {Q : List (Value × Value) → Prop} {b : Bytes}
    {t : CatToken} (hPQ : ∀ set : DecodedSet H limits, P set.token ↔ Q set.entries)
    (h : decodePayloadWithLimits H limits b = .ok t) :
    ∃ es, H.cbor.read cborMaxRecursionDepth b = .ok (.map es, []) ∧
      (t.Throughout (fun _ => true) P ↔ ∀ m ∈ claimMaps es, Q m) := by
  obtain ⟨es, s, hread, -, sets, hmaps, htoks, -⟩ := decodePayload_sets (.nothing H limits) h
  refine ⟨es, hread, ?_⟩
  rw [t.throughout_iff_claimSets, ← htoks, ← hmaps, List.forall_mem_map, List.forall_mem_map]
  exact forall_congr' fun set => imp_congr_right fun _ => hPQ set

end

end Cat
