import Cat.Cwt.Costs
import Mathlib.Data.List.ReduceOption

/-!
# The claims of an encoded payload

A token is encoded claim by claim: the claims it has (`CatToken.claims`), each under its label
as its encoder writes it (`DecodedClaim.encode`), sorted by label (`encodePayload_claims`). So
what a payload decodes to can be told claim by claim: `decode_written_ok` and
`decode_written_iff` say which claims the decoded token holds and when there is one.

The encoders are functions of the whole token, each of which looks at one field.
`DecodedClaim.encode` is the same encoder as a function of one claim, and that the table of
encoders does nothing else for a token than this for its claims is proved by going through the
table once. From there on a token is a list of claims, on both sides of the wire.

`Decodable` collects when a written payload is read: sizes and nesting within the limits, keys
in order, every claim one that the decoder takes, and costs that fit together. Each of the
conditions is on the token. `decode_written_iff` has them as exactly what is needed, so a result
about round trips elsewhere has to deal with the claims it is about and cites the rest.
-/

set_option autoImplicit false

namespace Cat

open Cbor DecodeCounters

/-! ## One claim

A table of encoders on one side and a list of optional claims on the other, entry by entry the
same. The table is the source's; the list is the token. Once they are known to correspond the
table is not needed any more.
-/

/-- What a claim is encoded as: what its encoder makes of a token with this claim alone. -/
def DecodedClaim.encode (H : Host) (d : DecodedClaim) : Encoded :=
  let t := CatToken.new.assign d
  match d with
  | .iss _ => encodeIss t
  | .aud _ => encodeAud t
  | .exp _ => encodeExp t
  | .nbf _ => encodeNbf t
  | .cti _ => encodeCti t
  | .catreplay _ => encodeCatreplay t
  | .catpor _ => encodeCatpor t
  | .catv _ => encodeCatv t
  | .catnip _ => encodeCatnip t
  | .catu _ => encodeCatu t
  | .catm _ => encodeCatm t
  | .catalpn _ => encodeCatalpn t
  | .cath _ => encodeCath t
  | .catgeoiso3166 _ => encodeCatgeoiso3166 t
  | .catgeocoord _ => encodeCatgeocoord t
  | .geohash _ => encodeGeohash t
  | .catgeoalt _ => encodeCatgeoalt t
  | .cattpk _ => encodeCattpk t
  | .sub _ => encodeSub t
  | .iat _ => encodeIat t
  | .catifdata _ => encodeCatifdata t
  | .cnf _ => encodeCnf t
  | .catdpop _ => encodeCatdpop t
  | .catif _ => encodeCatif t
  | .catr _ => encodeCatr t
  | .moqt _ => encodeMoqt t
  | .moqtReval _ => encodeMoqtReval t
  | .orClaim c | .norClaim c | .andClaim c => (encodeCompositeClaim H c).map some
  | .custom _ _ v => .ok (some v)

/-- Whether a claim is written: a confirmation and DPoP settings with nothing in them are
    not. -/
def DecodedClaim.isWritten : DecodedClaim → Bool
  | .cnf (some c) => c.ckt.isSome || !c.jkt.isEmpty
  | .catdpop s => s.window.isSome || s.honorJti.isSome || s.crit.isSome
  | _ => true

/-- The claims of the profile a token may have, each with what it has of it. -/
def CatToken.standard (t : CatToken) : List (Option DecodedClaim) :=
  [t.core.iss.map .iss, t.core.aud.map .aud, t.core.exp.map .exp, t.core.nbf.map .nbf,
    t.core.cti.map .cti, t.cat.catreplay.map .catreplay, t.cat.catpor.map .catpor,
    t.cat.catv.map .catv, t.cat.catnip.map .catnip, t.cat.catu.map .catu, t.cat.catm.map .catm,
    t.cat.catalpn.map .catalpn, t.cat.cath.map .cath, t.cat.catgeoiso3166.map .catgeoiso3166,
    t.cat.catgeocoord.map fun x => .catgeocoord (some x),
    t.cat.geohash.map fun x => .geohash (some x), t.cat.catgeoalt.map .catgeoalt,
    t.cat.cattpk.map .cattpk, t.informational.sub.map .sub, t.informational.iat.map .iat,
    t.informational.catifdata.map fun x => .catifdata (some x),
    t.dpop.cnf.map fun x => .cnf (some x), t.dpop.catdpop.map .catdpop,
    t.request.catif.map fun x => .catif (some x), t.request.catr.map fun x => .catr (some x),
    t.moqt.moqt.map .moqt, t.moqt.moqtReval.map .moqtReval, t.composite.orClaim.map .orClaim,
    t.composite.norClaim.map .norClaim, t.composite.andClaim.map .andClaim]

section
variable {H : Host} {t : CatToken}

/-- What is encoded of a claim that may be missing. -/
def encodeIfAny (H : Host) : Option DecodedClaim → Encoded
  | none => .ok none
  | some d => d.encode H

/-- An encoder, and the claim it encodes: of a token it makes what it makes of its claim. -/
structure Encodes (H : Host) (t : CatToken) (x : Int64 × (CatToken → Encoded))
    (o : Option DecodedClaim) : Prop where
  eq : x.2 t = encodeIfAny H o
  label : ∀ d ∈ o, d.label = x.1
  has : ∀ d ∈ o, t.Has d
  isSome : ∀ d ∈ o, ∀ r, d.encode H = .ok r → r.isSome = d.isWritten

theorem encodes_of {α : Type} {k : Int64} {enc : CatToken → Encoded} {x : Option α}
    {g : α → DecodedClaim} (hnone : x = none → enc t = .ok none)
    (hsome : ∀ a, x = some a → enc t = (g a).encode H) (hlabel : ∀ a, (g a).label = k)
    (hhas : ∀ a, x = some a → t.Has (g a))
    (hw : ∀ a, x = some a → ∀ r, enc t = .ok r → r.isSome = (g a).isWritten) :
    Encodes H t (k, enc) (x.map g) := by
  cases x with
  | none => exact ⟨hnone rfl, by simp, by simp, by simp⟩
  | some a =>
    refine ⟨hsome a rfl, fun d hd => ?_, fun d hd => ?_, fun d hd r hr => ?_⟩
    · obtain rfl := Option.some.inj hd
      exact hlabel a
    · obtain rfl := Option.some.inj hd
      exact hhas a rfl
    · obtain rfl := Option.some.inj hd
      exact hw a rfl r ((hsome a rfl).trans hr)

/-- A claim that is encoded whenever it is present. -/
theorem encodes_whenSome {α : Type} {k : Int64} {x : Option α} {f : α → Except Failure Value}
    {enc : CatToken → Encoded} {g : α → DecodedClaim} (henc : enc t = whenSome x f)
    (hsome : ∀ a, (g a).encode H = (f a).map some) (hlabel : ∀ a, (g a).label = k)
    (hhas : ∀ a, x = some a → t.Has (g a)) (hw : ∀ a, (g a).isWritten = true) :
    Encodes H t (k, enc) (x.map g) := by
  refine encodes_of (fun hx => ?_) (fun a hx => ?_) hlabel hhas fun a hx r hr => ?_
  · rw [henc, hx]
    rfl
  · rw [henc, hx, hsome]
    rfl
  · rw [henc] at hr
    rw [whenSome_isSome hr, hx, hw]
    rfl

theorem encodes_cnf (H : Host) (t : CatToken) :
    Encodes H t (claimCnf, encodeCnf) (t.dpop.cnf.map fun x => .cnf (some x)) := by
  refine encodes_of (fun hx => ?_) (fun c hx => ?_) (fun _ => rfl) (fun _ h => h) fun c hx r hr => ?_
  · rw [encodeCnf, hx]
  · rw [encodeCnf, hx]
    rfl
  · rw [encodeCnf_isSome hr, hx]
    rfl

theorem encodes_catdpop (H : Host) (t : CatToken) :
    Encodes H t (claimCatdpop, encodeCatdpop) (t.dpop.catdpop.map .catdpop) := by
  refine encodes_of (fun hx => ?_) (fun c hx => ?_) (fun _ => rfl) (fun _ h => h) fun c hx r hr => ?_
  · rw [encodeCatdpop, hx]
  · rw [encodeCatdpop, hx]
    rfl
  · rw [encodeCatdpop_isSome hr, hx]
    rfl

theorem encodes_composite {k : Int64} {x : Option CompositeClaim}
    {g : CompositeClaim → DecodedClaim} (hlabel : ∀ c, (g c).label = k)
    (henc : ∀ c, (g c).encode H = (encodeCompositeClaim H c).map some)
    (hhas : ∀ c, x = some c → t.Has (g c)) (hw : ∀ c, (g c).isWritten = true) :
    Encodes H t (k, fun _ => encodeCompositeClaim? H x) (x.map g) := by
  refine encodes_of (fun hx => ?_) (fun c hx => ?_) hlabel hhas fun c hx r hr => ?_
  · rw [hx, encodeCompositeClaim?]
  · rw [hx, encodeCompositeClaim?, henc]
  · rw [encodeCompositeClaim?_isSome H hr, hx, hw]
    rfl

/-- **The encoders and the claims of the profile**, in the same order. -/
theorem claimEncoders_standard (H : Host) (t : CatToken) :
    List.Forall₂ (Encodes H t) (claimEncoders (compositeValues H t.composite)) t.standard := by
  unfold claimEncoders CatToken.standard
  repeat' refine List.Forall₂.cons ?_ ?_
  all_goals first
    | exact List.Forall₂.nil
    | exact encodes_whenSome rfl (fun _ => rfl) (fun _ => rfl) (fun _ h => h) fun _ => rfl
    | exact encodes_cnf H t
    | exact encodes_catdpop H t
    | exact encodes_composite (fun _ => rfl) (fun _ => rfl) (fun _ h => h) fun _ => rfl

/-! ## The claims of a token

A custom claim under the label of a composite replaces it in the map, so it takes that composite
out of the claims of the token. All other claims stand side by side.
-/

/-- The custom claims of a token. -/
def CustomClaims.claims (c : CustomClaims) : List DecodedClaim :=
  c.entries.attach.map fun e => .custom e.1.1 (c.unreserved e.1 e.2) e.1.2

/-- The claims of a token that are written: those of the profile whose label no custom claim
    has taken, and the custom ones. -/
def CatToken.claims (t : CatToken) : List DecodedClaim :=
  (t.standard.reduceOption.filter fun d => d.isWritten && decide (d.label ∉ t.custom.labels)) ++
    t.custom.claims

theorem mem_standard {d : DecodedClaim} :
    some d ∈ t.standard ↔ t.Has d ∧ d.isCustom = false := by
  constructor
  · intro h
    obtain ⟨x, -, hx⟩ := (claimEncoders_standard .reference t).exists_of_mem_right h
    refine ⟨hx.has d rfl, ?_⟩
    cases d with
    | custom id hid v => exact absurd h (by simp [CatToken.standard])
    | _ => rfl
  · rintro ⟨h, hcustom⟩
    cases d with
    | custom id hid v => exact absurd hcustom (by simp [DecodedClaim.isCustom])
    | catgeocoord x | geohash x | catifdata x | cnf x | catif x | catr x =>
      cases x with
      | none => exact h.elim
      | some x =>
        simp only [CatToken.Has] at h
        simp [CatToken.standard, h]
    | _ =>
      simp only [CatToken.Has] at h
      simp [CatToken.standard, h]

theorem mem_custom_claims {c : CustomClaims} {d : DecodedClaim} :
    d ∈ c.claims ↔ ∃ id h v, d = .custom id h v ∧ (id, v) ∈ c.entries := by
  unfold CustomClaims.claims
  rw [List.mem_map]
  constructor
  · rintro ⟨⟨⟨id, v⟩, he⟩, -, rfl⟩
    exact ⟨id, _, v, rfl, he⟩
  · rintro ⟨id, h, v, rfl, he⟩
    exact ⟨⟨(id, v), he⟩, List.mem_attach _ _, rfl⟩

/-- **The claims of a token** are those it has, if they are written and no custom claim has
    taken their label. -/
theorem mem_claims {d : DecodedClaim} :
    d ∈ t.claims ↔ t.Has d ∧ d.isWritten = true ∧
      (d.isCustom = false → d.label ∉ t.custom.labels) := by
  unfold CatToken.claims
  rw [List.mem_append, List.mem_filter, List.reduceOption_mem_iff, mem_standard,
    mem_custom_claims, Bool.and_eq_true, decide_eq_true_iff]
  constructor
  · rintro (⟨⟨hhas, hcustom⟩, hw, hk⟩ | ⟨id, h, v, rfl, he⟩)
    · exact ⟨hhas, hw, fun _ => hk⟩
    · exact ⟨he, rfl, fun hcustom => absurd hcustom (by simp [DecodedClaim.isCustom])⟩
  · rintro ⟨hhas, hw, hk⟩
    cases hcustom : d.isCustom with
    | false => exact .inl ⟨⟨hhas, rfl⟩, hw, hk hcustom⟩
    | true =>
      cases d with
      | custom id h v => exact .inr ⟨id, h, v, rfl, hhas⟩
      | _ => exact absurd hcustom Bool.false_ne_true

/-- Under one label a token has one claim of the profile. -/
theorem standard_labels (t : CatToken) :
    (t.standard.reduceOption.map DecodedClaim.label).Sublist claimLabels := by
  rw [← claimEncoders_labels (compositeValues .reference t.composite)]
  have h := claimEncoders_standard .reference t
  revert h
  generalize claimEncoders (compositeValues .reference t.composite) = encs
  generalize t.standard = os
  intro h
  induction h with
  | nil => exact List.Sublist.refl _
  | @cons x o encs os hx _ ih =>
    cases o with
    | none => exact ih.cons _
    | some d =>
      rw [List.reduceOption_cons_of_some, List.map_cons, List.map_cons, hx.label d rfl]
      exact ih.cons_cons _

theorem claims_nodup (t : CatToken) : (t.claims.map DecodedClaim.label).Nodup := by
  have hcustom : t.custom.claims.map DecodedClaim.label = t.custom.labels := by
    calc t.custom.claims.map DecodedClaim.label
        = (t.custom.entries.attach.map Subtype.val).map Prod.fst := by
          rw [CustomClaims.claims, List.map_map, List.map_map]
          rfl
      _ = t.custom.labels := by rw [List.attach_map_subtype_val]; rfl
  unfold CatToken.claims
  rw [List.map_append, List.nodup_append, hcustom]
  refine ⟨?_, t.custom.nodup, ?_⟩
  · refine List.Nodup.sublist (List.filter_sublist.map _) ?_
    exact (standard_labels t).nodup (by decide)
  · intro a ha b hb heq
    obtain ⟨d, hd, rfl⟩ := List.mem_map.mp ha
    have hk := (List.mem_filter.mp hd).2
    rw [Bool.and_eq_true, decide_eq_true_iff] at hk
    exact hk.2 (heq ▸ hb)

/-- The entries of a token's claim map: its claims, as they are encoded. -/
theorem mem_claimsMap {m : List (Int64 × Value)}
    (h : claimsMap (compositeValues H t.composite) t = .ok m) {k : Int64} {v : Value} :
    (k, v) ∈ m ↔ ∃ d ∈ t.claims, d.label = k ∧ d.encode H = .ok (some v) := by
  have hstd := claimEncoders_standard H t
  rw [(claimsMap_ok h).2]
  constructor
  · rintro (he | ⟨hk, enc, henc, hv⟩)
    · refine ⟨.custom k (t.custom.unreserved _ he) v, mem_claims.mpr ⟨he, rfl, ?_⟩, rfl, rfl⟩
      exact fun hcustom => absurd hcustom (by simp [DecodedClaim.isCustom])
    · obtain ⟨o, ho, hx⟩ := hstd.exists_of_mem_left henc
      have heq : enc t = encodeIfAny H o := hx.eq
      rw [hv] at heq
      cases o with
      | none => exact absurd heq (by simp [encodeIfAny])
      | some d =>
        have hhas := hx.has d rfl
        have hlabel : d.label = k := hx.label d rfl
        refine ⟨d, mem_claims.mpr ⟨hhas, ?_, fun _ => hlabel ▸ hk⟩, hlabel, heq.symm⟩
        exact (hx.isSome d rfl _ heq.symm).symm
  · rintro ⟨d, hd, rfl, hv⟩
    obtain ⟨hhas, -, hk⟩ := mem_claims.mp hd
    cases hcustom : d.isCustom with
    | true =>
      cases d with
      | custom id hid x =>
        obtain rfl := Option.some.inj (Except.ok.inj hv)
        exact .inl hhas
      | _ => exact absurd hcustom Bool.false_ne_true
    | false =>
      obtain ⟨⟨k, enc⟩, henc, hx⟩ := hstd.exists_of_mem_right (mem_standard.mpr ⟨hhas, hcustom⟩)
      have hlabel : d.label = k := hx.label d rfl
      exact .inr ⟨hk hcustom, enc, hlabel ▸ henc, hx.eq.trans hv⟩

/-- Every claim of an encoded token has been encoded. -/
theorem encode_of_mem_claims {m : List (Int64 × Value)}
    (h : claimsMap (compositeValues H t.composite) t = .ok m) {d : DecodedClaim}
    (hd : d ∈ t.claims) : ∃ v, d.encode H = .ok (some v) := by
  obtain ⟨hhas, hw, -⟩ := mem_claims.mp hd
  obtain ⟨es, hes, -⟩ := Except.bind_eq_ok.mp h
  cases hcustom : d.isCustom with
  | true =>
    cases d with
    | custom id hid x => exact ⟨x, rfl⟩
    | _ => exact absurd hcustom Bool.false_ne_true
  | false =>
    obtain ⟨x, hx, henc⟩ := (claimEncoders_standard H t).exists_of_mem_right
      (mem_standard.mpr ⟨hhas, hcustom⟩)
    obtain ⟨r, hr⟩ := insertions_each hes x hx
    have hd : d.encode H = .ok r := henc.eq.symm.trans hr
    have hsome := henc.isSome d rfl r hd
    rw [hw] at hsome
    obtain ⟨v, rfl⟩ := Option.isSome_iff_exists.mp hsome
    exact ⟨v, hd⟩

/-- An entry of a claim map, and the claim it was encoded from. -/
def EncodedFrom (H : Host) (e : Int64 × Value) (d : DecodedClaim) : Prop :=
  e.1 = d.label ∧ d.encode H = .ok (some e.2)

/-- The claim map is made when every claim of the profile can be encoded. -/
theorem claimsMap_isOk_iff : (∃ m, claimsMap (compositeValues H t.composite) t = .ok m) ↔
    ∀ d, some d ∈ t.standard → ∃ r, d.encode H = .ok r := by
  have hstd := claimEncoders_standard H t
  constructor
  · rintro ⟨m, h⟩ d hd
    obtain ⟨es, hes, -⟩ := Except.bind_eq_ok.mp h
    obtain ⟨x, hx, henc⟩ := hstd.exists_of_mem_right hd
    obtain ⟨r, hr⟩ := insertions_each hes x hx
    exact ⟨r, henc.eq.symm.trans hr⟩
  · intro h
    obtain ⟨es, hes⟩ := insertions_of_each fun x hx => by
      obtain ⟨o, ho, henc⟩ := hstd.exists_of_mem_left hx
      rw [henc.eq]
      cases o with
      | none => exact ⟨none, rfl⟩
      | some d => exact h d ho
    exact ⟨_, Except.bind_eq_ok.mpr ⟨es, hes, rfl⟩⟩

/-- **The claim map is the claims of the token**, each as it is encoded, by label. -/
theorem claimsMap_claims {m : List (Int64 × Value)}
    (hm : claimsMap (compositeValues H t.composite) t = .ok m) :
    ∃ ds, ds.Perm t.claims ∧ List.Forall₂ (EncodedFrom H) m ds := by
  have hsorted := (claimsMap_ok hm).1
  have hchoice : ∀ e ∈ m, ∃ d, d ∈ t.claims ∧ EncodedFrom H e d := by
    rintro ⟨k, v⟩ he
    obtain ⟨d, hd, hlabel, hv⟩ := (mem_claimsMap hm).mp he
    exact ⟨d, hd, hlabel.symm, hv⟩
  obtain ⟨ds, hds⟩ := List.exists_forall₂ hchoice
  refine ⟨ds, ?_, hds.imp fun _ _ h => h.2⟩
  have hlabels : m.map Prod.fst = ds.map DecodedClaim.label := by
    clear hchoice hsorted hm
    induction hds with
    | nil => rfl
    | cons h _ ih => rw [List.map_cons, List.map_cons, ih, h.2.1]
  have hnd : (ds.map DecodedClaim.label).Nodup := by
    rw [← hlabels, List.nodup_iff_pairwise_ne, List.pairwise_map]
    refine hsorted.imp fun {a b} hlt heq => ?_
    rw [heq] at hlt
    exact Int.lt_irrefl _ hlt
  refine (List.perm_ext_iff_of_nodup hnd.of_map (claims_nodup t).of_map).mpr fun d => ?_
  constructor
  · intro hd
    obtain ⟨e, -, hmem, -⟩ := hds.exists_of_mem_right hd
    exact hmem
  · intro hd
    obtain ⟨v, hv⟩ := encode_of_mem_claims hm hd
    obtain ⟨d', hd', hmem, hlabel, -⟩ :=
      hds.exists_of_mem_left ((mem_claimsMap hm).mpr ⟨d, hd, rfl, hv⟩)
    rwa [List.inj_on_of_nodup_map (claims_nodup t) hd hmem hlabel]

/-- **An encoded payload is the claims of its token**, written in the order of their labels. -/
theorem encodePayload_claims {b : Bytes} (h : encodePayload H t = .ok b) :
    ∃ m ds, claimsMap (compositeValues H t.composite) t = .ok m ∧ LabelSorted m ∧
      H.cbor.write (claimsValue m) = .ok b ∧ ds.Perm t.claims ∧
      List.Forall₂ (EncodedFrom H) m ds := by
  obtain ⟨m, hm, hw⟩ := encodePayload_ok h
  obtain ⟨ds, hperm, hds⟩ := claimsMap_claims hm
  exact ⟨m, ds, hm, (claimsMap_ok hm).1, hw, hperm, hds⟩

/-! ## What is read

The written entries, in the order of their labels, are decoded one by one at their costs. That
this is a decoding of the whole payload needs the labels to be in order, the sum of the costs to
fit, and the nesting not to be too deep, all of which can be told from the token.
-/

section
variable {limits : CwtLimits}

/-- The claim a claim is read as once it is written, and at what cost. -/
structure ReadsAs (H : Host) (limits : CwtLimits) (d d' : DecodedClaim) (c : DecodeCounters) :
    Prop where
  label : d'.label = d.label
  within : Within limits c
  yields : ∃ v, d.encode H = .ok (some v) ∧
    Yields H limits (payloadComposites H limits) v.readBack d' c

/-- A claim is read in one way. -/
theorem ReadsAs.unique {d d₁ d₂ : DecodedClaim} {c₁ c₂ : DecodeCounters}
    (h₁ : ReadsAs H limits d d₁ c₁) (h₂ : ReadsAs H limits d d₂ c₂) : d₁ = d₂ ∧ c₁ = c₂ := by
  obtain ⟨v, hv, hy₁⟩ := h₁.yields
  obtain ⟨w, hw, hy₂⟩ := h₂.yields
  obtain rfl : v = w := by simpa using hv.symm.trans hw
  have hrun₁ := hy₁ 0 (fun _ => limits.custom_ok.1) 0 (by rw [zero_add]; exact h₁.within)
  have hrun₂ := hy₂ 0 (fun _ => limits.custom_ok.1) 0 (by rw [zero_add]; exact h₂.within)
  rw [h₁.label] at hrun₁
  rw [h₂.label, hrun₁] at hrun₂
  obtain ⟨hd, hc⟩ := Prod.ext_iff.mp (Except.ok.inj hrun₂)
  rw [zero_add, zero_add] at hc
  exact ⟨hd, hc⟩

/-- A claim whose value has the form of a claim is read as that claim. -/
theorem ReadsAs.of_form {d d' : DecodedClaim} {c : DecodeCounters} {v : Value}
    (hv : d.encode H = .ok (some v)) (hform : ClaimForm H limits v.readBack d' c)
    (hlabel : d'.label = d.label) (hd : isCompositeKey (i64Value d'.label) = false)
    (hc : Within limits c) : ReadsAs H limits d d' c :=
  ⟨hlabel, hc, v, hv, hform.yields hd⟩

theorem ReadsAs.form {d d' : DecodedClaim} {c : DecodeCounters} {v : Value}
    (h : ReadsAs H limits d d' c) (hv : d.encode H = .ok (some v))
    (hd : isCompositeKey (i64Value d'.label) = false) : ClaimForm H limits v.readBack d' c := by
  obtain ⟨w, hw, hy⟩ := h.yields
  obtain rfl : v = w := by simpa using hv.symm.trans hw
  exact hy.form hd h.within

theorem within_of_mem_sum {cs : List DecodeCounters} (h : Within limits cs.sum)
    {c : DecodeCounters} (hc : c ∈ cs) : Within limits c := by
  obtain ⟨as, bs, rfl⟩ := List.append_of_mem hc
  rw [List.sum_append, List.sum_cons, add_left_comm] at h
  exact h.of_add

theorem within_of_mem_costOf {xs : List (DecodedClaim × DecodeCounters)}
    (h : Within limits (costOf xs)) {x : DecodedClaim × DecodeCounters} (hx : x ∈ xs) :
    Within limits x.2 := by
  have := within_of_mem_sum h (List.mem_map_of_mem hx)
  rw [add_comm] at this
  exact this.of_add

/-- Written entries yield what their claims are read as. -/
theorem yieldsEntries_written {m : List (Int64 × Value)} {ds : List DecodedClaim}
    (hds : List.Forall₂ (EncodedFrom H) m ds) {xs : List (DecodedClaim × DecodeCounters)}
    (hw : ∀ x ∈ xs, Within limits x.2) :
    YieldsEntries H limits (payloadComposites H limits)
        (m.map fun e => (i64Value e.1, e.2.readBack)) xs ↔
      List.Forall₂ (fun d x => ReadsAs H limits d x.1 x.2) ds xs := by
  induction hds generalizing xs with
  | nil => 
    unfold YieldsEntries
    cases xs <;> simp
  | @cons e d m ds he _ ih =>
    unfold YieldsEntries at ih ⊢
    cases xs with
    | nil => simp
    | cons x xs =>
      rw [List.forall_mem_cons] at hw
      rw [List.map_cons, List.forall₂_cons, List.forall₂_cons, ih hw.2]
      refine and_congr_left' ⟨fun ⟨hk, hy⟩ => ?_, fun hr => ?_⟩
      · exact ⟨(i64Value_inj.mp hk).symm.trans he.1, hw.1, e.2, he.2, hy⟩
      · obtain ⟨v, hv, hy⟩ := hr.yields
        obtain rfl : e.2 = v := by simpa using he.2.symm.trans hv
        exact ⟨by rw [hr.label, he.1], hy⟩

/-- What a decoded token has, told from the claims that were read. -/
theorem tokenOf_has {xs : List (DecodedClaim × DecodeCounters)}
    (hnd : (xs.map (·.1.label)).Nodup) {d : DecodedClaim} :
    (tokenOf xs).Has d ↔ (∃ x ∈ xs, x.1 = d) ∧ d.IsSet := by
  have h := @tokenRecord.has_foldl _ _ _ (xs.map Prod.fst) _ d
    (by rw [List.map_map]; exact hnd) not_has_new
  rw [← List.mem_map]
  exact h

theorem reserved_of_isCustom {d : DecodedClaim} (h : d.isCustom = true) :
    isReservedClaimId d.label = false := by
  cases d with
  | custom id hid v => exact hid
  | _ => exact absurd h Bool.false_ne_true

theorem reserved_or_composite {d : DecodedClaim} (h : d.isCustom = false) :
    isReservedClaimId d.label = true ∨ isCompositeKey (i64Value d.label) = true := by
  cases d with
  | custom id hid v => exact absurd h.symm Bool.false_ne_true
  | orClaim c | norClaim c | andClaim c =>
    exact .inr (by simp only [DecodedClaim.label]; decide)
  | _ => exact .inl (by simp only [DecodedClaim.label]; decide)

/-- A custom claim under the label of a composite is not read as a custom claim. -/
def DecodedClaim.staysCustom (d : DecodedClaim) : Bool :=
  d.isCustom && !isCompositeKey (i64Value d.label)

theorem ReadsAs.isCustom {d d' : DecodedClaim} {c : DecodeCounters}
    (h : ReadsAs H limits d d' c) : d'.isCustom = d.staysCustom := by
  obtain ⟨v, -, hy⟩ := h.yields
  have hrun := hy 0 (fun _ => limits.custom_ok.1) 0 (by rw [zero_add]; exact h.within)
  unfold DecodedClaim.staysCustom
  rw [← h.label]
  by_cases hcomp : isCompositeKey (i64Value d'.label) = true
  · rw [hcomp, Bool.not_true, Bool.and_false]
    obtain ⟨c', -, rfl | rfl | rfl⟩ := decodeClaim_composite hcomp hrun <;> rfl
  · rw [Bool.not_eq_true] at hcomp
    rw [hcomp, Bool.not_false, Bool.and_true]
    -- the label tells whether it is custom, and both have the same one
    have hiff : ∀ x : DecodedClaim, x.label = d'.label →
        x.isCustom = !isReservedClaimId d'.label := by
      intro x hx
      cases hcustom : x.isCustom with
      | true => rw [← hx, reserved_of_isCustom hcustom, Bool.not_false]
      | false =>
        rcases reserved_or_composite hcustom with hres | hkey
        · rw [← hx, hres, Bool.not_true]
        · rw [hx, hcomp] at hkey
          exact absurd hkey Bool.false_ne_true
    rw [hiff d' rfl, hiff d h.label.symm]

theorem countP_isCustom_eq {ds : List DecodedClaim} {xs : List (DecodedClaim × DecodeCounters)}
    (h : List.Forall₂ (fun d x => ReadsAs H limits d x.1 x.2) ds xs) :
    xs.countP (·.1.isCustom) = ds.countP DecodedClaim.staysCustom := by
  induction h with
  | nil => rfl
  | cons hx _ ih => rw [List.countP_cons, List.countP_cons, ih, hx.isCustom]

theorem custom_len_foldl {ds : List DecodedClaim} : ∀ {t : CatToken},
    (ds.map DecodedClaim.label).Nodup → (∀ d ∈ ds, d.label ∉ t.custom.labels) →
    (ds.foldl CatToken.assign t).custom.len = t.custom.len + ds.countP DecodedClaim.isCustom := by
  induction ds with
  | nil => exact fun _ _ => rfl
  | cons d ds ih =>
    intro t hnd hnew
    rw [List.map_cons, List.nodup_cons] at hnd
    rw [List.forall_mem_cons] at hnew
    rw [List.foldl_cons, ih hnd.2 fun d' hd' hmem => ?_, custom_len_assign_eq t hnew.1,
      List.countP_cons]
    · omega
    · rcases mem_custom_labels_assign hmem with hmem | heq
      · exact hnew.2 d' hd' hmem
      · exact hnd.1 (heq ▸ List.mem_map_of_mem hd')

theorem tokenOf_custom_len {xs : List (DecodedClaim × DecodeCounters)}
    (hnd : (xs.map (·.1.label)).Nodup) :
    (tokenOf xs).custom.len = xs.countP (·.1.isCustom) := by
  unfold tokenOf
  rw [custom_len_foldl (by rw [List.map_map]; exact hnd) fun _ _ => List.not_mem_nil,
    List.countP_map]
  exact Nat.zero_add _

/-- What reading a claim costs. -/
noncomputable def DecodedClaim.readCost (H : Host) (limits : CwtLimits) (d : DecodedClaim) :
    DecodeCounters :=
  open Classical in if h : ∃ c d', ReadsAs H limits d d' c then h.choose else 0

/-- What reading the claims of a token costs: an item each, and what each takes. -/
noncomputable def CatToken.readCost (H : Host) (limits : CwtLimits) (t : CatToken) :
    DecodeCounters :=
  (t.claims.map fun d => itemCost 1 + d.readCost H limits).sum

theorem ReadsAs.cost_eq {d d' : DecodedClaim} {c : DecodeCounters}
    (h : ReadsAs H limits d d' c) : d.readCost H limits = c := by
  have hex : ∃ c d', ReadsAs H limits d d' c := ⟨c, d', h⟩
  rw [DecodedClaim.readCost, dif_pos hex]
  obtain ⟨d'', hd''⟩ := hex.choose_spec
  exact (hd''.unique h).2

/-- What it takes for an encoded token to be decoded: the size, the nesting, the keys of the
    maps, the number of custom claims and the costs are all right, and every claim is read. -/
structure Decodable (H : Host) (limits : CwtLimits) (t : CatToken) (b : Bytes) : Prop where
  size_le : b.length ≤ limits.maxCborPayloadSize
  readable : ∃ r, H.cbor.read cborMaxRecursionDepth b = .ok r
  depth_le : ∀ d ∈ t.claims, ∀ v, d.encode H = .ok (some v) →
    walkDepth v.readBack < limits.maxNestingDepth
  keys : t.KeysGiven
  reads : ∀ d ∈ t.claims, ∃ d' c, ReadsAs H limits d d' c
  room : t.claims.countP DecodedClaim.staysCustom ≤ limits.maxCustomClaims
  within : Within limits (t.readCost H limits)

theorem costOf_reads {ds : List DecodedClaim} {xs : List (DecodedClaim × DecodeCounters)}
    (h : List.Forall₂ (fun d x => ReadsAs H limits d x.1 x.2) ds xs) :
    costOf xs = (ds.map fun d => itemCost 1 + d.readCost H limits).sum := by
  unfold costOf
  induction h with
  | nil => rfl
  | cons hx _ ih => rw [List.map_cons, List.map_cons, List.sum_cons, List.sum_cons, ih, hx.cost_eq]

theorem walkDepth_map_lt {es : List (Value × Value)} {n : Nat} :
    walkDepth (.map es) ≤ n ↔ ∀ e ∈ es, walkDepth e.2 < n := by
  rw [walkDepth, walkDepthEntries_le]
  refine forall₂_congr fun e _ => ?_
  rw [Nat.add_comm]
  exact Iff.rfl

/-- **What an encoded token decodes to**: it has what the claims of the token are read as. -/
theorem decodeCounters_written {t t' : CatToken} {b : Bytes} {c : DecodeCounters}
    (h : encodePayload H t = .ok b)
    (hdec : decodePayloadWithLimitsAndCounters H limits b {} = .ok (t', c)) :
    Decodable H limits t b ∧ c = t.readCost H limits ∧
      ∀ d', t'.Has d' ↔ (∃ d ∈ t.claims, ∃ c, ReadsAs H limits d d' c) ∧ d'.IsSet := by
  obtain ⟨m, ds, hm, hsorted, hw, hperm, hds⟩ := encodePayload_claims h
  obtain ⟨es, xs, hy, rfl, rfl, hwithin⟩ := decodePayloadWithLimitsAndCounters_eq_ok.mp hdec
  have hback := (H.cbor.read_of_write hw hy.read_eq).1
  have hes : es = m.map fun e => (i64Value e.1, e.2.readBack) := by
    rw [claimsValue, Value.readBack, Value.map.injEq, Value.readBackEntries_eq, List.map_map] at hback
    exact hback
  have hkeys := hy.keys
  rw [hback] at hkeys
  have hnd := hy.entries.nodup hy.keys
  have hentries := hy.entries
  rw [hes, yieldsEntries_written hds fun x hx => within_of_mem_costOf hwithin hx] at hentries
  have hcost : costOf xs = t.readCost H limits := by
    rw [costOf_reads hentries, CatToken.readCost, (hperm.map _).sum_eq]
  refine ⟨⟨hy.size_le, ⟨_, hy.read_eq⟩, fun d hd v hv => ?_,
    (CatToken.passes_iff t hm).mp hkeys, fun d hd => ?_, ?_, hcost ▸ hwithin⟩, hcost, fun d' => ?_⟩
  · have hdepth := hy.depth_le
    rw [hes, walkDepth_map_lt, List.forall_mem_map] at hdepth
    obtain ⟨e, he, -, hv'⟩ := hds.exists_of_mem_right (hperm.mem_iff.mpr hd)
    obtain rfl : v = e.2 := by simpa using hv.symm.trans hv'
    exact hdepth e he
  · obtain ⟨x, -, hx⟩ := hentries.exists_of_mem_left (hperm.mem_iff.mpr hd)
    exact ⟨x.1, x.2, hx⟩
  · rw [← hperm.countP_eq, ← countP_isCustom_eq hentries, ← tokenOf_custom_len hnd]
    exact hy.room
  · rw [tokenOf_has hnd]
    refine and_congr_left' ⟨?_, ?_⟩
    · rintro ⟨x, hx, rfl⟩
      obtain ⟨d, hd, hr⟩ := hentries.exists_of_mem_right hx
      exact ⟨d, hperm.mem_iff.mp hd, x.2, hr⟩
    · rintro ⟨d, hd, c, hr⟩
      obtain ⟨x, hx, hr'⟩ := hentries.exists_of_mem_left (hperm.mem_iff.mpr hd)
      exact ⟨x, hx, (hr'.unique hr).1⟩

theorem decode_written_ok {t t' : CatToken} {b : Bytes} (h : encodePayload H t = .ok b)
    (hdec : decodePayloadWithLimits H limits b = .ok t') :
    Decodable H limits t b ∧
      ∀ d', t'.Has d' ↔ (∃ d ∈ t.claims, ∃ c, ReadsAs H limits d d' c) ∧ d'.IsSet := by
  obtain ⟨⟨t'', c⟩, hrun, rfl⟩ := Except.map_eq_ok.mp hdec
  obtain ⟨hok, -, hhas⟩ := decodeCounters_written h hrun
  exact ⟨hok, hhas⟩

/-- **An encoded token is decoded** if it is decodable. -/
theorem Decodable.decode {t : CatToken} {b : Bytes} (hok : Decodable H limits t b)
    (h : encodePayload H t = .ok b) : ∃ t', decodePayloadWithLimits H limits b = .ok t' := by
  obtain ⟨m, ds, hm, hsorted, hw, hperm, hds⟩ := encodePayload_claims h
  have hchoice : ∀ d ∈ ds, ∃ x : DecodedClaim × DecodeCounters, ReadsAs H limits d x.1 x.2 := by
    intro d hd
    obtain ⟨d', c, hr⟩ := hok.reads d (hperm.mem_iff.mp hd)
    exact ⟨(d', c), hr⟩
  obtain ⟨xs, hxs⟩ := List.exists_forall₂ hchoice
  have hreads : List.Forall₂ (fun d x => ReadsAs H limits d x.1 x.2) ds xs := hxs
  have hcost : costOf xs = t.readCost H limits := by
    rw [costOf_reads hreads, CatToken.readCost, (hperm.map _).sum_eq]
  have hwithin := hok.within
  rw [← hcost] at hwithin
  have hback : (claimsValue m).readBack = .map (m.map fun e => (i64Value e.1, e.2.readBack)) := by
    rw [claimsValue, Value.readBack, Value.readBackEntries_eq, List.map_map]
    rfl
  obtain ⟨⟨v, r⟩, hread⟩ := hok.readable
  obtain ⟨rfl, rfl⟩ := H.cbor.read_of_write hw hread
  have hpass := (CatToken.passes_iff t hm).mpr hok.keys
  rw [Passes, hback] at hpass
  rw [hback] at hread
  have hentries := (yieldsEntries_written hds fun x hx => within_of_mem_costOf hwithin hx).mpr hreads
  have hnd := hentries.nodup hpass
  refine ⟨tokenOf xs, decodePayloadWithLimits_eq_ok.mpr ⟨_, xs, ⟨hok.size_le, hread, ?_, hpass,
    hentries, ?_⟩, rfl, hwithin⟩⟩
  · rw [walkDepth_map_lt, List.forall_mem_map]
    intro e he
    obtain ⟨d, hd, -, hv⟩ := hds.exists_of_mem_left he
    exact hok.depth_le d (hperm.mem_iff.mp hd) e.2 hv
  · rw [tokenOf_custom_len hnd, countP_isCustom_eq hreads, hperm.countP_eq]
    exact hok.room

/-- **An encoded token is decoded exactly when it is decodable.** -/
theorem decode_written_iff {t : CatToken} {b : Bytes} (h : encodePayload H t = .ok b) :
    (∃ t', decodePayloadWithLimits H limits b = .ok t') ↔ Decodable H limits t b :=
  ⟨fun ⟨_, hdec⟩ => (decode_written_ok h hdec).1, fun hok => hok.decode h⟩

/-- Values that are not nested deep can be read. -/
theorem readable_of_height {t : CatToken} {b : Bytes} (h : encodePayload H t = .ok b)
    (hheight : ∀ d ∈ t.claims, ∀ v, d.encode H = .ok (some v) →
      v.height + 1 < cborMaxRecursionDepth) :
    ∃ r, H.cbor.read cborMaxRecursionDepth b = .ok r := by
  obtain ⟨m, ds, hm, hsorted, hw, hperm, hds⟩ := encodePayload_claims h
  refine ⟨_, H.cbor.read_written hw ?_⟩
  have hall : Value.heightEntries (m.map fun e => (i64Value e.1, e.2)) ≤ cborMaxRecursionDepth - 2 := by
    refine Value.heightEntries_le.mpr ?_
    rw [List.forall_mem_map]
    intro e he
    obtain ⟨d, hd, -, hv⟩ := hds.exists_of_mem_left he
    have := hheight d (hperm.mem_iff.mp hd) e.2 hv
    refine ⟨Nat.zero_le _, ?_⟩
    dsimp only
    omega
  have hdepth : cborMaxRecursionDepth = 32 := rfl
  rw [claimsValue, Value.height]
  omega

/-- The walk comes no deeper into what is read than what was written is nested. -/
theorem walkDepth_readBack_le (v : Value) : walkDepth v.readBack ≤ v.height :=
  (walkDepth_le_height _).trans (Value.height_readBack _)

end

end

end Cat
