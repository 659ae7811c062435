import Cat.Cwt.CustomFrame
import Cat.Cwt.WrittenForms
import Cat.Token.Issue

/-!
# Flat tokens, issued and decoded

A token without composites, scopes, networks, request claims and custom claims is read as
`CatToken.asRead` once it was issued, if it is read at all. `encode_token` lets more through
than the decoder takes: `CatToken.Readable` is what is left to ask of a token for its
restrictions to come back (`encodeToken_decodes_iff`).

Issuing checks a token before it encodes it, decoding checks what it has read, and the two lists
of checks were not made to fit. Where the first is the stricter nothing is lost. Where the
second is, a token is signed that no relay will read, or is read with a restriction fewer: an
empty list of zones, a confirmation without a key, a probability above one.

What comes back is told claim by claim. `DecodedClaim.read?` is what one claim is read as, and
the token as it is read has just these, by the correspondence between fields and entries that
`Cwt.Fields` and `Cwt.Written` set up; none of the statements here takes the token's record
apart.
-/

set_option autoImplicit false

namespace Cat

open Cbor DecodeCounters

/-! ## What a token is read as

Claim by claim. Some claims are not written, since there is nothing in them, and some are read
as nothing though they were written.
-/

/-- A claim that is there when it is set. -/
def DecodedClaim.set? : DecodedClaim → Option DecodedClaim
  | .catgeocoord none | .geohash none | .catifdata none | .cnf none | .catif none
  | .catr none => none
  | d => some d

/-- What a claim is read as: nothing when it is not written or not set as it is read. -/
def DecodedClaim.read? (d : DecodedClaim) : Option DecodedClaim :=
  if d.isWritten then d.asRead.set? else none

theorem DecodedClaim.set?_eq_some {d d' : DecodedClaim} : d.set? = some d' ↔ d = d' ∧ d'.IsSet := by
  constructor
  · intro h
    cases d with
    | catgeocoord x | geohash x | catifdata x | cnf x | catif x | catr x =>
      cases x with
      | none => cases h
      | some x =>
        obtain rfl := Option.some.inj h
        exact ⟨rfl, trivial⟩
    | _ =>
      obtain rfl := Option.some.inj h
      exact ⟨rfl, trivial⟩
  · rintro ⟨rfl, hset⟩
    cases d with
    | catgeocoord x | geohash x | catifdata x | cnf x | catif x | catr x =>
      cases x with
      | none => exact hset.elim
      | some x => rfl
    | _ => rfl

theorem DecodedClaim.read?_eq_some {d d' : DecodedClaim} :
    d.read? = some d' ↔ d.isWritten = true ∧ d.asRead = d' ∧ d'.IsSet := by
  unfold read?
  split
  · rename_i h
    rw [set?_eq_some, h]
    exact (and_iff_right rfl).symm
  · rename_i h
    exact ⟨fun heq => (by cases heq), fun heq => absurd heq.1 h⟩

/-- The token as it is read. -/
def CatToken.asRead (t : CatToken) : CatToken :=
  { t with
    cat := { t.cat with
      catu := t.cat.catu.map uriRulesAsRead
      cath := t.cat.cath.map (·.map HeaderMatchRule.asRead)
      catgeocoord := t.cat.catgeocoord.bind unlessNil
      geohash := t.cat.geohash.bind unlessNil }
    informational := { t.informational with catifdata := t.informational.catifdata.bind unlessNil }
    dpop := ⟨t.dpop.cnf.filter fun c => (DecodedClaim.cnf (some c)).isWritten,
      t.dpop.catdpop.filter fun s => (DecodedClaim.catdpop s).isWritten⟩
    request := { t.request with
      catif := t.request.catif.bind fun as => unlessNil (catifAsRead as) } }

/-- The claims of the token as it is read, one after another. -/
theorem standard_asRead (t : CatToken) :
    t.asRead.standard = t.standard.map (·.bind DecodedClaim.read?) := by
  have plain {α : Type} (x : Option α) (f : α → DecodedClaim)
      (hf : ∀ a, (f a).read? = some (f a)) : x.map f = (x.map f).bind DecodedClaim.read? := by
    cases x with
    | none => rfl
    | some a => exact (hf a).symm
  have list {α β : Type} (x : Option α) (g : α → List β) (f : Option (List β) → DecodedClaim)
      (f' : α → DecodedClaim)
      (hf : ∀ a, (f' a).read? = (f (unlessNil (g a))).set?)
      (hset : ∀ b, (f (some b)).set? = some (f (some b))) (hnone : (f none).set? = none) :
      (x.bind fun a => unlessNil (g a)).map (fun b => f (some b)) =
        (x.map f').bind DecodedClaim.read? := by
    cases x with
    | none => rfl
    | some a =>
      show (unlessNil (g a)).map _ = (f' a).read?
      rw [hf]
      cases unlessNil (g a) with
      | none => exact hnone.symm
      | some b => exact (hset b).symm
  have written {α : Type} (x : Option α) (f : α → DecodedClaim)
      (hf : ∀ a, (f a).asRead.set? = some (f a)) : (x.filter fun a => (f a).isWritten).map f = (x.map f).bind DecodedClaim.read? := by
    cases x with
    | none => rfl
    | some a =>
      show _ = (f a).read?
      unfold DecodedClaim.read?
      rw [hf, Option.filter]
      cases (f a).isWritten <;> rfl
  unfold CatToken.standard CatToken.asRead
  simp only [List.map_cons, List.map_nil, List.cons.injEq, and_true]
  refine ⟨plain _ _ fun _ => rfl, plain _ _ fun _ => rfl, plain _ _ fun _ => rfl, plain _ _ fun _ => rfl,
    plain _ _ fun _ => rfl, plain _ _ fun _ => rfl, plain _ _ fun _ => rfl, plain _ _ fun _ => rfl,
    plain _ _ fun _ => rfl, ?_, plain _ _ fun _ => rfl, plain _ _ fun _ => rfl, ?_,
    plain _ _ fun _ => rfl, list _ id .catgeocoord _ (fun _ => rfl) (fun _ => rfl) rfl,
    list _ id .geohash _ (fun _ => rfl) (fun _ => rfl) rfl, plain _ _ fun _ => rfl,
    plain _ _ fun _ => rfl, plain _ _ fun _ => rfl, plain _ _ fun _ => rfl,
    list _ id .catifdata _ (fun _ => rfl) (fun _ => rfl) rfl, written _ _ fun _ => rfl,
    written _ _ fun _ => rfl, list _ catifAsRead .catif _ (fun _ => rfl) (fun _ => rfl) rfl,
    plain _ _ fun _ => rfl, plain _ _ fun _ => rfl, plain _ _ fun _ => rfl, plain _ _ fun _ => rfl,
    plain _ _ fun _ => rfl, plain _ _ fun _ => rfl⟩
  · cases t.cat.catu <;> rfl
  · cases t.cat.cath <;> rfl

/-- What the token as it is read has: its claims as they are read. -/
theorem has_asRead {t : CatToken} {d' : DecodedClaim} (hcustom : d'.isCustom = false) :
    t.asRead.Has d' ↔ ∃ d, some d ∈ t.standard ∧ d.read? = some d' := by
  have hmem : t.asRead.Has d' ↔ some d' ∈ t.asRead.standard := by
    rw [mem_standard, and_iff_left hcustom]
  rw [hmem, standard_asRead, List.mem_map]
  constructor
  · rintro ⟨o, ho, heq⟩
    obtain ⟨d, rfl, hd⟩ := Option.bind_eq_some_iff.mp heq
    exact ⟨d, ho, hd⟩
  · rintro ⟨d, hd, heq⟩
    exact ⟨some d, hd, heq⟩

/-! ## Flat tokens

For these everything that is asked of a payload can be told from the token without looking at
composites, scopes or custom values, and most of it holds by what issuing has checked.
-/

/-- A token without composites, scopes, networks, request claims and custom claims. Its DPoP
    settings name no key in `crit` that is always understood, which `with_critical` and the
    decoder see to. -/
structure CatToken.Flat (t : CatToken) : Prop where
  catnip : t.cat.catnip = none
  request : t.request = {}
  composite : t.composite = .default
  moqt : t.moqt.moqt = none
  custom : t.custom.entries = []
  crit : ∀ s, t.dpop.catdpop = some s → s.validateCrit = .ok ()

/-- The sizes and counts of a token's claims are within the limits. -/
structure CatToken.WithinLimits (limits : CwtLimits) (t : CatToken) : Prop where
  fits : ∀ d ∈ t.claims, d.Fits limits
  within : Within limits (t.claims.map fun d => itemCost 1 + d.cost).sum

/-- What the decoder asks of the restrictions of a flat token, and `encode_token` does not. -/
structure CatToken.Readable (t : CatToken) : Prop where
  catpor : ∀ p, t.cat.catpor = some p →
    F64.le (F64.ofInt 0) p.probability = true ∧ F64.le p.probability (F64.ofInt 1) = true
  catu : ∀ rs, t.cat.catu = some rs →
    (rs.map (·.component)).Nodup ∧ ∀ r ∈ rs, MatchesDistinct r.matches_
  cath : ∀ rs, t.cat.cath = some rs →
    (rs.map (·.name)).Nodup ∧ ∀ r ∈ rs, MatchesDistinct r.matches_
  catgeocoord : t.cat.catgeocoord ≠ some []
  geohash : t.cat.geohash ≠ some []
  cnf : ∀ c, t.dpop.cnf = some c → (DecodedClaim.cnf (some c)).isWritten = true
  catdpop : ∀ s, t.dpop.catdpop = some s → (DecodedClaim.catdpop s).isWritten = true

section
variable {H : Host} {t : CatToken} {d : DecodedClaim}

theorem CatToken.Flat.mem_claims (h : t.Flat) :
    d ∈ t.claims ↔ some d ∈ t.standard ∧ d.isWritten = true := by
  have hlabels : t.custom.labels = [] := by rw [CustomClaims.labels, h.custom, List.map_nil]
  rw [Cat.mem_claims, mem_standard, hlabels]
  constructor
  · rintro ⟨hhas, hw, -⟩
    refine ⟨⟨hhas, ?_⟩, hw⟩
    cases d with
    | custom id hid v =>
      have hmem : (id, v) ∈ t.custom.entries := hhas
      rw [h.custom] at hmem
      exact absurd hmem List.not_mem_nil
    | _ => rfl
  · rintro ⟨⟨hhas, -⟩, hw⟩
    exact ⟨hhas, hw, fun _ => List.not_mem_nil⟩

/-- The claims that a flat token may have. -/
theorem CatToken.Flat.isFlat (h : t.Flat) (hd : d ∈ t.claims) : d.isFlat = true ∧
    d.isCustom = false ∧ (∀ x, d ≠ .catif x) ∧ ∀ x, d ≠ .catr x := by
  obtain ⟨hhas, hcustom⟩ := mem_standard.mp (h.mem_claims.mp hd).1
  have hnone {α : Type} {x : Option α} {a : α} (hx : x = none) : ¬x = some a := by simp [hx]
  cases d with
  | catnip ns => exact absurd hhas (hnone h.catnip)
  | moqt ss => exact absurd hhas (hnone h.moqt)
  | catif x =>
    cases x with
    | none => exact hhas.elim
    | some as => exact absurd hhas (hnone (by rw [h.request]))
  | catr x =>
    cases x with
    | none => exact hhas.elim
    | some r => exact absurd hhas (hnone (by rw [h.request]))
  | orClaim c | norClaim c | andClaim c => exact absurd hhas (hnone (by rw [h.composite]; rfl))
  | custom id hid v => exact absurd hcustom.symm Bool.false_ne_true
  | _ => exact ⟨rfl, rfl, fun _ => by simp, fun _ => by simp⟩

theorem CatToken.Flat.keysGiven_iff (h : t.Flat) : t.KeysGiven ↔
    (∀ rs, t.cat.catu = some rs →
      (rs.map (·.component)).Nodup ∧ ∀ r ∈ rs, MatchesDistinct r.matches_) ∧
    ∀ rs, t.cat.cath = some rs →
      (rs.map (·.name)).Nodup ∧ ∀ r ∈ rs, MatchesDistinct r.matches_ := by
  rw [Cat.keysGiven_iff]
  constructor
  · exact fun hk => ⟨hk.1.catu, hk.1.cath⟩
  · rintro ⟨hcatu, hcath⟩
    refine ⟨⟨negativeAlone_of_no_custom h.custom, hcatu, hcath, ?_, ?_⟩, ?_⟩
    · exact fun as has => absurd has (by simp [h.request])
    · exact fun e he => absurd he (by simp [h.custom])
    · rw [h.composite]
      exact ⟨fun _ => trivial, fun _ => trivial, fun _ => trivial⟩

/-- What `encode_token` has looked at in a coordinate. -/
theorem inRange_of_validateConstruction {c : GeoCoordinate}
    (h : c.validateConstruction H = .ok ()) (hlat : c.lat.isNan = false)
    (hlon : c.lon.isNan = false) : c.InRange := by
  obtain ⟨hlats, h⟩ := Except.guard_eq_ok.mp h
  have hlons : ¬(F64.lt c.lon (F64.ofInt (-180)) || F64.lt (F64.ofInt 180) c.lon) = true := by
    intro hout
    rw [if_pos hout] at h
    cases h
  rw [Bool.or_eq_true, not_or, Bool.not_eq_true, Bool.not_eq_true] at hlats hlons
  exact ⟨F64.abs_of_between (by decide) hlat hlats.1 hlats.2,
    F64.abs_of_between (by decide) hlon hlons.1 hlons.2⟩

theorem construction_catgeocoord (h : t.validateConstruction H = .ok ()) {cs : List GeoCoordinate}
    (hcs : t.cat.catgeocoord = some cs) : ∀ c ∈ cs, c.validateConstruction H = .ok () := by
  unfold CatToken.validateConstruction at h
  rw [hcs] at h
  obtain ⟨_, hcoords, -⟩ := Except.bind_eq_ok.mp h
  exact Except.forM_eq_ok.mp hcoords

/-- The decoder takes every claim of a flat token that was issued, if its probability of rejection
    is one. -/
theorem CatToken.Flat.acceptable (h : t.Flat) (hcons : t.validateConstruction H = .ok ())
    (hpor : ∀ p, t.cat.catpor = some p →
      F64.le (F64.ofInt 0) p.probability = true ∧ F64.le p.probability (F64.ofInt 1) = true)
    (hd : d ∈ t.claims) {v : Value} (hv : d.encode H = .ok (some v)) : d.Acceptable H := by
  obtain ⟨hhas, -⟩ := mem_standard.mp (h.mem_claims.mp hd).1
  obtain ⟨-, -, hcatif, hcatr⟩ := h.isFlat hd
  cases d with
  | catpor p => exact hpor p hhas
  | catgeocoord x =>
    cases x with
    | none => trivial
    | some cs =>
      intro c hc
      obtain ⟨hord, -⟩ := encode_catgeocoord hv
      exact inRange_of_validateConstruction (construction_catgeocoord hcons hhas c hc)
        (hord c hc).1.1 (hord c hc).2.1
  | catdpop s => exact h.crit s hhas
  | catif x => exact absurd rfl (hcatif x)
  | catr x => exact absurd rfl (hcatr x)
  | _ => trivial

theorem eq_catpor_of_label {d : DecodedClaim} (h : d.label = claimCatpor) : ∃ p, d = .catpor p := by
  cases d with
  | catpor p => exact ⟨p, rfl⟩
  | custom id hid v =>
    obtain rfl : id = claimCatpor := h
    exact absurd hid (by decide)
  | _ => exact absurd h (by simp only [DecodedClaim.label]; decide)

/-- A probability that was read is one. -/
theorem probability_of_reads {limits : CwtLimits} {p : ProbabilityOfRejection} {c : DecodeCounters}
    (h : ReadsAs H limits (.catpor p) d c) :
    F64.le (F64.ofInt 0) p.probability = true ∧ F64.le p.probability (F64.ofInt 1) = true := by
  obtain ⟨p', rfl⟩ := eq_catpor_of_label h.label
  obtain ⟨v, hv, -⟩ := h.yields
  obtain ⟨⟨pv, heq, hnum, -, hrange⟩, -⟩ :=
    h.form hv (by simp only [DecodedClaim.label]; decide)
  obtain ⟨hord, rfl⟩ := encode_catpor hv
  -- both forms have the probability in front
  have hfront : pv = encodeNumberShortest p.probability := by
    rw [normal_catpor] at heq
    exact (List.cons.inj (Value.array.inj heq)).1.symm
  rw [hfront, numericValue_encodeNumberShortest hord] at hnum
  rw [Option.some.inj hnum]
  exact hrange

section
variable {limits : CwtLimits} {b : Bytes}

/-- **A flat token that was issued is read claim by claim.** -/
theorem CatToken.Flat.reads (h : t.Flat) (hlimits : t.WithinLimits limits)
    (hcons : t.validateConstruction H = .ok ()) (henc : encodePayload H t = .ok b)
    (hpor : ∀ p, t.cat.catpor = some p →
      F64.le (F64.ofInt 0) p.probability = true ∧ F64.le p.probability (F64.ofInt 1) = true)
    (hd : d ∈ t.claims) : ReadsAs H limits d d.asRead d.cost := by
  obtain ⟨m, hm, -⟩ := encodePayload_ok henc
  obtain ⟨v, hv⟩ := encode_of_mem_claims hm hd
  refine reads_flat hv (h.isFlat hd).1 (h.acceptable hcons hpor hd hv) (hlimits.fits d hd) ?_
  have hsum := within_of_mem_sum hlimits.within (List.mem_map_of_mem hd)
  rw [add_comm] at hsum
  exact hsum.of_add

theorem CatToken.Flat.readCost_eq (h : t.Flat) (hlimits : t.WithinLimits limits)
    (hcons : t.validateConstruction H = .ok ()) (henc : encodePayload H t = .ok b)
    (hpor : ∀ p, t.cat.catpor = some p →
      F64.le (F64.ofInt 0) p.probability = true ∧ F64.le p.probability (F64.ofInt 1) = true) :
    t.readCost H limits = (t.claims.map fun d => itemCost 1 + d.cost).sum := by
  unfold CatToken.readCost
  congr 1
  exact List.map_congr_left fun d hd => by rw [(h.reads hlimits hcons henc hpor hd).cost_eq]

theorem CatToken.Flat.probability (h : t.Flat) (hok : Decodable H limits t b) :
    ∀ p, t.cat.catpor = some p →
      F64.le (F64.ofInt 0) p.probability = true ∧ F64.le p.probability (F64.ofInt 1) = true := by
  intro p hp
  have hd : DecodedClaim.catpor p ∈ t.claims := h.mem_claims.mpr ⟨mem_standard.mpr ⟨hp, rfl⟩, rfl⟩
  obtain ⟨d, c, hr⟩ := hok.reads _ hd
  exact probability_of_reads hr

/-- **What a flat token that was issued decodes to** is the token as it is read. -/
theorem CatToken.Flat.decoded (h : t.Flat) (hlimits : t.WithinLimits limits)
    (hcons : t.validateConstruction H = .ok ()) (henc : encodePayload H t = .ok b) {s : CatToken}
    (hdec : decodePayloadWithLimits H limits b = .ok s) : SameStandard t.asRead s := by
  obtain ⟨hok, hhas⟩ := decode_written_ok henc hdec
  have hreads {d : DecodedClaim} (hd : d ∈ t.claims) :=
    h.reads hlimits hcons henc (h.probability hok) hd
  refine sameStandard_of_has fun d' hcustom => ?_
  rw [has_asRead hcustom, hhas]
  constructor
  · rintro ⟨d, hd, hread⟩
    obtain ⟨hw, rfl, hset⟩ := DecodedClaim.read?_eq_some.mp hread
    exact ⟨⟨d, h.mem_claims.mpr ⟨hd, hw⟩, _, hreads (h.mem_claims.mpr ⟨hd, hw⟩)⟩, hset⟩
  · rintro ⟨⟨d, hd, c, hr⟩, hset⟩
    obtain ⟨rfl, -⟩ := hr.unique (hreads hd)
    obtain ⟨hmem, hw⟩ := h.mem_claims.mp hd
    exact ⟨d, hmem, DecodedClaim.read?_eq_some.mpr ⟨hw, rfl, hset⟩⟩

/-- **A flat token that was issued is decoded** when its keys are given once and its probability of
    rejection is one. -/
theorem CatToken.Flat.decode (h : t.Flat) (hlimits : t.WithinLimits .default)
    (hcons : t.validateConstruction H = .ok ()) (henc : encodePayload H t = .ok b)
    (hsize : b.length ≤ CwtLimits.default.maxCborPayloadSize)
    (hpor : ∀ p, t.cat.catpor = some p →
      F64.le (F64.ofInt 0) p.probability = true ∧ F64.le p.probability (F64.ofInt 1) = true)
    (hkeys : t.KeysGiven) : ∃ s, decodePayload H b = .ok s := by
  have hreads {d : DecodedClaim} (hd : d ∈ t.claims) := h.reads hlimits hcons henc hpor hd
  have hheight {d : DecodedClaim} (hd : d ∈ t.claims) {v : Value}
      (hv : d.encode H = .ok (some v)) : v.height ≤ 3 :=
    height_flat hv (h.isFlat hd).1 (h.isFlat hd).2.1
  refine (decode_written_iff henc).mpr ⟨hsize, readable_of_height henc fun d hd v hv => ?_,
    fun d hd v hv => ?_, hkeys, fun d hd => ⟨_, _, hreads hd⟩, ?_, ?_⟩
  · exact Nat.lt_of_le_of_lt (Nat.succ_le_succ (hheight hd hv)) (by decide)
  · exact Nat.lt_of_le_of_lt ((walkDepth_readBack_le v).trans (hheight hd hv)) (by decide)
  · rw [List.countP_eq_zero.mpr]
    · exact Nat.zero_le _
    · intro d hd
      rw [DecodedClaim.staysCustom, (h.isFlat hd).2.1, Bool.false_and]
      exact Bool.false_ne_true
  · rw [h.readCost_eq hlimits hcons henc hpor]
    exact hlimits.within

end

/-! ## Restrictions

The claims that restrict a request have to come back with the same meaning. Matches may come
back in another order.
-/

/-- The same rules in some order, each with the same matches in some order. -/
def SameUriRules (rs rs' : List UriMatchRule) : Prop :=
  ∃ ordered, ordered.Perm rs ∧
    List.Forall₂ (fun r r' => r.component = r'.component ∧ r.matches_.Perm r'.matches_) ordered rs'

/-- The same rules, each with the same matches in some order. -/
def SameHeaderRules (rs rs' : List HeaderMatchRule) : Prop :=
  List.Forall₂ (fun r r' => r.name = r'.name ∧ r.matches_.Perm r'.matches_) rs rs'

/-- The restrictions of a token are those of another, the lists of matches up to order. -/
structure SameRestrictions (t s : CatToken) : Prop where
  exp : s.core.exp = t.core.exp
  nbf : s.core.nbf = t.core.nbf
  aud : s.core.aud = t.core.aud
  catreplay : s.cat.catreplay = t.cat.catreplay
  catpor : s.cat.catpor = t.cat.catpor
  catv : s.cat.catv = t.cat.catv
  catu : Option.Rel SameUriRules t.cat.catu s.cat.catu
  catm : s.cat.catm = t.cat.catm
  catalpn : s.cat.catalpn = t.cat.catalpn
  cath : Option.Rel SameHeaderRules t.cat.cath s.cat.cath
  catgeoiso3166 : s.cat.catgeoiso3166 = t.cat.catgeoiso3166
  catgeocoord : s.cat.catgeocoord = t.cat.catgeocoord
  geohash : s.cat.geohash = t.cat.geohash
  catgeoalt : s.cat.catgeoalt = t.cat.catgeoalt
  cnf : s.dpop.cnf = t.dpop.cnf
  catdpop : s.dpop.catdpop = t.dpop.catdpop

theorem bind_unlessNil_eq_self {α : Type} {x : Option (List α)} :
    x.bind unlessNil = x ↔ x ≠ some [] := by
  cases x with
  | none => simp
  | some as => cases as <;> simp [unlessNil]

theorem filter_eq_self {α : Type} {x : Option α} {p : α → Bool} :
    x.filter p = x ↔ ∀ a, x = some a → p a = true := by
  cases x with
  | none => simp
  | some a => cases h : p a <;> simp [Option.filter, h]

theorem sameUriRules_asRead (rs : List UriMatchRule) : SameUriRules rs (uriRulesAsRead rs) := by
  refine ⟨inLabelOrder UriMatchRule.component rs, inLabelOrder_perm _ rs, ?_⟩
  unfold uriRulesAsRead
  rw [List.forall₂_map_right_iff, List.forall₂_same]
  exact fun r _ => ⟨rfl, (inLabelOrder_perm _ r.matches_).symm⟩

theorem sameHeaderRules_asRead (rs : List HeaderMatchRule) :
    SameHeaderRules rs (rs.map HeaderMatchRule.asRead) := by
  unfold SameHeaderRules
  rw [List.forall₂_map_right_iff, List.forall₂_same]
  exact fun r _ => ⟨rfl, (inLabelOrder_perm _ r.matches_).symm⟩

theorem option_rel_map {α : Type} {R : α → α → Prop} {f : α → α} (h : ∀ a, R a (f a))
    (x : Option α) : Option.Rel R x (x.map f) := by
  cases x with
  | none => exact .none
  | some a => exact .some (h a)

/-- A token is read with its restrictions when it has no empty list of zones or geohashes, and no
    confirmation or DPoP settings that come to nothing. -/
theorem sameRestrictions_asRead : SameRestrictions t t.asRead ↔
    t.cat.catgeocoord ≠ some [] ∧ t.cat.geohash ≠ some [] ∧
      (∀ c, t.dpop.cnf = some c → (DecodedClaim.cnf (some c)).isWritten = true) ∧
      ∀ s, t.dpop.catdpop = some s → (DecodedClaim.catdpop s).isWritten = true := by
  rw [← bind_unlessNil_eq_self, ← bind_unlessNil_eq_self, ← filter_eq_self, ← filter_eq_self]
  constructor
  · exact fun h => ⟨h.catgeocoord, h.geohash, h.cnf, h.catdpop⟩
  · rintro ⟨hcoord, hhash, hcnf, hdpop⟩
    exact ⟨rfl, rfl, rfl, rfl, rfl, rfl, option_rel_map sameUriRules_asRead _, rfl, rfl,
      option_rel_map sameHeaderRules_asRead _, rfl, hcoord, hhash, rfl, hcnf, hdpop⟩

theorem SameRestrictions.congr {s s' : CatToken} (h : SameStandard s s') :
    SameRestrictions t s ↔ SameRestrictions t s' := by
  obtain ⟨core, cat, informational, dpop, request, composite, moqt, custom⟩ := s
  obtain ⟨rfl, rfl, rfl, rfl, rfl, rfl, rfl⟩ := h
  exact ⟨fun h => ⟨h.exp, h.nbf, h.aud, h.catreplay, h.catpor, h.catv, h.catu, h.catm, h.catalpn,
    h.cath, h.catgeoiso3166, h.catgeocoord, h.geohash, h.catgeoalt, h.cnf, h.catdpop⟩,
    fun h => ⟨h.exp, h.nbf, h.aud, h.catreplay, h.catpor, h.catv, h.catu, h.catm, h.catalpn,
    h.cath, h.catgeoiso3166, h.catgeocoord, h.geohash, h.catgeoalt, h.cnf, h.catdpop⟩⟩

/-- **What the issuer signs the relay can verify**, with the same restrictions, exactly when the
    token is readable.

    The issuer checks coordinates and the window of the DPoP settings before it signs; the rest is
    left to whoever built the token. What the decoder refuses is therefore signed without complaint:
    a probability above one, and rules that give a map the same key twice. And what is empty is
    written and comes back as absent. -/
theorem encodeToken_decodes_iff (h : t.Flat) (hlimits : t.WithinLimits .default)
    {algorithm : CryptographicAlgorithm}
    (hverify : ∀ input signature, algorithm.sign input = .ok signature →
      algorithm.verify input signature = .ok ())
    {b : Bytes} (henc : encodeToken H t algorithm = .ok b) (hsize : b.length ≤ maxTokenSize) :
    (∃ v, (Decoder.withAlgorithm algorithm).decodeSigned H b = .ok v ∧
        SameRestrictions t v.claims) ↔ t.Readable := by
  obtain ⟨header, payload, input, signature, hissued⟩ := encodeToken_eq_ok.mp henc
  have hdecodes {v : VerifiedToken} :=
    decodeSigned_issued_iff hissued hsize (hverify _ _ hissued.signed) (v := v)
  constructor
  · rintro ⟨v, hv, hsame⟩
    obtain ⟨s, hs, rfl⟩ := hdecodes.mp hv
    obtain ⟨hok, -⟩ := decode_written_ok hissued.payload hs
    obtain ⟨hcatu, hcath⟩ := h.keysGiven_iff.mp hok.keys
    have hread := h.decoded hlimits hissued.construction hissued.payload hs
    obtain ⟨hcoord, hhash, hcnf, hdpop⟩ :=
      sameRestrictions_asRead.mp ((SameRestrictions.congr hread).mpr hsame)
    exact ⟨h.probability hok, hcatu, hcath, hcoord, hhash, hcnf, hdpop⟩
  · intro hok
    obtain ⟨s, hs⟩ := h.decode hlimits hissued.construction hissued.payload
      ((length_payload_le hissued).trans hsize) hok.catpor
      (h.keysGiven_iff.mpr ⟨hok.catu, hok.cath⟩)
    have hread := h.decoded hlimits hissued.construction hissued.payload hs
    refine ⟨_, hdecodes.mpr ⟨s, hs, rfl⟩, (SameRestrictions.congr hread).mp ?_⟩
    exact sameRestrictions_asRead.mpr ⟨hok.catgeocoord, hok.geohash, hok.cnf, hok.catdpop⟩

end

/-- A MAC by the front of the input. -/
def frontAlgorithm : CryptographicAlgorithm where
  algorithmId := algHmac256_256
  sign input := .ok (input.take 4)
  verify input signature :=
    if constantTimeEq signature (input.take 4) then .ok () else .error .signatureVerificationFailed

theorem frontAlgorithm_verify (input signature : Bytes)
    (h : frontAlgorithm.sign input = .ok signature) :
    frontAlgorithm.verify input signature = .ok () := by
  obtain rfl := Except.ok.inj h
  exact if_pos (constantTimeEq_iff.mpr rfl)

/-- A token for the hosts that these patterns match. -/
def hostToken (patterns : List MatchValue) : CatToken :=
  { CatToken.new with cat := { catu := some [⟨1, patterns⟩] } }

theorem hostToken_flat (patterns : List MatchValue) : (hostToken patterns).Flat :=
  ⟨rfl, rfl, rfl, rfl, rfl, fun _ h => absurd h (by simp [hostToken, CatToken.new])⟩

def hostTokenBytes : Bytes := [0xd1, 0x84, 0x48, 0xa2, 0x01, 0x05, 0x10, 0x63, 0x43, 0x41, 0x54, 0xa0,
  0x4a, 0xa1, 0x19, 0x01, 0x38, 0xa1, 0x01, 0xa1, 0x00, 0x61, 0x61, 0x44, 0x84, 0x64, 0x4d, 0x41]

theorem encodeToken_decodes_iff_host :
    (∃ v, (Decoder.withAlgorithm frontAlgorithm).decodeSigned .reference hostTokenBytes = .ok v ∧
        SameRestrictions (hostToken [.exact "a"]) v.claims) ↔ (hostToken [.exact "a"]).Readable := by
  refine encodeToken_decodes_iff (hostToken_flat _) ⟨?_, ?_⟩ frontAlgorithm_verify
    (by decide +kernel) (by decide)
  · intro d hd
    obtain rfl := List.mem_singleton.mp hd
    trivial
  · exact ⟨by decide, by decide, by decide, by decide⟩

/-- A token to be rejected with a probability of two. -/
def twiceRejected : CatToken :=
  { CatToken.new with cat := { catpor := some ⟨F64.ofInt 2, [], none⟩ } }

def twiceRejectedBytes : Bytes := [0xd1, 0x84, 0x48, 0xa2, 0x01, 0x05, 0x10, 0x63, 0x43, 0x41, 0x54,
  0xa0, 0x47, 0xa1, 0x19, 0x01, 0x35, 0x82, 0x02, 0x40, 0x44, 0x84, 0x64, 0x4d, 0x41]

/-- It is signed, and then refused. -/
theorem encodeToken_not_decodes :
    ¬∀ (H : Host) (t : CatToken) (algorithm : CryptographicAlgorithm) (b : Bytes), t.Flat →
      t.WithinLimits .default →
      (∀ input signature, algorithm.sign input = .ok signature →
        algorithm.verify input signature = .ok ()) →
      encodeToken H t algorithm = .ok b → b.length ≤ maxTokenSize →
      ∃ v, (Decoder.withAlgorithm algorithm).decodeSigned H b = .ok v ∧
        SameRestrictions t v.claims := by
  intro h
  have hflat : twiceRejected.Flat :=
    ⟨rfl, rfl, rfl, rfl, rfl, fun _ h => absurd h (by simp [twiceRejected, CatToken.new])⟩
  have hlimits : twiceRejected.WithinLimits .default := by
    constructor
    · intro d hd
      obtain rfl := List.mem_singleton.mp hd
      trivial
    · exact ⟨by decide, by decide, by decide, by decide⟩
  obtain ⟨v, hv, -⟩ := h .reference twiceRejected frontAlgorithm twiceRejectedBytes hflat hlimits
    frontAlgorithm_verify (by decide +kernel) (by decide)
  have hrefused : ((Decoder.withAlgorithm frontAlgorithm).decodeSigned .reference
      twiceRejectedBytes).isOk = false := by decide +kernel
  rw [hv] at hrefused
  cases hrefused

end Cat
