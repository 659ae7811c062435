import Cat.Cwt.CustomFrame
import Cat.Moqt.ScopesRead
import Cat.Token.ScalarSets

/-!
# Four operators deep

The profile asks for composites nested four deep at least, and the validator allows for ten. On
the wire four are too many for the default nesting limit if a claim set in the innermost carries
a claim: with the token's map that makes nine containers, one inside the other, and the limit is
eight. `nested_supported_iff` says so of every token whose claim sets are scalar: its composites
encode and decode along with the rest of it just when nothing stands that deep.

Operators and containers are counted by different functions for different reasons. What an
operator costs on the wire is two containers, an array and the map of a claim set, and a claim
set that is empty is a map with nothing in it, which stops the count one short. So the condition
is not on the depth of the operators alone.

The token is cut in two, its composites and the rest of it, since nothing is asked of the rest
but that it is encoded and decoded by itself. `ScalarSets` has what the composites come to; here
they are put back into a token.
-/

set_option autoImplicit false

namespace Cat

open Cbor DecodeCounters

/-! ## The composites of a token and the rest of it

The claims of a token are those of its composites and the others, and encoding, costs and keys
are sums or conjunctions over the two.
-/

/-- The composite that a claim is. -/
def DecodedClaim.composite? : DecodedClaim → Option CompositeClaim
  | .orClaim c | .norClaim c | .andClaim c => some c
  | _ => none

def CatToken.withoutComposites (t : CatToken) : CatToken := { t with composite := .default }

/-- The composites that no custom claim has taken the label of. -/
def CatToken.writtenComposites (t : CatToken) : List CompositeClaim :=
  t.claims.filterMap DecodedClaim.composite?

/-- What reading these composites costs, if their claim sets are scalar. -/
def CatToken.compositesCost (t : CatToken) : DecodeCounters :=
  (t.writtenComposites.map fun c => itemCost 1 + c.cost).sum

section
variable {H : Host} {t : CatToken} {d : DecodedClaim} {c : CompositeClaim}

theorem DecodedClaim.encode_composite (h : d.composite? = some c) :
    d.encode H = (encodeCompositeClaim H c).map some := by
  cases d with
  | orClaim x | norClaim x | andClaim x =>
    obtain rfl := Option.some.inj h
    rfl
  | _ => cases h

theorem DecodedClaim.isCompositeKey_of_composite (h : d.composite? = some c) :
    isCompositeKey (i64Value d.label) = true := by
  cases d with
  | orClaim x | norClaim x | andClaim x =>
    simp only [DecodedClaim.label]
    decide
  | _ => cases h

theorem has_withoutComposites :
    t.withoutComposites.Has d ↔ t.Has d ∧ d.composite? = none := by
  cases d with
  | orClaim x | norClaim x | andClaim x =>
    constructor
    · intro h
      cases h
    · rintro ⟨-, h⟩
      cases h
  | catgeocoord x | geohash x | catifdata x | cnf x | catif x | catr x =>
    cases x <;> exact (and_iff_left rfl).symm
  | _ => exact (and_iff_left rfl).symm

theorem mem_claims_withoutComposites :
    d ∈ t.withoutComposites.claims ↔ d ∈ t.claims ∧ d.composite? = none := by
  rw [mem_claims, mem_claims, has_withoutComposites]
  show _ ∧ _ ∧ (_ → _ ∉ t.custom.labels) ↔ _
  exact and_right_comm

/-- **A token's claims are its composites and the rest.** -/
theorem claims_perm (t : CatToken) : t.claims.Perm (t.withoutComposites.claims ++
    t.claims.filter fun d => d.composite?.isSome) := by
  have hrest : t.withoutComposites.claims.Perm
      (t.claims.filter fun d => !d.composite?.isSome) := by
    refine (List.perm_ext_iff_of_nodup (claims_nodup _).of_map
      ((claims_nodup t).of_map.filter _)).mpr fun d => ?_
    rw [mem_claims_withoutComposites, List.mem_filter, Bool.not_eq_true',
      Option.isSome_eq_false_iff, Option.isNone_iff_eq_none]
  refine List.Perm.trans ?_ (hrest.append_right _).symm
  exact (List.filter_append_perm _ t.claims).symm.trans List.perm_append_comm

theorem writtenComposites_eq (t : CatToken) : t.writtenComposites =
    (t.claims.filter fun d => d.composite?.isSome).filterMap DecodedClaim.composite? := by
  unfold CatToken.writtenComposites
  rw [List.filterMap_filter]
  refine List.filterMap_congr fun d _ => ?_
  cases d.composite? <;> rfl

theorem mem_writtenComposites :
    c ∈ t.writtenComposites ↔ ∃ d ∈ t.claims, d.composite? = some c := List.mem_filterMap

/-- A composite of the token is one of its three. -/
theorem composite_of_has (hd : t.Has d) (hc : d.composite? = some c) :
    t.composite.orClaim = some c ∨ t.composite.norClaim = some c ∨
      t.composite.andClaim = some c := by
  cases d with
  | orClaim x =>
    obtain rfl := Option.some.inj hc
    exact .inl hd
  | norClaim x =>
    obtain rfl := Option.some.inj hc
    exact .inr (.inl hd)
  | andClaim x =>
    obtain rfl := Option.some.inj hc
    exact .inr (.inr hd)
  | _ => cases hc

theorem getDepth_le_max (hd : t.Has d) (hc : d.composite? = some c) :
    c.getDepth ≤ t.composite.getMaxDepth := by
  unfold CompositeClaims.getMaxDepth
  rcases composite_of_has hd hc with h | h | h
  · rw [h]
    exact Nat.le_trans (Nat.le_max_left _ _) (Nat.le_max_left _ _)
  · rw [h]
    exact Nat.le_trans (Nat.le_max_right _ _) (Nat.le_max_left _ _)
  · rw [h]
    exact Nat.le_max_right _ _

theorem mem_claimSets_of_has (hd : t.Has d) (hc : d.composite? = some c) {u : CatToken}
    (hu : u ∈ c.claimSets) : u ∈ t.composite.claimSets := by
  unfold CompositeClaims.claimSets
  rw [List.mem_append, List.mem_append]
  rcases composite_of_has hd hc with h | h | h
  · rw [h]
    exact .inl (.inl hu)
  · rw [h]
    exact .inl (.inr hu)
  · rw [h]
    exact .inr hu

end

/-! ## Scalar composites, four deep at most

What is assumed of a token, none of it about depth on the wire: what the composites are made of,
and that everything is within the limits on sizes and counts.
-/

/-- Composites of depth four at most, and only scalar claim sets in them. -/
structure CatToken.NestsFour (t : CatToken) : Prop where
  depth : t.composite.getMaxDepth ≤ 4
  scalar : ∀ u ∈ t.composite.claimSets, u.ScalarCore

/-- The sizes and counts are within the default limits: those of the payload, of the payload without
    its composites and of the claim sets, and what is counted in both together. Custom values are
    nested within the reader's own limit. -/
structure CatToken.WithinDefaults (H : Host) (t : CatToken) : Prop where
  payload : ∀ b, encodePayload H t = .ok b → b.length ≤ CwtLimits.default.maxCborPayloadSize
  rest : ∀ b, encodePayload H t.withoutComposites = .ok b →
    b.length ≤ CwtLimits.default.maxCborPayloadSize
  sets : ∀ u ∈ t.composite.claimSets, u.ScalarsFit .default
  counts : ∀ b s c, encodePayload H t.withoutComposites = .ok b →
    decodePayloadWithLimitsAndCounters H .default b {} = .ok (s, c) →
      Within .default (c + t.compositesCost)
  custom : ∀ e ∈ t.custom.entries, e.2.height + 1 < cborMaxRecursionDepth

section
variable {H : Host} {t : CatToken} {d : DecodedClaim} {c : CompositeClaim} {v : Value}

theorem CatToken.NestsFour.nests (h : t.NestsFour) (hd : t.Has d) (hc : d.composite? = some c) :
    c.NestsAtMost 4 ∧ ∀ u ∈ c.claimSets, u.ScalarCore := by
  have hle := Nat.le_trans (getDepth_le_max hd hc) h.depth
  exact ⟨nestsAtMost_of_getDepth hle (by decide),
    fun u hu => h.scalar u (mem_claimSets_of_has hd hc hu)⟩

theorem height_networkIdentifier {n : NetworkIdentifier} (h : encodeNetworkIdentifier n = .ok v) :
    v.height ≤ 2 := by
  cases n with
  | ipAddress a =>
    cases a <;>
    · obtain rfl := Except.ok.inj h
      simp [Value.height]
  | ipPrefix a len =>
    unfold encodeNetworkIdentifier at h
    dsimp only at h
    split at h
    · cases h
    · obtain rfl := Except.ok.inj h
      simp [Value.height, Value.heightEntries, natValue]
  | asn n =>
    obtain rfl := Except.ok.inj h
    exact Nat.zero_le _
  | asnRange start stop =>
    obtain rfl := Except.ok.inj h
    simp [Value.height, Value.heightList, u32Value, natValue]

/-- The claims that are no composites are nested less than the reader allows. -/
theorem height_rest (hcustom : ∀ e ∈ t.custom.entries, e.2.height + 1 < cborMaxRecursionDepth)
    (hd : t.Has d) (hc : d.composite? = none) (hv : d.encode H = .ok (some v)) :
    v.height + 1 < cborMaxRecursionDepth := by
  have hshallow {n : Nat} (h : v.height ≤ n) (hn : n ≤ 4) : v.height + 1 < cborMaxRecursionDepth :=
    Nat.lt_of_le_of_lt (Nat.succ_le_succ (Nat.le_trans h hn)) (by decide)
  cases d with
  | orClaim x | norClaim x | andClaim x => cases hc
  | custom id hid x =>
    obtain rfl := Option.some.inj (Except.ok.inj hv)
    exact hcustom _ hd
  | moqt ss => exact hshallow (encode_moqt_height hv) (Nat.le_refl _)
  | catnip ns =>
    have hv' : encodeCatnip (CatToken.new.assign (.catnip ns)) = .ok (some v) := hv
    obtain ⟨ns', -, h⟩ := whenSome_eq_ok.mp hv'
    obtain ⟨vs, hvs, h⟩ := Except.bind_eq_ok.mp h
    obtain rfl := Except.pure_eq_ok.mp h
    refine hshallow (Value.height_array (n := 2) fun w hw => ?_) (by decide)
    obtain ⟨n, -, hn⟩ := (Except.mapM'_eq_ok.mp hvs).exists_of_mem_right hw
    exact height_networkIdentifier hn
  | _ => exact hshallow (height_flat hv rfl rfl) (by decide)

/-! ## Encoding

Adding composites to a token that is encoded gives one that is encoded: they can always be
written.
-/

/-- **What it takes for a payload to be written**: every claim is encoded, to a value that can be
    written. -/
theorem encodePayload_isOk_iff (hall : H.cbor.WritesAll) : (∃ b, encodePayload H t = .ok b) ↔
    (∀ d, some d ∈ t.standard → ∃ r, d.encode H = .ok r) ∧ t.claims.length < 2 ^ 64 ∧
      ∀ d ∈ t.claims, ∀ v, d.encode H = .ok (some v) → v.Writable := by
  rw [← claimsMap_isOk_iff]
  have hwritable {m : List (Int64 × Value)}
      (hm : claimsMap (compositeValues H t.composite) t = .ok m) : (claimsValue m).Writable ↔
        t.claims.length < 2 ^ 64 ∧ ∀ d ∈ t.claims, ∀ v, d.encode H = .ok (some v) → v.Writable := by
    obtain ⟨ds, hperm, hds⟩ := claimsMap_claims hm
    rw [claimsValue, Value.writable_map, List.length_map, hds.length_eq, hperm.length_eq,
      List.forall_mem_map]
    refine and_congr_right fun _ => ⟨fun h d hd v hv => ?_, fun h e he => ?_⟩
    · exact (h _ ((mem_claimsMap hm).mpr ⟨d, hd, rfl, hv⟩)).2
    · obtain ⟨d, hd, -, hv⟩ := (mem_claimsMap hm).mp he
      exact ⟨Value.writable_integer _, h d hd _ hv⟩
  constructor
  · rintro ⟨b, hb⟩
    obtain ⟨m, hm, hw⟩ := encodePayload_ok hb
    exact ⟨⟨m, hm⟩, (hwritable hm).mp (H.cbor.writable_of_write hw)⟩
  · rintro ⟨⟨m, hm⟩, h⟩
    obtain ⟨b, hb⟩ := hall ((hwritable hm).mpr h)
    refine ⟨b, ?_⟩
    rw [encodePayload_eq]
    exact Except.bind_eq_ok.mpr ⟨m, hm, Failure.lift_eq_ok.mpr (writeCbor_eq_ok.mpr hb)⟩

theorem standard_withoutComposites : some d ∈ t.withoutComposites.standard ↔
    some d ∈ t.standard ∧ d.composite? = none := by
  rw [mem_standard, mem_standard, has_withoutComposites]
  exact and_right_comm

/-- What is left of a token that is encoded is encoded. -/
theorem encode_withoutComposites (hall : H.cbor.WritesAll) {b : Bytes}
    (h : encodePayload H t = .ok b) : ∃ b, encodePayload H t.withoutComposites = .ok b := by
  obtain ⟨hstd, hlen, hclaims⟩ := (encodePayload_isOk_iff hall).mp ⟨b, h⟩
  refine (encodePayload_isOk_iff hall).mpr ⟨fun d hd => ?_, ?_, fun d hd => ?_⟩
  · exact hstd d (standard_withoutComposites.mp hd).1
  · have hlength := (claims_perm t).length_eq
    rw [List.length_append] at hlength
    omega
  · exact hclaims d (mem_claims_withoutComposites.mp hd).1

theorem length_le_items {α : Type} (f : α → DecodeCounters) (as : List α) :
    as.length ≤ (as.map fun a => itemCost 1 + f a).sum.totalItems := by
  induction as with
  | nil => exact Nat.zero_le _
  | cons a as ih =>
    rw [List.map_cons, List.sum_cons]
    show as.length + 1 ≤ 1 + (f a).totalItems + _
    omega

/-- With its composites a token is encoded if it is without them. -/
theorem CatToken.NestsFour.encode (hall : H.cbor.WritesAll) (h : t.NestsFour)
    (hsets : ∀ u ∈ t.composite.claimSets, u.ScalarsFit .default)
    (hwithin : Within .default (t.withoutComposites.readCost H .default + t.compositesCost)) {b : Bytes}
    (hb : encodePayload H t.withoutComposites = .ok b) : ∃ b, encodePayload H t = .ok b := by
  obtain ⟨hstd, hlen, hclaims⟩ := (encodePayload_isOk_iff hall).mp ⟨b, hb⟩
  refine (encodePayload_isOk_iff hall).mpr ⟨fun d hd => ?_, ?_, fun d hd v hv => ?_⟩
  · cases hc : d.composite? with
    | none => exact hstd d (standard_withoutComposites.mpr ⟨hd, hc⟩)
    | some c =>
      obtain ⟨hn, hscalar⟩ := h.nests (mem_standard.mp hd).1 hc
      obtain ⟨v, hv⟩ := encode_scalars hall hn hscalar fun u hu =>
        hsets u (mem_claimSets_of_has (mem_standard.mp hd).1 hc hu)
      exact ⟨some v, by rw [DecodedClaim.encode_composite hc, hv]; rfl⟩
  · -- every claim counts as an item, and there are not so many
    have hlength := (claims_perm t).length_eq
    have hrest := length_le_items (DecodedClaim.readCost H .default) t.withoutComposites.claims
    have hcomposites := length_le_items CompositeClaim.cost t.writtenComposites
    have hitems : (t.withoutComposites.readCost H .default).totalItems +
        t.compositesCost.totalItems ≤ 10000 := hwithin.items
    have heq : (t.claims.filter fun d => d.composite?.isSome).length = t.writtenComposites.length := by
      rw [writtenComposites_eq]
      refine (List.filterMap_length_eq_length.mpr fun d hd => ?_).symm
      exact (List.mem_filter.mp hd).2
    rw [List.length_append, heq] at hlength
    unfold CatToken.readCost CatToken.compositesCost at hitems
    omega
  · cases hc : d.composite? with
    | none => exact hclaims d (mem_claims_withoutComposites.mpr ⟨hd, hc⟩) v hv
    | some c =>
      have hhas := (mem_claims.mp hd).1
      obtain ⟨hn, hscalar⟩ := h.nests hhas hc
      rw [DecodedClaim.encode_composite hc] at hv
      obtain ⟨w, hw, heq⟩ := Except.map_eq_ok.mp hv
      obtain rfl := Option.some.inj heq
      refine writable_scalars hn hscalar hw ?_
      have hmem : c ∈ t.writtenComposites := mem_writtenComposites.mpr ⟨d, hd, hc⟩
      rw [add_comm] at hwithin
      have hcost := within_of_mem_sum hwithin.of_add (List.mem_map_of_mem hmem)
      rw [add_comm] at hcost
      exact hcost.of_add

/-! ## Decoding

The rest of the token is decoded by assumption, the composites by `ScalarSets`. What can go
wrong with both in one payload is the nesting check, which looks at the payload as a whole.
-/

theorem CompositeClaim.keysGiven_iff : c.KeysGiven ↔ ∀ cs ∈ c.claims, cs.KeysGiven := by
  obtain ⟨op, claims⟩ := c
  rw [KeysGiven]
  induction claims with
  | nil => simp [allKeysGiven]
  | cons cs css ih => rw [allKeysGiven, ih, List.forall_mem_cons]

theorem keysGiven_scalars {n : Nat} : ∀ {c : CompositeClaim}, c.NestsAtMost n →
    (∀ u ∈ c.claimSets, u.ScalarCore) → c.KeysGiven := by
  induction n with
  | zero => exact fun hn => hn.elim
  | succ n ih =>
    intro c hn hsets
    rw [CompositeClaim.keysGiven_iff]
    intro cs hcs
    have hmem : ∀ u ∈ cs.claimSets, u.ScalarCore :=
      fun u hu => hsets u (CompositeClaim.mem_claimSets.mpr ⟨cs, hcs, hu⟩)
    cases cs with
    | token u =>
      refine CatToken.ScalarCore.keysGiven (hmem u ?_)
      rw [ClaimSet.claimSets, u.claimSets_eq]
      exact List.mem_cons_self
    | composite c' =>
      rw [ClaimSet.claimSets] at hmem
      exact ih (hn c' hcs) hmem

theorem labels_withoutComposites {k : Int64} (h : k ∈ t.withoutComposites.labels) :
    k ∈ t.labels := by
  unfold CatToken.labels at h ⊢
  refine List.mem_append.mpr ((List.mem_append.mp h).imp_left fun h => ?_)
  obtain ⟨⟨k, p⟩, he, rfl⟩ := List.mem_map.mp h
  obtain ⟨hmem, rfl⟩ := List.mem_filter.mp he
  refine List.mem_map.mpr ⟨(k, true), List.mem_filter.mpr ⟨?_, rfl⟩, rfl⟩
  -- the lists differ in the composites only, which the rest of the token has not
  have hsplit : (k, true) ∈ t.standardClaims.take 27 ++
      [(claimOr, false), (claimNor, false), (claimAnd, false)] := hmem
  rcases List.mem_append.mp hsplit with hfront | hback
  · exact List.mem_of_mem_take hfront
  · simp at hback

/-- **The keys of a token are given** when those of the rest are, and no negative label stands among
    others: scalar claim sets have nothing to object to. -/
theorem CatToken.NestsFour.keysGiven_iff (h : t.NestsFour) :
    t.KeysGiven ↔ t.withoutComposites.KeysGiven ∧ NegativeAlone t.labels := by
  have hcomposite {g : CompositeClaim → DecodedClaim} (hg : ∀ c, (g c).composite? = some c)
      {x : Option CompositeClaim} (hx : ∀ c, x = some c → t.Has (g c)) : keysGiven? x := by
    cases x with
    | none => trivial
    | some c =>
      obtain ⟨hn, hscalar⟩ := h.nests (hx c rfl) (hg c)
      exact keysGiven_scalars hn hscalar
  rw [Cat.keysGiven_iff, Cat.keysGiven_iff]
  constructor
  · rintro ⟨hk, -⟩
    have halone : NegativeAlone t.withoutComposites.labels := fun a ha hneg b hb =>
      hk.labels a (labels_withoutComposites ha) hneg b (labels_withoutComposites hb)
    exact ⟨⟨⟨halone, hk.catu, hk.cath, hk.catif, hk.custom⟩, fun _ => trivial, fun _ => trivial,
      fun _ => trivial⟩, hk.labels⟩
  · rintro ⟨⟨hk, -⟩, halone⟩
    refine ⟨⟨halone, hk.catu, hk.cath, hk.catif, hk.custom⟩, fun _ => ?_, fun _ => ?_, fun _ => ?_⟩
    · exact hcomposite (g := .orClaim) (fun _ => rfl) fun c hc => hc
    · exact hcomposite (g := .norClaim) (fun _ => rfl) fun c hc => hc
    · exact hcomposite (g := .andClaim) (fun _ => rfl) fun c hc => hc

/-- A claim takes up part of the payload. -/
theorem written_claim {b : Bytes} (hb : encodePayload H t = .ok b) (hd : d ∈ t.claims)
    (hv : d.encode H = .ok (some v)) : ∃ x, v.WrittenAs x ∧ x.wire.length ≤ b.length := by
  obtain ⟨m, hm, hw⟩ := encodePayload_ok hb
  obtain ⟨_, ⟨xs, rfl, -, hxs⟩, rfl⟩ := H.cbor.write_sound hw
  have hmem : (i64Value d.label, v) ∈ m.map fun e => (i64Value e.1, e.2) :=
    List.mem_map.mpr ⟨(d.label, v), (mem_claimsMap hm).mpr ⟨d, hd, rfl, hv⟩, rfl⟩
  obtain ⟨x, hx, hle⟩ := hxs.mem hmem
  refine ⟨x, hx, Nat.le_trans hle ?_⟩
  rw [Item.wire, List.length_append]
  exact Nat.le_add_left _ _

/-- A composite that is read under its label is read as a claim. -/
theorem reads_composite (hc : d.composite? = some c) (hv : encodeCompositeClaim H c = .ok v)
    (hnormal : v.Normal) {limits : CwtLimits} (hw : Within limits c.cost)
    (hread : ∀ id, isCompositeKey (i64Value id) = true → ∃ c',
      Returns limits (payloadComposites H limits id v 0) c' c.cost) :
    ∃ d', ReadsAs H limits d d' c.cost := by
  obtain ⟨vs, rfl, -⟩ := encodeCompositeClaim_eq_ok.mp hv
  have harm (g : CompositeClaim → DecodedClaim) (id : Int64) (c' : CompositeClaim)
      (hret : Returns limits (payloadComposites H limits id (.array vs) 0) c' c.cost) :
      Returns limits (do
        (rejectUnexpectedTag (.array vs) "composite" : Except CatError Unit)
        return g (← payloadComposites H limits id (.array vs) 0)) (g c') c.cost := by
    have hbind := hret.bind (f := fun c => pure (g c)) (.ret _)
    rw [add_zero] at hbind
    have hlift : Returns limits (rejectUnexpectedTag (.array vs) "composite" : Decode Unit) () 0 :=
      .lift rfl
    have hall := hlift.bind
      (f := fun _ => payloadComposites H limits id (.array vs) 0 >>= fun c => pure (g c)) hbind
    rwa [zero_add] at hall
  obtain ⟨c', hc'⟩ := hread d.label (DecodedClaim.isCompositeKey_of_composite hc)
  have hencode := DecodedClaim.encode_composite (H := H) hc
  rw [hv] at hencode
  cases d with
  | orClaim x =>
    refine ⟨.orClaim c', rfl, hw, _, hencode, fun n _ => ?_⟩
    rw [hnormal]
    exact harm .orClaim _ c' hc'
  | norClaim x =>
    refine ⟨.norClaim c', rfl, hw, _, hencode, fun n _ => ?_⟩
    rw [hnormal]
    exact harm .norClaim _ c' hc'
  | andClaim x =>
    refine ⟨.andClaim c', rfl, hw, _, hencode, fun n _ => ?_⟩
    rw [hnormal]
    exact harm .andClaim _ c' hc'
  | _ => cases hc

/-- The composites of a payload that is within the limits are read. -/
theorem CatToken.NestsFour.reads (h : t.NestsFour) (hlimits : t.WithinDefaults H) {b : Bytes}
    (hb : encodePayload H t = .ok b) (hd : d ∈ t.claims) (hc : d.composite? = some c)
    (hw : Within .default c.cost) : ∃ d', ReadsAs H .default d d' c.cost := by
  have hhas := (mem_claims.mp hd).1
  obtain ⟨hn, hscalar⟩ := h.nests hhas hc
  obtain ⟨m, hm, -⟩ := encodePayload_ok hb
  obtain ⟨w, hw'⟩ := encode_of_mem_claims hm hd
  have henc := hw'
  rw [DecodedClaim.encode_composite hc] at henc
  obtain ⟨v, hv, heq⟩ := Except.map_eq_ok.mp henc
  obtain rfl := Option.some.inj heq
  obtain ⟨x, hx, hle⟩ := written_claim hb hd hw'
  have hsize := size_scalars hn hscalar hv hx
  refine reads_composite hc hv (normal_scalars hn hscalar hv) hw fun id hid => ?_
  refine returns_scalars hn hscalar hv (fun u hu => hlimits.sets u (mem_claimSets_of_has hhas hc hu))
    (fun u hu b' hb' => ?_) hw _ 0 id (by decide) (by decide) hid
  exact Nat.le_trans (hsize u hu b' hb') (Nat.le_trans hle (hlimits.payload b hb))

theorem readCost_withoutComposites (t : CatToken) : t.readCost H .default =
    t.withoutComposites.readCost H .default + ((t.claims.filter fun d => d.composite?.isSome).map
      fun d => itemCost 1 + d.readCost H .default).sum := by
  unfold CatToken.readCost
  rw [((claims_perm t).map _).sum_eq, List.map_append, List.sum_append]

theorem sum_composites {f : DecodedClaim → DecodeCounters} {ds : List DecodedClaim}
    (h : ∀ d ∈ ds, ∃ c, d.composite? = some c ∧ f d = itemCost 1 + c.cost) :
    (ds.map f).sum =
      ((ds.filterMap DecodedClaim.composite?).map fun c => itemCost 1 + c.cost).sum := by
  induction ds with
  | nil => rfl
  | cons d ds ih =>
    rw [List.forall_mem_cons] at h
    obtain ⟨⟨c, hc, hf⟩, hrest⟩ := h
    rw [List.map_cons, List.sum_cons, hf, ih hrest, List.filterMap_cons_some hc, List.map_cons,
      List.sum_cons]

theorem countP_withoutComposites (t : CatToken) : t.claims.countP DecodedClaim.staysCustom =
    t.withoutComposites.claims.countP DecodedClaim.staysCustom := by
  have hnone : (t.claims.filter fun d => d.composite?.isSome).countP DecodedClaim.staysCustom = 0 := by
    refine List.countP_eq_zero.mpr fun d hd => ?_
    obtain ⟨c, hc⟩ := Option.isSome_iff_exists.mp (List.mem_filter.mp hd).2
    rw [DecodedClaim.staysCustom, DecodedClaim.isCompositeKey_of_composite hc, Bool.not_true,
      Bool.and_false]
    exact Bool.false_ne_true
  rw [(claims_perm t).countP_eq, List.countP_append, hnone, Nat.add_zero]

/-- How deep the nesting check comes in a composite of the token. -/
theorem CatToken.NestsFour.walkDepth (h : t.NestsFour) (hd : d ∈ t.claims)
    (hc : d.composite? = some c) (hv : d.encode H = .ok (some v)) :
    Cat.walkDepth v.readBack < CwtLimits.default.maxNestingDepth ↔ ¬c.CarriesAt 3 := by
  obtain ⟨hn, hscalar⟩ := h.nests (mem_claims.mp hd).1 hc
  rw [DecodedClaim.encode_composite hc] at hv
  obtain ⟨w, hw, heq⟩ := Except.map_eq_ok.mp hv
  obtain rfl := Option.some.inj heq
  rw [normal_scalars hn hscalar hw, ← walkDepth_scalars hn hscalar hw]
  exact Nat.lt_succ_iff

/-- What is left of a token that is decoded is decoded. -/
theorem Decodable.withoutComposites {b b₀ : Bytes} (hok : Decodable H .default t b) (h : t.NestsFour)
    (hlimits : t.WithinDefaults H) (hb₀ : encodePayload H t.withoutComposites = .ok b₀) :
    Decodable H .default t.withoutComposites b₀ := by
  have hrest {d : DecodedClaim} (hd : d ∈ t.withoutComposites.claims) :=
    mem_claims_withoutComposites.mp hd
  refine ⟨hlimits.rest b₀ hb₀, readable_of_height hb₀ fun d hd v hv => ?_,
    fun d hd => hok.depth_le d (hrest hd).1, (h.keysGiven_iff.mp hok.keys).1,
    fun d hd => hok.reads d (hrest hd).1, ?_, ?_⟩
  · exact height_rest hlimits.custom (mem_claims.mp (hrest hd).1).1 (hrest hd).2 hv
  · rw [← countP_withoutComposites]
    exact hok.room
  · have hwithin := hok.within
    rw [readCost_withoutComposites] at hwithin
    exact hwithin.of_add

/-- And with its composites, where they are not too deep. -/
theorem Decodable.withComposites {b b₀ : Bytes} (hok : Decodable H .default t.withoutComposites b₀)
    (h : t.NestsFour) (hlimits : t.WithinDefaults H) (hb : encodePayload H t = .ok b)
    (hwithin : Within .default (t.withoutComposites.readCost H .default + t.compositesCost))
    (halone : NegativeAlone t.labels) (hdepth : ∀ c ∈ t.writtenComposites, ¬c.CarriesAt 3) :
    Decodable H .default t b := by
  have hcost {c : CompositeClaim} {d : DecodedClaim} (hd : d ∈ t.claims)
      (hc : d.composite? = some c) : Within .default c.cost := by
    have hmem := mem_writtenComposites.mpr ⟨d, hd, hc⟩
    rw [add_comm] at hwithin
    have hcost := within_of_mem_sum hwithin.of_add (List.mem_map_of_mem hmem)
    rw [add_comm] at hcost
    exact hcost.of_add
  refine ⟨hlimits.payload b hb, readable_of_height hb fun d hd v hv => ?_, fun d hd v hv => ?_,
    h.keysGiven_iff.mpr ⟨hok.keys, halone⟩, fun d hd => ?_, ?_, ?_⟩
  · cases hc : d.composite? with
    | none => exact height_rest hlimits.custom (mem_claims.mp hd).1 hc hv
    | some c =>
      obtain ⟨hn, hscalar⟩ := h.nests (mem_claims.mp hd).1 hc
      rw [DecodedClaim.encode_composite hc] at hv
      obtain ⟨w, hw, heq⟩ := Except.map_eq_ok.mp hv
      obtain rfl := Option.some.inj heq
      exact Nat.lt_of_le_of_lt (Nat.succ_le_succ (height_scalars hn hscalar hw)) (by decide)
  · cases hc : d.composite? with
    | none => exact hok.depth_le d (mem_claims_withoutComposites.mpr ⟨hd, hc⟩) v hv
    | some c => exact (h.walkDepth hd hc hv).mpr (hdepth c (mem_writtenComposites.mpr ⟨d, hd, hc⟩))
  · cases hc : d.composite? with
    | none => exact hok.reads d (mem_claims_withoutComposites.mpr ⟨hd, hc⟩)
    | some c =>
      obtain ⟨d', hd'⟩ := h.reads hlimits hb hd hc (hcost hd hc)
      exact ⟨d', _, hd'⟩
  · rw [countP_withoutComposites]
    exact hok.room
  · rw [readCost_withoutComposites, sum_composites fun d hd => ?_, ← writtenComposites_eq]
    · exact hwithin
    · obtain ⟨hmem, hsome⟩ := List.mem_filter.mp hd
      obtain ⟨c, hc⟩ := Option.isSome_iff_exists.mp hsome
      obtain ⟨d', hd'⟩ := h.reads hlimits hb hmem hc (hcost hmem hc)
      exact ⟨c, hc, by rw [hd'.cost_eq]⟩

/-- **Which composites of depth four are supported.** A token with composites four operators deep at
    most over scalar claim sets encodes, and is decoded with the default limits, exactly when it does
    without its composites, no custom claim with a negative label is put beside them, and no claim
    set in a fourth operator carries a claim.

    One limit on nesting is meant to leave room for four operators. It counts containers, and an
    operator takes two of them, the array of its claim sets and the map of each. With the map of the
    token, what stands in the fourth claim set is inside of nine, where eight are allowed. -/
theorem nested_supported_iff (hall : H.cbor.WritesAll) (h : t.NestsFour)
    (hlimits : t.WithinDefaults H) :
    (∃ b, encodePayload H t = .ok b ∧ ∃ s, decodePayload H b = .ok s) ↔
      (∃ b, encodePayload H t.withoutComposites = .ok b ∧ ∃ s, decodePayload H b = .ok s) ∧
        NegativeAlone t.labels ∧ ∀ c ∈ t.writtenComposites, ¬c.CarriesAt 3 := by
  constructor
  · rintro ⟨b, hb, hs⟩
    have hok := (decode_written_iff hb).mp hs
    obtain ⟨b₀, hb₀⟩ := encode_withoutComposites hall hb
    refine ⟨⟨b₀, hb₀, (decode_written_iff hb₀).mpr (hok.withoutComposites h hlimits hb₀)⟩,
      (h.keysGiven_iff.mp hok.keys).2, fun c hc => ?_⟩
    obtain ⟨d, hd, hdc⟩ := mem_writtenComposites.mp hc
    obtain ⟨m, hm, -⟩ := encodePayload_ok hb
    obtain ⟨v, hv⟩ := encode_of_mem_claims hm hd
    exact (h.walkDepth hd hdc hv).mp (hok.depth_le d hd v hv)
  · rintro ⟨⟨b₀, hb₀, s, hs⟩, halone, hdepth⟩
    obtain ⟨⟨s', c₀⟩, hrun, -⟩ := Except.map_eq_ok.mp hs
    obtain ⟨hok, hcost, -⟩ := decodeCounters_written hb₀ hrun
    have hwithin := hlimits.counts b₀ s' c₀ hb₀ hrun
    rw [hcost] at hwithin
    obtain ⟨b, hb⟩ := h.encode hall hlimits.sets hwithin hb₀
    exact ⟨b, hb, (decode_written_iff hb).mpr
      (hok.withComposites h hlimits hb hwithin halone hdepth)⟩

end

/-! ## Four operators around a claim set -/

/-- A disjunction of one. -/
def only (cs : ClaimSet) : CompositeClaim := ⟨.or, [cs]⟩

/-- A token that asks for a claim set four operators deep. -/
def fourDeep (u : CatToken) : CatToken :=
  { CatToken.new with
    composite := ⟨some (only (.composite (only (.composite (only (.composite (only (.token u)))))))),
      none, none⟩ }

theorem fourDeep_claimSets {u : CatToken} (hu : u.composite = .default) :
    (fourDeep u).composite.claimSets = [u] := by
  have hsets : (fourDeep u).composite.claimSets = u.claimSets := by
    simp [fourDeep, only, CompositeClaims.claimSets, claimSets?, CompositeClaim.claimSets,
      claimSetsOf, ClaimSet.claimSets]
  rw [hsets, u.claimSets_eq, hu]
  rfl

theorem fourDeep_nestsFour {u : CatToken} (hu : u.ScalarCore) : (fourDeep u).NestsFour := by
  constructor
  · rfl
  · intro u' hu'
    rw [fourDeep_claimSets hu.flat.composite] at hu'
    obtain rfl := List.mem_singleton.mp hu'
    exact hu

theorem encode_new : encodePayload .reference CatToken.new = .ok [0xa0] := by
  decide +kernel

/-- The sizes and counts of a small claim set are within the limits. -/
theorem fourDeep_within {u : CatToken} (hu : u.ScalarCore) (hfit : u.ScalarsFit .default)
    {b : Bytes} (hb : encodePayload .reference (fourDeep u) = .ok b) (hlen : b.length ≤ 16 * 1024)
    (hcost : Within .default (fourDeep u).compositesCost) :
    (fourDeep u).WithinDefaults .reference where
  payload b' hb' := by
    obtain rfl := Except.ok.inj (hb.symm.trans hb')
    exact hlen
  rest b' hb' := by
    obtain rfl := Except.ok.inj (encode_new.symm.trans hb')
    decide
  sets u' hu' := by
    rw [fourDeep_claimSets hu.flat.composite] at hu'
    obtain rfl := List.mem_singleton.mp hu'
    exact hfit
  counts b' s c hb' hdec := by
    -- without its composites the token is empty, and reading that costs nothing
    obtain ⟨-, hc, -⟩ := decodeCounters_written hb' hdec
    have hzero : (fourDeep u).withoutComposites.readCost .reference .default = 0 := rfl
    rw [hc, hzero, zero_add]
    exact hcost
  custom _ he := absurd he List.not_mem_nil

theorem fourDeep_new_supported : (∃ b, encodePayload .reference (fourDeep .new) = .ok b ∧
    ∃ s, decodePayload .reference b = .ok s) := by
  have hcarry : ∀ c ∈ (fourDeep .new).writtenComposites, ¬c.CarriesAt 3 := by
    intro c hc
    have hwritten : (fourDeep .new).writtenComposites =
      [only (.composite (only (.composite (only (.composite (only (.token .new)))))))] := rfl
    rw [hwritten] at hc
    obtain rfl := List.mem_singleton.mp hc
    simp [CompositeClaim.CarriesAt, only]
    decide
  have hwithin : (fourDeep .new).WithinDefaults .reference :=
    fourDeep_within (b := [0xa1, 0x19, 1, 0x44, 0x81, 0xa1, 0x19, 1, 0x44, 0x81, 0xa1, 0x19, 1, 0x44,
      0x81, 0xa1, 0x19, 1, 0x44, 0x81, 0xa0]) rfl ⟨nofun, nofun⟩ (by decide +kernel) (by decide)
      ⟨by decide, by decide, by decide, by decide⟩
  exact (nested_supported_iff Codec.reference_writesAll (fourDeep_nestsFour (u := .new) rfl)
    hwithin).mpr ⟨⟨_, encode_new, Except.isOk_iff_exists.mp (by decide +kernel)⟩,
      negativeAlone_of_no_custom rfl, hcarry⟩

/-- A claim set with an expiration, in four operators, is encoded and is not decoded. -/
theorem four_operators_refused : ¬∀ (H : Host) (t : CatToken), H.cbor.WritesAll → t.NestsFour →
    t.WithinDefaults H → ∃ b, encodePayload H t = .ok b ∧ ∃ s, decodePayload H b = .ok s := by
  intro hall
  let u : CatToken := { CatToken.new with core := { exp := some 1 } }
  let b : Bytes := [0xa1, 0x19, 1, 0x44, 0x81, 0xa1, 0x19, 1, 0x44, 0x81, 0xa1, 0x19, 1, 0x44, 0x81,
    0xa1, 0x19, 1, 0x44, 0x81, 0xa1, 0x04, 0x01]
  have hb : encodePayload .reference (fourDeep u) = .ok b := by
    decide +kernel
  have hwithin : (fourDeep u).WithinDefaults .reference :=
    fourDeep_within rfl ⟨nofun, nofun⟩ hb (by decide)
      ⟨by decide, by decide, by decide, by decide⟩
  obtain ⟨b', hb', s, hs⟩ := hall .reference (fourDeep u) Codec.reference_writesAll
    (fourDeep_nestsFour rfl) hwithin
  obtain rfl := Except.ok.inj (hb.symm.trans hb')
  have hfail : (decodePayload .reference b).isOk = false := by
    decide +kernel
  rw [hs] at hfail
  cases hfail

end Cat
