import Cat.Cwt.Decode
import Cat.Lib.Lists
import Cat.Lib.Outcome
import Mathlib.Data.List.Chain

/-!
# What a decoded payload is made of

One inversion for the payload decoder, `decodePayloadWithLimits_ok`: the bytes are a CBOR map,
every entry of the map has become a `DecodedClaim` under its own label, the labels are in
deterministic order, and the token is those claims assigned in turn (`DecodesTo`).

Everything said later about a decoded token goes through it and `DecodesTo.assigned`: labels in
strict order are distinct, so a field of the token is what the one entry under its label decodes
to, and absent without one.

The decoder has one arm for each label, and only one fact about an arm is needed here: that the
claim it decodes to is one of its own label. It is proved once, by going through the arms. The
loop over the entries is then an induction in which no arm is looked at, and a new claim of the
profile adds a case to the one lemma and none to the others.
-/

set_option autoImplicit false

namespace Cat

open Cbor

/-! ## Claims by label

Every arm of the match returns a claim of its own kind, so the label of a claim is the label it
stood under.
-/

/-- The label a claim is decoded from. -/
def DecodedClaim.label : DecodedClaim → Int64
  | .iss _ => claimIss
  | .aud _ => claimAud
  | .exp _ => claimExp
  | .nbf _ => claimNbf
  | .cti _ => claimCti
  | .catreplay _ => claimCatreplay
  | .catpor _ => claimCatpor
  | .catv _ => claimCatv
  | .catnip _ => claimCatnip
  | .catu _ => claimCatu
  | .catm _ => claimCatm
  | .catalpn _ => claimCatalpn
  | .cath _ => claimCath
  | .catgeoiso3166 _ => claimCatgeoiso3166
  | .catgeocoord _ => claimCatgeocoord
  | .geohash _ => claimGeohash
  | .catgeoalt _ => claimCatgeoalt
  | .cattpk _ => claimCattpk
  | .sub _ => claimSub
  | .iat _ => claimIat
  | .catifdata _ => claimCatifdata
  | .cnf _ => claimCnf
  | .catdpop _ => claimCatdpop
  | .catif _ => claimCatif
  | .catr _ => claimCatr
  | .moqt _ => claimMoqt
  | .moqtReval _ => claimMoqtReval
  | .orClaim _ => claimOr
  | .norClaim _ => claimNor
  | .andClaim _ => claimAnd
  | .custom id _ _ => id

section
variable {H : Host} {limits : CwtLimits} {composite : CompositeDecoder}

/-- What a claim was decoded from: the value, by its arm of the match, between two states of
    the counters. The number is that of the custom claims before it. -/
def DecodedFrom (H : Host) (limits : CwtLimits) (composite : CompositeDecoder) (n : Nat)
    (v : Value) (s s' : DecodeCounters) : DecodedClaim → Prop
  | .iss x => decodeIss limits v s = .ok (x, s')
  | .aud x => decodeAud limits v s = .ok (x, s')
  | .exp x => decodeExp H v s = .ok (x, s')
  | .nbf x => decodeNbf H v s = .ok (x, s')
  | .cti x => decodeCti v s = .ok (x, s')
  | .catreplay x => decodeCatreplay v s = .ok (x, s')
  | .catpor x => decodeCatpor H v s = .ok (x, s')
  | .catv x => decodeCatv v s = .ok (x, s')
  | .catnip x => decodeCatnip limits v s = .ok (x, s')
  | .catu x => decodeCatu limits v s = .ok (x, s')
  | .catm x => decodeCatm limits v s = .ok (x, s')
  | .catalpn x => decodeCatalpn limits v s = .ok (x, s')
  | .cath x => decodeCath limits v s = .ok (x, s')
  | .catgeoiso3166 x => decodeCatgeoiso3166 limits v s = .ok (x, s')
  | .catgeocoord x => decodeCatgeocoord H limits v s = .ok (x, s')
  | .geohash x => decodeGeohash v s = .ok (x, s')
  | .catgeoalt x => decodeCatgeoalt v s = .ok (x, s')
  | .cattpk x => decodeCattpk v s = .ok (x, s')
  | .sub x => decodeSub limits v s = .ok (x, s')
  | .iat x => decodeIat H v s = .ok (x, s')
  | .catifdata x => decodeCatifdata limits v s = .ok (x, s')
  | .cnf x => decodeCnf v s = .ok (x, s')
  | .catdpop x => decodeCatdpop v s = .ok (x, s')
  | .catif x => decodeCatif H limits v s = .ok (x, s')
  | .catr x => decodeCatr limits v s = .ok (x, s')
  | .moqt x => decodeMoqt limits v s = .ok (x, s')
  | .moqtReval x => decodeMoqtReval v s = .ok (x, s')
  | .orClaim x => composite claimOr v 0 s = .ok (x, s')
  | .norClaim x => composite claimNor v 0 s = .ok (x, s')
  | .andClaim x => composite claimAnd v 0 s = .ok (x, s')
  | .custom _ _ x => x = v ∧ s' = s ∧ n < limits.maxCustomClaims

/-- One arm of the match: what holds of its claims, and of those of the arms after it. -/
theorem decodeClaim_arm {α : Type} {p : Prop} [Decidable p] {m : Decode α} {f : α → DecodedClaim}
    {rest : Decode DecodedClaim} {P : DecodedClaim → Prop} {s s' : DecodeCounters}
    {d : DecodedClaim} (h : (if p then m >>= fun a => pure (f a) else rest) s = .ok (d, s'))
    (harm : p → ∀ a, m s = .ok (a, s') → P (f a)) (hrest : rest s = .ok (d, s') → P d) : P d := by
  by_cases hp : p
  · rw [if_pos hp, StateT.bind_eq_ok] at h
    obtain ⟨a, s₁, hm, hd⟩ := h
    obtain ⟨rfl, rfl⟩ := StateT.pure_eq_ok.mp hd
    exact harm hp a hm
  · rw [if_neg hp] at h
    exact hrest h

/-- **An arm decodes the value to a claim under the arm's label.** -/
theorem decodeClaim_ok {n : Nat} {id : Int64} {v : Value} {s s' : DecodeCounters}
    {d : DecodedClaim} (h : decodeClaim H limits composite n id v s = .ok (d, s')) :
    d.label = id ∧ DecodedFrom H limits composite n v s s' d := by
  unfold decodeClaim at h
  iterate 27
    refine decodeClaim_arm (P := fun d => d.label = id ∧ DecodedFrom H limits composite n v s s' d)
      h (fun e _ ha => ⟨e.symm, ha⟩) fun h => ?_
  iterate 3
    rw [← bind_assoc] at h
    refine decodeClaim_arm (P := fun d => d.label = id ∧ DecodedFrom H limits composite n v s s' d)
      h (fun e _ ha => ⟨e.symm, ?_⟩) fun h => ?_
    · obtain ⟨_, s₁, hlift, hc⟩ := StateT.bind_eq_ok.mp ha
      obtain ⟨-, rfl⟩ := StateT.lift_eq_ok.mp hlift
      rw [e] at hc
      exact hc
  split at h
  · dsimp only at h
    split at h
    · obtain ⟨_, _, hthrow, -⟩ := StateT.bind_eq_ok.mp h
      exact absurd hthrow StateT.throw_ne_ok
    · rename_i hroom
      obtain ⟨rfl, rfl⟩ := StateT.pure_eq_ok.mp h
      exact ⟨rfl, rfl, rfl, Nat.lt_of_not_le hroom⟩
  · exact absurd h StateT.throw_ne_ok

theorem decodeClaim_label {n : Nat} {id : Int64} {v : Value} {s s' : DecodeCounters}
    {d : DecodedClaim} (h : decodeClaim H limits composite n id v s = .ok (d, s')) :
    d.label = id := (decodeClaim_ok h).1

theorem decodeClaimId_eq_ok {k : Value} {id : Int64} :
    decodeClaimId k = .ok id ↔ k = i64Value id := by
  unfold decodeClaimId i64Value
  cases k with
  | integer i =>
    rw [Value.integer.injEq, Integer.ext_iff]
    show _ ↔ i.val = id.toInt
    rw [← Integer.toI64?_eq_some]
    dsimp only
    cases i.toI64? <;> simp
  | _ => simp

/-! ## The order of labels

The check wants the labels in strict order. Strict is what is used of it: no label is there
twice.
-/

/-- Where deterministic order puts a label: the negative ones come after all others. -/
def labelRank (n : Int64) : Int := if 0 ≤ n.toInt then n.toInt else 2 ^ 63 - n.toInt

theorem cborCanonicalKeyCmp_eq_gt {a b : Int64} :
    cborCanonicalKeyCmp a b = .gt ↔ labelRank b < labelRank a := by
  have ha := a.toInt_lt
  have hb := b.toInt_lt
  unfold cborCanonicalKeyCmp labelRank
  by_cases h0 : 0 ≤ a.toInt <;> by_cases h1 : 0 ≤ b.toInt <;>
    simp only [h0, h1, decide_true, decide_false, if_true, if_false, compare_gt_iff_gt,
      reduceCtorEq, false_iff, true_iff] <;> omega

theorem checkKey_i64 {prev : Option Int64} {seen : List KeyFingerprint} {id : Int64}
    {p : Option Int64 × List KeyFingerprint} (h : checkKey prev seen (i64Value id) = .ok p) :
    p.1 = some id ∧ ∀ q ∈ prev, labelRank q < labelRank id := by
  have hid : (Integer.ofI64 id).toI64?.getD (Int64.ofInt (2 ^ 63 - 1)) = id := by
    rw [Integer.toI64?_ofI64, Option.getD_some]
  simp only [checkKey, i64Value, keyFingerprint, hid] at h
  split at h
  · exact absurd h (by simp)
  · cases prev with
    | none => obtain rfl := Except.ok.inj h; simp
    | some q =>
      dsimp only at h
      split at h
      · exact absurd h (by simp)
      · rename_i hgt
        obtain rfl := Except.ok.inj h
        simpa using cborCanonicalKeyCmp_eq_gt.mp (not_not.mp hgt)

/-- A map whose keys are labels passes the ordering check only in strict order. -/
theorem validateEntries_ordered {maxDepth depth : Nat} {ids : List Int64} :
    ∀ {es : List (Value × Value)} {prev : Option Int64} {seen : List KeyFingerprint},
      es.map Prod.fst = ids.map i64Value → validateEntries maxDepth depth prev seen es = .ok () →
      List.IsChain (fun a b => labelRank a < labelRank b) (prev.toList ++ ids) := by
  induction ids with
  | nil => intro es prev seen hk h; cases prev <;> simp
  | cons id ids ih =>
    intro es prev seen hk h
    match es with
    | [] => simp at hk
    | (k, v) :: es =>
      obtain ⟨rfl, hes⟩ : k = i64Value id ∧ es.map Prod.fst = ids.map i64Value := by
        simpa using hk
      rw [validateEntries] at h
      cases hc : checkKey prev seen (i64Value id) with
      | error e => rw [hc] at h; exact absurd h (by simp)
      | ok p =>
        obtain ⟨hp, hprev⟩ := checkKey_i64 hc
        rw [hc] at h
        dsimp only at h
        split at h
        · exact absurd h (by simp)
        · have := ih hes h
          rw [hp] at this
          cases prev with
          | none => simpa using this
          | some q => simpa [List.isChain_cons_cons] using ⟨hprev q rfl, this⟩

/-! ## The payload

The loop, taken apart entry by entry. `DecodesTo` keeps the values, the claims, and the states
of the counters between them.
-/

section
variable (H : Host) (limits : CwtLimits) (composite : CompositeDecoder)

/-- The claim an entry of the map was decoded to. -/
def EntryDecodes (e : Value × Value) (d : DecodedClaim) : Prop :=
  e.1 = i64Value d.label ∧
    ∃ n s s', decodeClaim H limits composite n d.label e.2 s = .ok (d, s')

/-- How the bytes `b` came to be the token `t`: entry by entry. -/
structure DecodesTo (b : Bytes) (es : List (Value × Value)) (ds : List DecodedClaim)
    (t : CatToken) : Prop where
  size_le : b.length ≤ limits.maxCborPayloadSize
  read_eq : H.cbor.read cborMaxRecursionDepth b = .ok (.map es, [])
  entries : List.Forall₂ (EntryDecodes H limits composite) es ds
  ordered : (ds.map DecodedClaim.label).Pairwise fun a b => labelRank a < labelRank b
  token_eq : t = ds.foldl CatToken.assign .new

end

theorem entryDecodes_keys {es : List (Value × Value)} {ds : List DecodedClaim}
    (h : List.Forall₂ (EntryDecodes H limits composite) es ds) :
    es.map Prod.fst = (ds.map DecodedClaim.label).map i64Value := by
  induction h with
  | nil => rfl
  | cons hed _ ih => simp only [List.map_cons, ih, hed.1]

theorem i64Value_inj {a b : Int64} : i64Value a = i64Value b ↔ a = b := by
  constructor
  · intro h
    have := decodeClaimId_eq_ok.mpr h
    rw [decodeClaimId_eq_ok.mpr (rfl : i64Value a = i64Value a)] at this
    exact Except.ok.inj this
  · rintro rfl; rfl

theorem decodeEntries_ok {es : List (Value × Value)} : ∀ {t t' : CatToken} {s s' : DecodeCounters},
    decodeEntries H limits composite t es s = .ok (t', s') →
      ∃ ds, List.Forall₂ (EntryDecodes H limits composite) es ds ∧
        t' = ds.foldl CatToken.assign t := by
  induction es with
  | nil =>
    intro t t' s s' h
    obtain ⟨rfl, -⟩ := StateT.pure_eq_ok.mp h
    exact ⟨[], .nil, rfl⟩
  | cons e es ih =>
    intro t t' s s' h
    obtain ⟨_, s₁, -, h₁⟩ := StateT.bind_eq_ok.mp h
    obtain ⟨id, s₂, hlift, h₂⟩ := StateT.bind_eq_ok.mp h₁
    obtain ⟨d, s₃, hd, h₃⟩ := StateT.bind_eq_ok.mp h₂
    have hid := (StateT.lift_eq_ok.mp hlift).1
    obtain rfl := decodeClaim_label hd
    obtain ⟨ds, hds, rfl⟩ := ih h₃
    exact ⟨d :: ds, .cons ⟨decodeClaimId_eq_ok.mp hid, _, _, _, hd⟩ hds, rfl⟩

theorem readClaimsMap_ok {b : Bytes} {es : List (Value × Value)}
    (h : readClaimsMap H limits b = .ok es) :
    b.length ≤ limits.maxCborPayloadSize ∧
      H.cbor.read cborMaxRecursionDepth b = .ok (.map es, []) ∧
      validateCborMapOrderingLimited es limits.maxNestingDepth = .ok () := by
  unfold readClaimsMap at h
  simp only [bind, Except.bind, pure, Except.pure, throw, throwThe, MonadExceptOf.throw] at h
  split at h
  · exact absurd h (by simp)
  · rename_i hsize
    cases hread : H.cbor.read cborMaxRecursionDepth b with
    | error e => rw [hread] at h; exact absurd h (by simp)
    | ok r =>
      obtain ⟨v, rest⟩ := r
      rw [hread] at h
      dsimp only at h
      cases rest with
      | cons _ _ => exact absurd h (by simp)
      | nil =>
        cases v with
        | map es' =>
          simp only [List.isEmpty_nil, Bool.not_true, Bool.false_eq_true, if_false] at h
          cases hord : validateCborMapOrderingLimited es' limits.maxNestingDepth with
          | error e => rw [hord] at h; exact absurd h (by simp)
          | ok u =>
            rw [hord] at h
            obtain rfl := Except.ok.inj h
            exact ⟨by omega, rfl, hord⟩
        | _ => exact absurd h (by simp)

theorem decodePayloadWith_ok {b : Bytes} {t : CatToken} {s s' : DecodeCounters}
    (h : decodePayloadWith H limits composite b s = .ok (t, s')) :
    ∃ es ds, DecodesTo H limits composite b es ds t := by
  obtain ⟨es, s₁, hmap, h⟩ := StateT.bind_eq_ok.mp h
  obtain ⟨hsize, hread, hord⟩ := readClaimsMap_ok (StateT.lift_eq_ok.mp hmap).1
  obtain ⟨ds, hds, ht⟩ := decodeEntries_ok h
  have hchain := validateEntries_ordered (entryDecodes_keys hds) hord
  have : IsTrans Int64 fun a b => labelRank a < labelRank b := ⟨fun _ _ _ => Int.lt_trans⟩
  exact ⟨es, ds, hsize, hread, hds, List.isChain_iff_pairwise.mp hchain, ht⟩

/-- **Decoding a payload, inverted.** -/
theorem decodePayloadWithLimits_ok {b : Bytes} {t : CatToken}
    (h : decodePayloadWithLimits H limits b = .ok t) :
    ∃ es ds, DecodesTo H limits
      (decodeCompositeClaimWithCounters H limits (limits.maxNestingDepth + 2)) b es ds t := by
  unfold decodePayloadWithLimits decodePayloadWithLimitsAndCounters at h
  rcases hd : decodePayloadWith H limits
    (decodeCompositeClaimWithCounters H limits (limits.maxNestingDepth + 2)) b {} with e | ⟨t', s'⟩
  · rw [hd] at h; exact absurd h (by simp [Except.map])
  · rw [hd] at h
    obtain rfl := Except.ok.inj h
    exact decodePayloadWith_ok hd

/-! ## Fields

Claims are assigned one after the other, each to its own field, and no two have the same one. So
a field is what its claim says, and is empty without one.
-/

theorem decodeTextClaim_text {tagName claimName s s' : String} {c c' : DecodeCounters}
    (h : decodeTextClaim limits tagName claimName (.text s) c = .ok (s', c')) : s' = s := by
  unfold decodeTextClaim at h
  obtain ⟨_, _, -, h₁⟩ := StateT.bind_eq_ok.mp h
  obtain ⟨_, _, -, h₂⟩ := StateT.bind_eq_ok.mp h₁
  exact (StateT.pure_eq_ok.mp h₂).1.symm

theorem assign_iss (t : CatToken) (d : DecodedClaim) (h : d.label ≠ claimIss) :
    (t.assign d).core.iss = t.core.iss := by
  unfold CatToken.assign
  split <;> first | rfl | exact absurd rfl h

namespace DecodesTo

variable {b : Bytes} {es : List (Value × Value)} {ds : List DecodedClaim} {t : CatToken}

theorem length_lt (h : DecodesTo H limits composite b es ds t) : b.length < 2 ^ 63 := by
  have := h.size_le
  have := limits.payload_ok.2
  omega

/-- The bytes are those of a map item. -/
theorem item (h : DecodesTo H limits composite b es ds t) :
    ∃ x : Item, x.WF ∧ x.value = some (.map es) ∧ b = x.wire := by
  obtain ⟨x, hx, hv, hb⟩ := H.cbor.read_sound h.read_eq
  exact ⟨x, hx, hv, by rw [hb, List.append_nil]⟩

/-- Every entry has been decoded to a claim under its label. -/
theorem mem_claims (h : DecodesTo H limits composite b es ds t) {id : Int64} {v : Value}
    (he : (i64Value id, v) ∈ es) :
    ∃ d ∈ ds, d.label = id ∧ ∃ n s s', decodeClaim H limits composite n id v s = .ok (d, s') := by
  obtain ⟨d, hd, hk, hdec⟩ := h.entries.exists_of_mem_left he
  obtain rfl := i64Value_inj.mp hk
  exact ⟨d, hd, rfl, hdec⟩

/-- Every claim has been decoded from an entry under its label. -/
theorem mem_entries (h : DecodesTo H limits composite b es ds t) {d : DecodedClaim}
    (hd : d ∈ ds) :
    ∃ v, (i64Value d.label, v) ∈ es ∧
      ∃ n s s', decodeClaim H limits composite n d.label v s = .ok (d, s') := by
  obtain ⟨⟨k, v⟩, he, hk, hdec⟩ := h.entries.exists_of_mem_right hd
  obtain rfl : k = i64Value d.label := hk
  exact ⟨v, he, hdec⟩

theorem nodup (h : DecodesTo H limits composite b es ds t) :
    (ds.map DecodedClaim.label).Nodup :=
  h.ordered.imp fun hlt heq => by rw [heq] at hlt; exact Int.lt_irrefl _ hlt

theorem foldl_assign_other {α : Type} {get : CatToken → α} {id : Int64}
    (hother : ∀ t d, d.label ≠ id → get (t.assign d) = get t) {ds : List DecodedClaim}
    (hne : ∀ d ∈ ds, d.label ≠ id) (t : CatToken) :
    get (ds.foldl CatToken.assign t) = get t := by
  induction ds generalizing t with
  | nil => rfl
  | cons d ds ih =>
    rw [List.foldl_cons, ih fun d' hd' => hne d' (List.mem_cons_of_mem _ hd'),
      hother _ _ (hne d List.mem_cons_self)]

/-- A part of the token that only the claim under a label changes is what that claim makes
    of it. -/
theorem assigned {α : Type} {id : Int64} (h : DecodesTo H limits composite b es ds t)
    (get : CatToken → α) (hother : ∀ t d, d.label ≠ id → get (t.assign d) = get t)
    {d : DecodedClaim} (hd : d ∈ ds) (hid : d.label = id) :
    ∃ t₀, get t₀ = get .new ∧ get t = get (t₀.assign d) := by
  obtain ⟨as, bs, rfl, has, hbs⟩ := List.split_of_nodup_map h.nodup hd
  rw [hid] at has hbs
  refine ⟨as.foldl CatToken.assign .new, foldl_assign_other hother has _, ?_⟩
  rw [h.token_eq, List.foldl_append, List.foldl_cons, foldl_assign_other hother hbs]

/-- A part of the token whose label is not in the payload. -/
theorem unassigned {α : Type} {id : Int64} (h : DecodesTo H limits composite b es ds t)
    (get : CatToken → α) (hother : ∀ t d, d.label ≠ id → get (t.assign d) = get t)
    (hne : ∀ d ∈ ds, d.label ≠ id) : get t = get .new := by
  rw [h.token_eq, foldl_assign_other hother hne]

/-- The text under label 1 is the decoded issuer. -/
theorem iss_eq (h : DecodesTo H limits composite b es ds t) {s : String}
    (he : (i64Value claimIss, .text s) ∈ es) : t.core.iss = some s := by
  obtain ⟨d, hd, hlabel, n, c, c', hdec⟩ := h.mem_claims he
  rw [decodeClaim, if_pos rfl] at hdec
  obtain ⟨s', c₁, hs, hp⟩ := StateT.bind_eq_ok.mp hdec
  obtain rfl := decodeTextClaim_text hs
  obtain ⟨rfl, -⟩ := StateT.pure_eq_ok.mp hp
  obtain ⟨t₀, -, ht⟩ := h.assigned (·.core.iss) assign_iss hd rfl
  exact ht

theorem iss_eq_none (h : DecodesTo H limits composite b es ds t)
    (he : claimIss ∉ ds.map DecodedClaim.label) : t.core.iss = none :=
  h.unassigned (·.core.iss) assign_iss fun _ hd heq => he (heq ▸ List.mem_map_of_mem hd)

end DecodesTo

end

end Cat
