import Cat.Cwt.Costs
import Cat.Cwt.LimitsBuilder
import Cat.Moqt.ScopesRead
import Cat.Token.EncryptedDecoder
import Cat.Token.IssuerBinding

/-!
# Looser limits

No limit of the decoder changes what a token is decoded to: a limit only refuses. So what is
accepted is accepted under every configuration that is not tighter, as the same token, through
the recursion into composites and through decryption. The step that is stepped through is
`Widens`: a decoding step that succeeds does so under the looser limits, with the same result
and the same counts.

Limits are read in many places, compared with a length here and with a counter there. `Widens`
has a rule for each of these, and the decoder is taken apart along its own structure, claim by
claim. The recursion into composites has its fuel from the nesting limit, so there the looser
configuration may go deeper, and the statement is about two calls with different fuel.

From the rows of limits to the configuration of a decoder it goes through the builder: rows are
what an operator writes, and a configuration is what the builder accepts of them. The token at
the end has strings and a composite, and is read within two rows of limits, one looser than the
other.
-/

set_option autoImplicit false

namespace Cat

open Cbor DecodeCounters

/-! ## Steps

The same step under two configurations. What it counts is the same, so the counters can be
compared with the looser limits wherever they were within the tighter ones.
-/

section
variable {L L' : CwtLimits} {α β : Type} {m m' : Decode α} {f f' : α → Decode β}

/-- What the first step returns within its limits the second one returns too. -/
def Widens (L : CwtLimits) (m m' : Decode α) : Prop :=
  ∀ s x s', Within L s → m s = .ok (x, s') → m' s = .ok (x, s') ∧ Within L s'

theorem DecodeCounters.Within.loosen {c : DecodeCounters} (h : Within L c) (hle : L ≤ L') :
    Within L' c where
  items := Nat.le_trans h.items (hle .maxTotalItems)
  strings := Nat.le_trans h.strings (hle .maxTotalStringBytes)
  regexes := Nat.le_trans h.regexes (hle .maxRegexCount)
  uris := Nat.le_trans h.uris (hle .maxUriPatterns)

namespace Widens

/-- Steps that accept forms, the second one all those of the first. -/
theorem of_counts {R R' : α → DecodeCounters → Prop} (h : Counts L m R) (h' : Counts L' m' R')
    (hle : L ≤ L') (hR : ∀ x c, R x c → R' x c) : Widens L m m' := by
  intro s x s' hs hm
  obtain ⟨c, hc, rfl, hwithin⟩ := h.sound hm
  exact ⟨h'.complete (hR x c hc) ((hwithin hs).loosen hle), hwithin hs⟩

theorem bind (hm : Widens L m m') (hf : ∀ x, Widens L (f x) (f' x)) :
    Widens L (m >>= f) (m' >>= f') := by
  intro s y s' hs h
  obtain ⟨x, s₁, hx, hy⟩ := StateT.bind_eq_ok.mp h
  obtain ⟨hx', hs₁⟩ := hm s x s₁ hs hx
  obtain ⟨hy', hs'⟩ := hf x s₁ y s' hs₁ hy
  exact ⟨StateT.bind_eq_ok.mpr ⟨x, s₁, hx', hy'⟩, hs'⟩

/-- A step that does not count. -/
theorem lift {e e' : Except CatError α} (h : ∀ x, e = .ok x → e' = .ok x) :
    Widens L (monadLift e : Decode α) (monadLift e' : Decode α) := by
  intro s x s' hs hm
  obtain ⟨he, rfl⟩ := StateT.lift_eq_ok.mp hm
  exact ⟨StateT.lift_eq_ok.mpr ⟨h x he, rfl⟩, hs⟩

theorem refl_lift (e : Except CatError α) :
    Widens L (monadLift e : Decode α) (monadLift e : Decode α) := lift fun _ => id

theorem ret (a : α) : Widens L (pure a : Decode α) (pure a) := by
  intro s x s' hs hm
  obtain ⟨rfl, rfl⟩ := StateT.pure_eq_ok.mp hm
  exact ⟨StateT.pure_eq_ok.mpr ⟨rfl, rfl⟩, hs⟩

/-- A step that throws. -/
theorem fail (e : CatError) : Widens L (throw e : Decode α) m' :=
  fun _ _ _ _ hm => absurd hm StateT.throw_ne_ok

/-- A check in front of a step, the second one of less. -/
theorem guard {p p' : Prop} [Decidable p] [Decidable p'] {e e' : CatError}
    {g g' : β → Decode α} (h : Widens L m m') (hp : p' → p) :
    Widens L (if p then (throw e : Decode β) >>= g else m)
      (if p' then (throw e' : Decode β) >>= g' else m') := by
  intro s x s' hs hm
  obtain ⟨hnot, hm⟩ := StateT.guard_eq_ok.mp hm
  obtain ⟨hm', hs'⟩ := h s x s' hs hm
  exact ⟨StateT.guard_eq_ok.mpr ⟨mt hp hnot, hm'⟩, hs'⟩

theorem traverse (hf : ∀ a, Widens L (f a) (f' a)) (as : List α) :
    Widens L (as.mapM' f) (as.mapM' f') := by
  induction as with
  | nil => exact ret []
  | cons a as ih => exact (hf a).bind fun b => ih.bind fun bs => ret (b :: bs)

theorem countItem (hle : L ≤ L') : Widens L (countItem L) (countItem L') :=
  of_counts Counts.countItem Counts.countItem hle fun _ _ => id

end Widens

end

/-! ## Claims

The forms of `Forms` mention limits in a few places, each as an upper bound.
-/

section
variable {H : Host} {L L' : CwtLimits}

theorem scopeNamespaceMatches_loosen (hle : L ≤ L') {o : Option Value} {ns : List NamespaceMatch}
    (h : scopeNamespaceMatches L o = .ok ns) : scopeNamespaceMatches L' o = .ok ns := by
  have hmax : L.maxNamespaceMatchesPerScope ≤ L'.maxNamespaceMatchesPerScope :=
    hle .maxNamespaceMatchesPerScope
  cases o with
  | none => exact h
  | some v =>
    cases v with
    | array vs =>
      have harray (M : CwtLimits) : scopeNamespaceMatches M (some (.array vs)) = .ok ns ↔
          vs.length ≤ M.maxNamespaceMatchesPerScope ∧ vs.mapM' decodeNamespaceMatch = .ok ns := by
        show (if vs.length > M.maxNamespaceMatchesPerScope then _ else _) = _ ↔ _
        by_cases hlong : vs.length > M.maxNamespaceMatchesPerScope
        · rw [if_pos hlong]
          exact iff_of_false (by simp) fun h => absurd h.1 (Nat.not_le.mpr hlong)
        · rw [if_neg hlong]
          exact (and_iff_right (Nat.le_of_not_lt hlong)).symm
      rw [harray] at h ⊢
      exact ⟨Nat.le_trans h.1 hmax, h.2⟩
    | _ => cases h

/-- A decoded scope has its actions in front, and at most two places behind them. -/
theorem decodeScope_places {v : Value} {scope : MoqtScope} (h : decodeScope L v = .ok scope) :
    ∃ actions rest, v = .array (.array actions :: rest) ∧ rest.length ≤ 2 := by
  unfold decodeScope at h
  cases v with
  | array places =>
    obtain ⟨hlength, h⟩ := Except.guard_eq_ok.mp h
    cases places with
    | nil => exact absurd rfl hlength
    | cons first rest =>
      have hrest : rest.length ≤ 2 := by
        have hshort : ¬(first :: rest).length > 3 :=
          fun h => hlength (by rw [decide_eq_true h, Bool.or_true])
        rw [List.length_cons] at hshort
        omega
      cases first with
      | array actions => exact ⟨actions, rest, rfl, hrest⟩
      | _ => exact absurd h (by simp [Except.bind_eq_ok])
  | _ => cases h

theorem decodeScope_loosen (hle : L ≤ L') {v : Value} {scope : MoqtScope}
    (h : decodeScope L v = .ok scope) : decodeScope L' v = .ok scope := by
  obtain ⟨actions, rest, rfl, hrest⟩ := decodeScope_places h
  rw [decodeScope_eq actions rest hrest] at h ⊢
  obtain ⟨as, has, h⟩ := Except.bind_eq_ok.mp h
  obtain ⟨hempty, h⟩ := Except.guard_eq_ok.mp h
  obtain ⟨ns, hns, h⟩ := Except.bind_eq_ok.mp h
  refine Except.bind_eq_ok.mpr ⟨as, has, Except.guard_eq_ok.mpr ⟨hempty, ?_⟩⟩
  exact Except.bind_eq_ok.mpr ⟨ns, scopeNamespaceMatches_loosen hle hns, h⟩

/-- **A form within limits is one within looser limits.** -/
theorem ClaimForm.loosen (hle : L ≤ L') {v : Value} {d : DecodedClaim} {c : DecodeCounters}
    (h : ClaimForm H L v d c) : ClaimForm H L' v d c := by
  have hstring : L.maxStringClaimLength ≤ L'.maxStringClaimLength := hle .maxStringClaimLength
  cases d with
  | iss x | sub x =>
    obtain ⟨hv, hlen, hc⟩ := h
    exact ⟨hv, Nat.le_trans hlen hstring, hc⟩
  | aud x =>
    obtain ⟨hlen, hform⟩ := h
    exact ⟨fun s hs => Nat.le_trans (hlen s hs) hstring, hform⟩
  | catnip x =>
    obtain ⟨⟨vs, hv, hlen, hforms⟩, hc⟩ := h
    exact ⟨⟨vs, hv, Nat.le_trans hlen (hle .maxCatnipEntries), hforms⟩, hc⟩
  | moqt x =>
    obtain ⟨⟨vs, hv, hlen, hscopes⟩, hc⟩ := h
    refine ⟨⟨vs, hv, Nat.le_trans hlen (hle .maxMoqtScopes), ?_⟩, hc⟩
    rw [Except.mapM'_eq_ok] at hscopes ⊢
    exact hscopes.imp fun _ _ => decodeScope_loosen hle
  | _ => exact h

/-- Decoders of composite claims, the second one with more room. -/
def WidensComposites (L : CwtLimits) (comp comp' : CompositeDecoder) : Prop :=
  ∀ id v depth, Widens L (comp id v depth) (comp' id v depth)

variable {comp comp' : CompositeDecoder}

/-- **One claim.** -/
theorem decodeClaim_widens (hle : L ≤ L') (hcomp : WidensComposites L comp comp') (n : Nat)
    (id : Int64) (v : Value) :
    Widens L (decodeClaim H L comp n id v) (decodeClaim H L' comp' n id v) := by
  intro s d s' hs hm
  obtain ⟨rfl, hfrom⟩ := decodeClaim_ok hm
  by_cases hd : isCompositeKey (i64Value d.label) = true
  · -- a composite: its tag is looked at, then its own decoder takes over
    have hwidens : Widens L (decodeClaim H L comp n d.label v)
        (decodeClaim H L' comp' n d.label v) := by
      rcases (isCompositeKey_i64Value _).mp hd with hid | hid | hid
      · rw [hid, decodeClaim_or, decodeClaim_or]
        exact (Widens.refl_lift _).bind fun _ => (hcomp _ _ _).bind fun _ => .ret _
      · rw [hid, decodeClaim_nor, decodeClaim_nor]
        exact (Widens.refl_lift _).bind fun _ => (hcomp _ _ _).bind fun _ => .ret _
      · rw [hid, decodeClaim_and, decodeClaim_and]
        exact (Widens.refl_lift _).bind fun _ => (hcomp _ _ _).bind fun _ => .ret _
    exact hwidens s d s' hs hm
  · rw [Bool.not_eq_true] at hd
    obtain ⟨c, hform, rfl, hwithin⟩ := hfrom.form hd
    refine ⟨(hform.loosen hle).accepts hd n s ?_ ((hwithin hs).loosen hle), hwithin hs⟩
    intro hreserved
    cases d with
    | custom id hid x => exact Nat.lt_of_lt_of_le hfrom.2.2 (hle .maxCustomClaims)
    | orClaim x | norClaim x | andClaim x =>
      -- taken by the other branch
      rw [DecodedClaim.label] at hd
      exact absurd hd (by decide)
    | _ =>
      rw [DecodedClaim.label] at hreserved
      exact absurd hreserved (by decide)

/-- The loop over a claim map. -/
theorem decodeEntries_widens (hle : L ≤ L') (hcomp : WidensComposites L comp comp')
    (es : List (Value × Value)) (t : CatToken) :
    Widens L (decodeEntries H L comp t es) (decodeEntries H L' comp' t es) := by
  induction es generalizing t with
  | nil => exact .ret t
  | cons e es ih =>
    rw [decodeEntries, decodeEntries]
    refine (Widens.countItem hle).bind fun _ => (Widens.refl_lift _).bind fun id => ?_
    exact (decodeClaim_widens hle hcomp _ id e.2).bind fun d => ih (t.assign d)

/-- A claim map that is read and in order. -/
theorem readClaimsMap_loosen (hle : L ≤ L') {b : Bytes} {es : List (Value × Value)}
    (h : readClaimsMap H L b = .ok es) : readClaimsMap H L' b = .ok es := by
  obtain ⟨hsize, hread, hord⟩ := readClaimsMap_eq_ok.mp h
  obtain ⟨hdepth, hkeys⟩ := validateCborMapOrderingLimited_eq_ok.mp hord
  refine readClaimsMap_eq_ok.mpr ⟨Nat.le_trans hsize (hle .maxCborPayloadSize), hread, ?_⟩
  exact validateCborMapOrderingLimited_eq_ok.mpr
    ⟨Nat.le_trans hdepth (hle .maxNestingDepth), hkeys⟩

theorem decodePayloadWith_widens (hle : L ≤ L') (hcomp : WidensComposites L comp comp')
    (b : Bytes) : Widens L (decodePayloadWith H L comp b) (decodePayloadWith H L' comp' b) :=
  (Widens.lift fun _ => readClaimsMap_loosen hle).bind fun es =>
    decodeEntries_widens hle hcomp es .new

/-! ## Composites

A claim set is decoded as a payload of its own, by the decoder one level down.
-/

theorem decodeTokenSet_widens {payload payload' : Bytes → Decode CatToken}
    (hpayload : ∀ b, Widens L (payload b) (payload' b)) (item : Value) :
    Widens L (decodeClaimSet.decodeTokenSet H payload item)
      (decodeClaimSet.decodeTokenSet H payload' item) := by
  unfold decodeClaimSet.decodeTokenSet
  cases H.cbor.write item with
  | error e => exact .fail _
  | ok b => exact (hpayload b).bind fun t => .ret _

theorem decodeClaimSet_widens (hle : L ≤ L') {payload payload' : Bytes → Decode CatToken}
    (hcomp : WidensComposites L comp comp') (hpayload : ∀ b, Widens L (payload b) (payload' b))
    (depth : Nat) (item : Value) :
    Widens L (decodeClaimSet H L comp payload depth item)
      (decodeClaimSet H L' comp' payload' depth item) := by
  unfold decodeClaimSet
  refine (Widens.countItem hle).bind fun _ => ?_
  cases item with
  | map es =>
    dsimp only
    split
    · rename_i k v
      split
      · cases k with
        | integer i =>
          dsimp only
          cases i.toI64? with
          | none => exact (Widens.fail _).bind fun _ => (hcomp _ _ _).bind fun _ => .ret _
          | some id => exact (Widens.ret id).bind fun _ => (hcomp _ _ _).bind fun _ => .ret _
        | _ => exact (Widens.fail _).bind fun _ => (hcomp _ _ _).bind fun _ => .ret _
      · exact decodeTokenSet_widens hpayload _
    · exact decodeTokenSet_widens hpayload _
  | _ => exact .fail _

theorem decodeCompositeClaimWith_widens (hle : L ≤ L') {payload payload' : Bytes → Decode CatToken}
    (hcomp : WidensComposites L comp comp') (hpayload : ∀ b, Widens L (payload b) (payload' b)) :
    WidensComposites L (decodeCompositeClaimWith H L comp payload)
      (decodeCompositeClaimWith H L' comp' payload') := by
  intro id v depth
  refine Widens.guard (Widens.bind (Widens.refl_lift _) fun op => ?_)
    (fun h => Nat.le_trans (hle .maxNestingDepth) h)
  have hrest (arr : List Value) : Widens L
      (do
        let claims ← arr.mapM' (decodeClaimSet H L comp payload depth)
        return (⟨op, claims⟩ : CompositeClaim))
      (do
        let claims ← arr.mapM' (decodeClaimSet H L' comp' payload' depth)
        return (⟨op, claims⟩ : CompositeClaim)) :=
    (Widens.traverse (decodeClaimSet_widens hle hcomp hpayload depth) arr).bind fun _ => .ret _
  cases v with
  | array vs => exact (Widens.ret vs).bind hrest
  | _ => exact (Widens.fail _).bind hrest

/-- **The recursion through composites**, by induction on its depth. -/
theorem decodeCompositeClaimWithCounters_widens (hle : L ≤ L') {fuel fuel' : Nat}
    (hfuel : fuel ≤ fuel') :
    WidensComposites L (decodeCompositeClaimWithCounters H L fuel)
      (decodeCompositeClaimWithCounters H L' fuel') := by
  induction fuel generalizing fuel' with
  | zero => exact fun _ _ _ => .fail _
  | succ fuel ih =>
    obtain ⟨fuel', rfl⟩ := Nat.exists_eq_succ_of_ne_zero
      (Nat.ne_of_gt (Nat.lt_of_lt_of_le (Nat.succ_pos fuel) hfuel))
    have hnext := ih (Nat.le_of_succ_le_succ hfuel)
    exact decodeCompositeClaimWith_widens hle hnext fun b => decodePayloadWith_widens hle hnext b

/-- **A payload that is decoded is decoded the same under looser limits.** -/
theorem decodePayloadWithLimits_loosen (hle : L ≤ L') {b : Bytes} {t : CatToken}
    (h : decodePayloadWithLimits H L b = .ok t) : decodePayloadWithLimits H L' b = .ok t := by
  obtain ⟨⟨t, c⟩, hrun, rfl⟩ := Except.map_eq_ok.mp h
  have hfuel : L.maxNestingDepth + 2 ≤ L'.maxNestingDepth + 2 :=
    Nat.add_le_add_right (hle .maxNestingDepth) 2
  have hcomp : WidensComposites L
      (decodeCompositeClaimWithCounters H L (L.maxNestingDepth + 2))
      (decodeCompositeClaimWithCounters H L' (L'.maxNestingDepth + 2)) :=
    decodeCompositeClaimWithCounters_widens hle hfuel
  obtain ⟨hrun', -⟩ := decodePayloadWith_widens hle hcomp b _ _ _ (within_zero L) hrun
  exact Except.map_eq_ok.mpr ⟨(t, c), hrun', rfl⟩

/-! ## Envelopes

Signature and encryption do not look at limits, except for sizes, which are checked first.
-/

section
variable {G : AesGcm}

theorem decryptEnvelope_loosen {n n' : Nat} (hle : n ≤ n')
    {headerProtected nonceBytes ciphertext key m : Bytes}
    (h : decryptEnvelope H G headerProtected nonceBytes ciphertext key n = .ok m) :
    decryptEnvelope H G headerProtected nonceBytes ciphertext key n' = .ok m := by
  obtain ⟨hcap, h⟩ := Except.guard_eq_ok.mp h
  exact Except.guard_eq_ok.mpr ⟨by omega, h⟩

/-- A ciphertext that is decrypted under a cap on the plaintext. -/
theorem coseDecrypt0WithMaxPlaintext_loosen {n n' : Nat} (hle : n ≤ n') {e key m : Bytes}
    (h : coseDecrypt0WithMaxPlaintext H G e key n = .ok m) :
    coseDecrypt0WithMaxPlaintext H G e key n' = .ok m := by
  unfold coseDecrypt0WithMaxPlaintext at h ⊢
  by_cases hsize : e.length > maxEncrypt0Size
  · rw [if_pos hsize] at h
    cases h
  rw [if_neg hsize] at h ⊢
  cases hread : H.cbor.read cborMaxRecursionDepth e with
  | error _ =>
    rw [hread] at h
    cases h
  | ok r =>
    obtain ⟨value, rest⟩ := r
    rw [hread] at h
    dsimp only at h ⊢
    split at h
    · cases h
    · rw [if_neg ‹_›]
      split at h
      · rename_i tag headerProtected unprotected ciphertext
        split at h
        · cases h
        · rw [if_neg ‹_›]
          obtain ⟨nonceBytes, hnonce, h⟩ := Except.bind_eq_ok.mp h
          refine Except.bind_eq_ok.mpr ⟨nonceBytes, hnonce, ?_⟩
          cases ciphertext with
          | bytes c => exact decryptEnvelope_loosen hle h
          | _ => cases h
      · cases h

/-- A signed token, verified by the same key. -/
theorem decodeSigned_loosen (hle : L ≤ L') {key : DecoderKey} {admission : Option AdmissionPolicy}
    {b : Bytes} {v : VerifiedToken}
    (h : (Decoder.mk key admission L).decodeSigned H b = .ok v) :
    (Decoder.mk key admission L').decodeSigned H b = .ok v := by
  obtain ⟨envelope, henvelope, h⟩ := Except.bind_eq_ok.mp h
  obtain ⟨algorithm, halgorithm, h⟩ := Except.bind_eq_ok.mp h
  refine Except.bind_eq_ok.mpr ⟨envelope, henvelope, ?_⟩
  refine Except.bind_eq_ok.mpr ⟨algorithm, halgorithm, ?_⟩
  obtain ⟨htag, h⟩ := Except.guard_eq_ok.mp h
  obtain ⟨halg, h⟩ := Except.guard_eq_ok.mp h
  obtain ⟨input, hinput, h⟩ := Except.bind_eq_ok.mp h
  obtain ⟨_, hverify, h⟩ := Except.bind_eq_ok.mp h
  obtain ⟨token, htoken, h⟩ := Except.bind_eq_ok.mp h
  refine Except.guard_eq_ok.mpr ⟨htag, Except.guard_eq_ok.mpr ⟨halg, ?_⟩⟩
  refine Except.bind_eq_ok.mpr ⟨input, hinput, Except.bind_eq_ok.mpr ⟨_, hverify, ?_⟩⟩
  exact Except.bind_eq_ok.mpr ⟨token, decodePayloadWithLimits_loosen hle htoken, h⟩

/-- `limits` of the builder. -/
def ContentDecoder.withLimits (d : ContentDecoder) (L : CwtLimits) : ContentDecoder :=
  { d with limits := L }

theorem decode_loosen (hle : L ≤ L') {d : ContentDecoder} {b : Bytes} {v : VerifiedToken}
    (h : (d.withLimits L).decode H G b = .ok v) : (d.withLimits L').decode H G b = .ok v := by
  obtain ⟨⟨key, admission, limits⟩, encryptionKey⟩ := d
  cases encryptionKey with
  | none => exact decodeSigned_loosen hle h
  | some contentKey =>
    have hcap : min maxTokenSize L.maxCborPayloadSize ≤ min maxTokenSize L'.maxCborPayloadSize :=
      min_le_min_left maxTokenSize (hle .maxCborPayloadSize)
    obtain ⟨inner, hinner, h⟩ := Except.bind_eq_ok.mp h
    obtain ⟨verified, hverified, h⟩ := Except.bind_eq_ok.mp h
    refine Except.bind_eq_ok.mpr ⟨inner, coseDecrypt0WithMaxPlaintext_loosen hcap hinner, ?_⟩
    exact Except.bind_eq_ok.mpr ⟨verified, decodeSigned_loosen hle hverified, h⟩

end

/-! ## From the builder to the token

A row of settings makes limits if the builder takes all of them, and what counts is the value
set last for each.
-/

/-- The limits that a row of settings comes to, from the defaults. -/
def CwtLimitsBuilder.limitsOf (settings : List (CwtLimit × Nat)) : Except CatError CwtLimits := do
  let b ← CwtLimitsBuilder.new.configure settings
  b.build

/-- The last value set for a limit, or its default. -/
def CwtLimitsBuilder.lastSet (settings : List (CwtLimit × Nat)) : CwtLimit → Nat :=
  settings.foldl (fun value s => Function.update value s.1 s.2) CwtLimits.default.value

theorem limitsOf_eq_ok {settings : List (CwtLimit × Nat)} :
    CwtLimitsBuilder.limitsOf settings = .ok L ↔ (∀ s ∈ settings, s.1.InRange s.2) ∧
      CwtLimitsBuilder.lastSet settings .maxStringClaimLength ≤
        CwtLimitsBuilder.lastSet settings .maxTotalStringBytes ∧
      L.value = CwtLimitsBuilder.lastSet settings := by
  unfold CwtLimitsBuilder.limitsOf
  rw [Except.bind_eq_ok]
  constructor
  · rintro ⟨b, hb, hbuild⟩
    obtain ⟨hrange, hinner⟩ := CwtLimitsBuilder.configure_eq_ok.mp hb
    obtain ⟨hvalue, hstrings⟩ := CwtLimitsBuilder.build_eq_ok.mp hbuild
    rw [hinner] at hvalue hstrings
    exact ⟨hrange, hstrings, hvalue⟩
  · rintro ⟨hrange, hstrings, hvalue⟩
    refine ⟨⟨CwtLimitsBuilder.lastSet settings, hvalue ▸ L.inRange⟩, ?_, ?_⟩
    · exact CwtLimitsBuilder.configure_eq_ok.mpr ⟨hrange, rfl⟩
    · exact CwtLimitsBuilder.build_eq_ok.mpr ⟨hvalue, hstrings⟩

/-- **Limits only refuse.** The builder's limits are the values last set, all of them below the
    ceiling; what a decoder accepts within them, signed or encrypted, it accepts as the same token
    within any others that were set no lower.

    A limit is compared in many places, and some of what is counted is counted in claim sets within
    claim sets. That room to spare changes nothing in what is read is shown for each decoder
    once. -/
theorem looserLimits (settings settings' : List (CwtLimit × Nat))
    (hL : CwtLimitsBuilder.limitsOf settings = .ok L)
    (hL' : CwtLimitsBuilder.limitsOf settings' = .ok L') :
    L.value = CwtLimitsBuilder.lastSet settings ∧ L ≤ CwtLimits.ceiling ∧
      ((∀ l, CwtLimitsBuilder.lastSet settings l ≤ CwtLimitsBuilder.lastSet settings' l) →
        ∀ (H : Host) (G : AesGcm) (d : ContentDecoder) (b : Bytes) (v : VerifiedToken),
          (d.withLimits L).decode H G b = .ok v → (d.withLimits L').decode H G b = .ok v) := by
  obtain ⟨-, -, hvalue⟩ := limitsOf_eq_ok.mp hL
  obtain ⟨-, -, hvalue'⟩ := limitsOf_eq_ok.mp hL'
  refine ⟨hvalue, L.le_ceiling, fun hset H G d b v h => decode_loosen (fun l => ?_) h⟩
  rw [hvalue, hvalue']
  exact hset l

end

/-! ### A token with a composite, within two rows of limits -/

/-- `{1: "A", 324: [{1: "B"}, {325: [{3: "C"}]}]}`. -/
def nestedPayload : Bytes :=
  [0xa2, 0x01, 0x61, 0x41, 0x19, 0x01, 0x44, 0x82, 0xa1, 0x01, 0x61, 0x42, 0xa1, 0x19, 0x01, 0x45,
    0x81, 0xa1, 0x03, 0x61, 0x43]

/-- Just enough for the payload: five levels, seven claims and entries, three strings of a byte. -/
def tightRow : List (CwtLimit × Nat) :=
  [(.maxStringClaimLength, 64), (.maxNestingDepth, 5), (.maxTotalStringBytes, 3),
    (.maxStringClaimLength, 1), (.maxTotalItems, 7)]

def tightLimits : CwtLimits :=
  { CwtLimits.default with
    maxStringClaimLength := 1, maxNestingDepth := 5, maxTotalItems := 7, maxTotalStringBytes := 3
    string_ok := by decide, nesting_ok := by decide, items_ok := by decide, total_ok := by decide
    strings_ok := by decide }

def looseRow : List (CwtLimit × Nat) :=
  [(.maxTotalItems, 20), (.maxNestingDepth, 12), (.maxStringClaimLength, 32),
    (.maxTotalStringBytes, 512), (.maxRegexCount, 60)]

def looseLimits : CwtLimits :=
  { CwtLimits.default with
    maxStringClaimLength := 32, maxNestingDepth := 12, maxTotalItems := 20
    maxTotalStringBytes := 512, maxRegexCount := 60
    string_ok := by decide, nesting_ok := by decide, items_ok := by decide, total_ok := by decide
    regex_ok := by decide, strings_ok := by decide }

def nestedDecoder : ContentDecoder := (Decoder.withAlgorithm (sampleAlgorithm [1])).signedOnly

/-- The token is accepted within the tight row, so within the loose one, with its claims. -/
theorem looserLimits_nestedToken :
    CwtLimitsBuilder.limitsOf tightRow = .ok tightLimits ∧
      CwtLimitsBuilder.limitsOf looseRow = .ok looseLimits ∧
      ((nestedDecoder.withLimits tightLimits).decode .reference zeroGcm
        (sampleEnvelope nestedPayload)).map (fun v => (v.token.core.iss,
          v.token.composite.orClaim.map (·.claims.length))) = .ok (some "A", some 2) ∧
      ∀ v, (nestedDecoder.withLimits tightLimits).decode .reference zeroGcm
          (sampleEnvelope nestedPayload) = .ok v →
        (nestedDecoder.withLimits looseLimits).decode .reference zeroGcm
          (sampleEnvelope nestedPayload) = .ok v := by
  have hL : CwtLimitsBuilder.limitsOf tightRow = .ok tightLimits :=
    limitsOf_eq_ok.mpr ⟨by decide, by decide, by funext l; cases l <;> rfl⟩
  have hL' : CwtLimitsBuilder.limitsOf looseRow = .ok looseLimits :=
    limitsOf_eq_ok.mpr ⟨by decide, by decide, by funext l; cases l <;> rfl⟩
  refine ⟨hL, hL', by decide +kernel, fun v h => ?_⟩
  exact (looserLimits _ _ hL hL').2.2 (fun l => by cases l <;> decide) _ _ _ _ v h

end Cat
