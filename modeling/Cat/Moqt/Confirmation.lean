import Cat.Cwt.EncodeSpec
import Cat.Moqt.Mediation

/-!
# A confirmation survives the codec

A token with a confirmation is bound to a key: without a proof of possession no request with it
is authorized. Here it is shown that a confirmation which names a key — a thumbprint that is not
empty, or a COSE key thumbprint — is neither lost nor changed by decoding and by encoding.
Nothing is said of one that names none, which both directions drop.

A confirmation that is lost on the way makes a bound token a bearer token, and of all changes to
a claim this is the one an attacker would ask for. So the statement is in two directions:
whatever a payload has under the label of `cnf`, by its map, the decoded token has; and whatever
a token has, its payload has.

The map is read member by member, and a later member overwrites an earlier one under the same
label or, for the thumbprint, under the legacy one. `ConfirmationClaim.ofMembers` says what
results from all members at once.
-/

set_option autoImplicit false

namespace Cat

open Cbor

/-! ## The confirmation of a `cnf` map -/

/-- Whether a member is under one of these labels. -/
def memberUnder (labels : List Int64) (key : Value) : Bool :=
  match decodeMemberKey "cnf" key with
  | .ok label => labels.contains label
  | .error _ => false

/-- The byte string of the last member under one of these labels. -/
def lastBytes (labels : List Int64) : List (Value × Value) → Option Bytes
  | [] => none
  | (k, v) :: es =>
    (lastBytes labels es).or
      (if memberUnder labels k then match v with | .bytes b => some b | _ => none else none)

/-- What the members say. The thumbprint has a label and a legacy label. -/
def ConfirmationClaim.ofMembers (members : List (Value × Value)) : ConfirmationClaim :=
  ⟨(lastBytes [cnfJkt, cnfJktLegacy] members).getD [], lastBytes [cnfCkt] members⟩

/-- A confirmation of some key. -/
def ConfirmationClaim.NamesKey (cnf : ConfirmationClaim) : Prop := cnf.jkt ≠ [] ∨ cnf.ckt.isSome

instance (cnf : ConfirmationClaim) : Decidable cnf.NamesKey :=
  inferInstanceAs (Decidable (_ ∨ _))

/-! ## Decoding -/

/-- A confirmation in part read already, and the members that are left. -/
theorem decodeCnfMembers_ok {members : List (Value × Value)} :
    ∀ {jkt jkt' : Bytes} {ckt ckt' : Option Bytes},
      decodeCnfMembers jkt ckt members = .ok (jkt', ckt') →
      jkt' = (lastBytes [cnfJkt, cnfJktLegacy] members).getD jkt ∧
        ckt' = (lastBytes [cnfCkt] members).or ckt := by
  induction members with
  | nil =>
    intro jkt jkt' ckt ckt' h
    obtain ⟨rfl, rfl⟩ := Prod.mk.inj (Except.ok.inj h)
    exact ⟨rfl, rfl⟩
  | cons e es ih =>
    obtain ⟨k, v⟩ := e
    intro jkt jkt' ckt ckt' h
    unfold decodeCnfMembers at h
    split at h
    · exact absurd h (by simp)
    · rename_i label hlabel
      have hunder (labels : List Int64) : memberUnder labels k = labels.contains label := by
        rw [memberUnder, hlabel]
      split at h
      · -- a thumbprint: the new one counts unless another follows
        rename_i hjkt
        split at h
        · rename_i b
          obtain ⟨hj, hc⟩ := ih h
          have hnot : label ≠ cnfCkt := by
            intro hckt
            rw [hckt] at hjkt
            exact absurd hjkt (by decide)
          rw [hj, hc]
          simp only [lastBytes, hunder]
          cases lastBytes [cnfJkt, cnfJktLegacy] es with
          | none => simp [hjkt, hnot]
          | some b' => simp [hnot]
        · exact absurd h (by simp)
      · rename_i hjkt
        split at h
        · rename_i hckt
          split at h
          · obtain ⟨hj, hc⟩ := ih h
            have hother : memberUnder [cnfJkt, cnfJktLegacy] k = false := by
              rw [hunder]
              simpa using hjkt
            have hsame : memberUnder [cnfCkt] k = true := by
              rw [hunder]
              simpa using hckt
            rw [hj, hc]
            simp only [lastBytes, hother, hsame]
            cases lastBytes [cnfCkt] es with
            | none => simp
            | some b' => simp
          · exact absurd h (by simp)
        · rename_i hckt
          obtain ⟨hj, hc⟩ := ih h
          rw [hj, hc]
          simp only [lastBytes, hunder]
          simp [hjkt, hckt]

theorem decodeCnf_ok {v : Value} {s s' : DecodeCounters} {c : Option ConfirmationClaim}
    (h : decodeCnf v s = .ok (c, s')) : ∃ members, v = .map members ∧
      c = if (ConfirmationClaim.ofMembers members).NamesKey then some (.ofMembers members)
        else none := by
  obtain ⟨_, s₁, -, h₁⟩ := StateT.bind_eq_ok.mp h
  cases v with
  | map members =>
    obtain ⟨⟨jkt, ckt⟩, s₂, hmembers, h₂⟩ := StateT.bind_eq_ok.mp h₁
    obtain ⟨hjkt, hckt⟩ := decodeCnfMembers_ok (StateT.lift_eq_ok.mp hmembers).1
    obtain ⟨rfl, -⟩ := StateT.pure_eq_ok.mp h₂
    refine ⟨members, rfl, ?_⟩
    rw [Option.or_none] at hckt
    rw [ConfirmationClaim.ofMembers, ← hjkt, ← hckt]
    cases jkt with
    | nil => cases ckt <;> rfl
    | cons b bs => rfl
  | _ => exact absurd h₁ StateT.throw_ne_ok

section
variable {H : Host} {limits : CwtLimits} {composite : CompositeDecoder}

theorem assign_cnf (t : CatToken) (d : DecodedClaim) (h : d.label ≠ claimCnf) :
    (t.assign d).dpop.cnf = t.dpop.cnf := by
  unfold CatToken.assign
  split <;> first | rfl | exact absurd rfl h

/-- Only the confirmation is decoded from its label. -/
theorem decodedFrom_cnf {n : Nat} {v : Value} {s s' : DecodeCounters} {d : DecodedClaim}
    (hd : d.label = claimCnf) (h : DecodedFrom H limits composite n v s s' d) :
    ∃ c, d = .cnf c ∧ decodeCnf v s = .ok (c, s') := by
  cases d with
  | cnf c => exact ⟨c, rfl, h⟩
  | custom id hid v =>
    obtain rfl : id = claimCnf := hd
    exact absurd hid (by decide)
  | _ =>
    simp only [DecodedClaim.label] at hd
    exact absurd hd (by decide)

/-- **The confirmation of a decoded token** is what the map under its label says. -/
theorem DecodesTo.cnf_eq {b : Bytes} {es : List (Value × Value)} {ds : List DecodedClaim}
    {t : CatToken} (h : DecodesTo H limits composite b es ds t) {v : Value}
    (he : (i64Value claimCnf, v) ∈ es) : ∃ members, v = .map members ∧
      t.dpop.cnf = if (ConfirmationClaim.ofMembers members).NamesKey then some (.ofMembers members)
        else none := by
  obtain ⟨d, hd, hlabel, n, s, s', hdec⟩ := h.mem_claims he
  obtain ⟨c, rfl, hc⟩ := decodedFrom_cnf hlabel (decodeClaim_ok hdec).2
  obtain ⟨members, rfl, hmembers⟩ := decodeCnf_ok hc
  obtain ⟨t₀, hnew, ht⟩ := h.assigned (·.dpop.cnf) assign_cnf hd rfl
  refine ⟨members, rfl, ?_⟩
  rw [ht, ← hmembers]
  cases c with
  | none => exact hnew
  | some cnf => rfl

end

/-! ## Encoding -/

theorem cnfMap_ne_nil {cnf : ConfirmationClaim} (h : cnf.NamesKey) :
    (cnfMap cnf).isEmpty = false := by
  obtain ⟨jkt, ckt⟩ := cnf
  unfold cnfMap
  cases ckt with
  | some ckt => rfl
  | none =>
    cases jkt with
    | nil => exact absurd h (by decide)
    | cons b bs => rfl

theorem ofMembers_cnfMap (cnf : ConfirmationClaim) : .ofMembers (cnfMap cnf) = cnf := by
  obtain ⟨jkt, ckt⟩ := cnf
  cases ckt with
  | some ckt =>
    cases jkt with
    | nil => rfl
    | cons b bs => rfl
  | none =>
    cases jkt with
    | nil => rfl
    | cons b bs => rfl

theorem readBack_cnfMap (cnf : ConfirmationClaim) :
    (Value.map (cnfMap cnf)).readBack = .map (cnfMap cnf) := by
  obtain ⟨jkt, ckt⟩ := cnf
  cases ckt with
  | some ckt =>
    cases jkt with
    | nil => rfl
    | cons b bs => rfl
  | none =>
    cases jkt with
    | nil => rfl
    | cons b bs => rfl

section
variable {H : Host} {t : CatToken} {cnf : ConfirmationClaim} {b : Bytes}

/-- **An encoded token has its confirmation** under the label. -/
theorem encodePayload_cnf (hcnf : t.dpop.cnf = some cnf) (hkey : cnf.NamesKey)
    (h : encodePayload H t = .ok b) : ∃ m, H.cbor.write (claimsValue m) = .ok b ∧
      (claimCnf, .map (cnfMap cnf)) ∈ m := by
  obtain ⟨m, hm, hw⟩ := encodePayload_ok h
  refine ⟨m, hw, ((claimsMap_ok hm).2 _ _).mpr (.inr ⟨reserved_not_custom (by decide), ?_⟩)⟩
  refine ⟨encodeCnf, by simp [claimEncoders], ?_⟩
  rw [encodeCnf, hcnf]
  show unlessEmpty (cnfMap cnf) = _
  rw [unlessEmpty, cnfMap_ne_nil hkey]
  rfl

/-- It comes back from every decoder. -/
theorem decode_encoded_cnf {limits : CwtLimits} {t' : CatToken} (hcnf : t.dpop.cnf = some cnf)
    (hkey : cnf.NamesKey) (h : encodePayload H t = .ok b)
    (hd : decodePayloadWithLimits H limits b = .ok t') : t'.dpop.cnf = some cnf := by
  obtain ⟨m, hw, hmem⟩ := encodePayload_cnf hcnf hkey h
  obtain ⟨es, ds, hdecodes⟩ := decodePayloadWithLimits_ok hd
  have hes := (hdecodes.of_written hw).1
  have he : (i64Value claimCnf, .map (cnfMap cnf)) ∈ es := by
    rw [hes, ← readBack_cnfMap]
    exact List.mem_map_of_mem (f := fun e : Int64 × Value => (i64Value e.1, e.2.readBack)) hmem
  obtain ⟨members, hmembers, heq⟩ := hdecodes.cnf_eq he
  obtain rfl := Value.map.inj hmembers
  rw [heq, ofMembers_cnfMap, if_pos hkey]

end

/-! ## Bound tokens stay bound -/

section
variable {H : Host} {σ γ : Type}

/-- **No authorization without a proof** for a token that has a confirmation. -/
theorem MoqtValidator.authorizeCall_needs_proof {v : MoqtValidator σ}
    {guard : Option (ReplayGuard γ)} {env : Ambient} {token : ValidatedToken}
    {ctx : RelayRequestContext H} {st : RelayStores σ γ} (hcnf : token.claims.dpop.cnf.isSome)
    (hproof : ctx.dpopProof = none) (r : AuthorizedRequest) :
    (v.authorizeCall guard env token ctx st).1 ≠ .ok r := by
  intro h
  obtain ⟨cnf, hcnf⟩ := Option.isSome_iff_exists.mp hcnf
  obtain ⟨pre, hpre, -⟩ := authorizeCall_ok h
  have hdpop := (obligations_ok (authorizePrecommit_ok hpre).2.2).2.2
  obtain ⟨validator, proof, haccepted, -⟩ := dpopCommit_ok hcnf hdpop
  exact absurd (hproof.symm.trans haccepted.presented) (by simp)

end

/-- **A confirmation that names a key survives the codec.** Decoded, the token has the
    confirmation of the map, and needs a proof; encoded, it has an entry that decodes to the
    confirmation again.

    A confirmation without a key thumbprint is accepted if it has a COSE key thumbprint, and a proof
    is still asked for. What names no key at all is dropped in both directions; nothing is said
    about it here. -/
theorem confirmation_kept (H : Host) :
    (∀ b t es v, decodePayload H b = .ok t →
      H.cbor.read cborMaxRecursionDepth b = .ok (.map es, []) → (i64Value claimCnf, v) ∈ es →
      ∃ members, v = .map members ∧ ((ConfirmationClaim.ofMembers members).NamesKey →
        t.dpop.cnf = some (.ofMembers members) ∧
        ∀ {σ γ : Type} (validator : MoqtValidator σ) (guard : Option (ReplayGuard γ)) env
          (token : ValidatedToken) (ctx : RelayRequestContext H) st r, token.claims = t →
          ctx.dpopProof = none → (validator.authorizeCall guard env token ctx st).1 ≠ .ok r)) ∧
    ∀ t cnf b, t.dpop.cnf = some cnf → cnf.NamesKey → encodePayload H t = .ok b →
      ∃ m, H.cbor.write (claimsValue m) = .ok b ∧ (claimCnf, .map (cnfMap cnf)) ∈ m ∧
        ConfirmationClaim.ofMembers (cnfMap cnf) = cnf ∧
        ∀ t', decodePayload H b = .ok t' → t'.dpop.cnf = some cnf := by
  constructor
  · intro b t es v hd hread he
    obtain ⟨es', ds, hdecodes⟩ := decodePayloadWithLimits_ok hd
    obtain rfl : es = es' := by
      have heq := Prod.mk.inj (Except.ok.inj (hread.symm.trans hdecodes.read_eq))
      exact Value.map.inj heq.1
    obtain ⟨members, rfl, hcnf⟩ := hdecodes.cnf_eq he
    refine ⟨members, rfl, fun hkey => ?_⟩
    rw [if_pos hkey] at hcnf
    refine ⟨hcnf, fun validator guard env token ctx st r htoken hproof => ?_⟩
    apply MoqtValidator.authorizeCall_needs_proof _ hproof
    rw [htoken, hcnf]
    rfl
  · intro t cnf b hcnf hkey h
    obtain ⟨m, hw, hmem⟩ := encodePayload_cnf hcnf hkey h
    exact ⟨m, hw, hmem, ofMembers_cnfMap cnf, fun t' hd => decode_encoded_cnf hcnf hkey h hd⟩

theorem confirmation_kept_jkt :
    ∃ t, decodePayload .reference [0xa1, 0x08, 0xa1, 0x19, 0x01, 0x43, 0x41, 0x01] = .ok t ∧
      t.dpop.cnf = some ⟨[1], none⟩ := by
  let b : Bytes := [0xa1, 0x08, 0xa1, 0x19, 0x01, 0x43, 0x41, 0x01]
  have hd : (decodePayload .reference b).map (fun _ => ()) = .ok () := by decide +kernel
  obtain ⟨t, hd, -⟩ := Except.map_eq_ok.mp hd
  have hread : Host.reference.cbor.read cborMaxRecursionDepth b =
      .ok (.map [(i64Value claimCnf, .map [(i64Value cnfJkt, .bytes [1])])], []) := rfl
  obtain ⟨members, hv, hkept⟩ :=
    (confirmation_kept .reference).1 b t _ _ hd hread List.mem_cons_self
  obtain rfl := Value.map.inj hv
  exact ⟨t, hd, (hkept (by decide)).1⟩

/-- A map with a COSE key thumbprint alone: the thumbprint of the JWK is empty. -/
theorem confirmation_without_jkt :
    ¬∀ (H : Host) b t es v, decodePayload H b = .ok t →
      H.cbor.read cborMaxRecursionDepth b = .ok (.map es, []) → (i64Value claimCnf, v) ∈ es →
      ∃ cnf, t.dpop.cnf = some cnf ∧ cnf.jkt ≠ [] := by
  intro h
  let b : Bytes := [0xa1, 0x08, 0xa1, 0x06, 0x41, 0x01]
  have hd : (decodePayload .reference b).map (·.dpop.cnf) = .ok (some ⟨[], some [1]⟩) := by
    decide +kernel
  obtain ⟨t, hd, hcnf⟩ := Except.map_eq_ok.mp hd
  have hread : Host.reference.cbor.read cborMaxRecursionDepth b =
      .ok (.map [(i64Value claimCnf, .map [(i64Value cnfCkt, .bytes [1])])], []) := rfl
  obtain ⟨cnf, hsome, hjkt⟩ := h .reference b t _ _ hd hread List.mem_cons_self
  obtain rfl := Option.some.inj (hcnf.symm.trans hsome)
  exact hjkt rfl

end Cat
