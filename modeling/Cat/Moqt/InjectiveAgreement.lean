import Cat.Dpop.CommitKey
import Cat.Dpop.Origins
import Cat.Moqt.Admission
import Cat.Moqt.ProofBinding
import Mathlib.Data.Set.Card

/-!
# Authorized calls and the proofs that were made for them

The holder of a key makes proofs of possession, anybody may send them, and relays authorize
calls over them in any interleaving. A call for a token that is bound to the key was made for:
the holder has signed a proof for its action, its names and its token. Where the relays keep the
identifiers, one proof that was made lets one call through, so there are no more such calls than
proofs (`injectiveAgreement`).

Of the key it is asked that nothing verifies with it but what its holder signed. The identifiers
are entered under the issuer too, and that is the same for two calls with one proof: the proof
holds the hash of the token.

Agreement is the property of one call, and it comes from the bytes: what was verified is an
input that was signed, and what was read from it says what was signed (`Dpop.Origins`). That it
is injective is a property of runs, and it comes from `Admitted`: two calls with one proof would
own one key. The counting is then a map from calls to proofs that takes no two calls to one.

Hashes are taken to have no collisions on the tokens that are shown, and
`tokensAgree_of_decoder` reduces this to the hash.
-/

set_option autoImplicit false

namespace Cat

open Cbor

section
variable {H : Host} {σ₀ σ γ : Type}

namespace RelayCall

def ctx : RelayCall H σ₀ σ γ → RelayRequestContext H
  | sync _ _ _ ctx | async _ _ _ ctx => ctx

/-- The call's token is bound to the key with this thumbprint. -/
def BoundTo (jkt : Bytes) (c : RelayCall H σ₀ σ γ) : Prop :=
  ∃ cnf, c.token.claims.dpop.cnf = some cnf ∧ cnf.jkt = jkt

/-- The call was decided for by some validator that accepted its proof. -/
theorem proofAccepted {c : RelayCall H σ₀ σ γ} {env : Ambient}
    {blockList : Option CatPorBlockList} {pre : PreCommit} {cnf : ConfirmationClaim}
    (hcnf : c.token.claims.dpop.cnf = some cnf)
    (h : (c.precommit env blockList).1 = .ok pre) :
    ∃ (τ : Type) (v : MoqtValidator τ) (d : DpopValidator τ) (proof : DpopProof H),
      v.ProofAccepted env c.token c.ctx cnf d proof ∧
        pre.jtiCommit = v.commitKeyOf d proof cnf c.token.claims.core.iss := by
  have haccepted {τ : Type} (v : MoqtValidator τ) {configured : Bool}
      {list : Option CatPorBlockList}
      (h : (v.authorizePrecommit env c.token c.ctx configured list).1 = .ok pre) :
      ∃ d proof, v.ProofAccepted env c.token c.ctx cnf d proof ∧
        pre.jtiCommit = v.commitKeyOf d proof cnf c.token.claims.core.iss := by
    have hobligations := (MoqtValidator.authorizePrecommit_ok h).2.2
    exact MoqtValidator.dpopCommit_ok hcnf (MoqtValidator.obligations_ok hobligations).2.2
  cases c with
  | sync v guard token ctx =>
    cases guard with
    | none => exact ⟨σ, v, haccepted v h⟩
    | some G => exact ⟨σ, v, haccepted v h⟩
  | async v guard token ctx =>
    cases guard with
    | none => exact ⟨σ₀, v.sync, haccepted v.sync h⟩
    | some G => exact ⟨σ₀, v.sync, haccepted v.sync h⟩

end RelayCall

/-- An identifier that is owed is that of the proof. -/
theorem MoqtValidator.commitKeyOf_eq_some {τ : Type} {v : MoqtValidator τ} {d : DpopValidator τ}
    {proof : DpopProof H} {cnf : ConfirmationClaim} {issuer : Option String}
    {entry : String × Int64} (h : v.commitKeyOf d proof cnf issuer = some entry) :
    ∃ cti, proof.payload.cti = some cti ∧
      entry = (DpopValidator.commitKey issuer cnf.jkt cti, proof.payload.iat) := by
  have hforced (h : DpopValidator.dpopCommitKeyForced proof cnf.jkt issuer = some entry) :
      ∃ cti, proof.payload.cti = some cti ∧
        entry = (DpopValidator.commitKey issuer cnf.jkt cti, proof.payload.iat) := by
    obtain ⟨cti, hcti, rfl⟩ := Option.map_eq_some_iff.mp h
    exact ⟨cti, hcti, rfl⟩
  unfold MoqtValidator.commitKeyOf DpopValidator.dpopCommitKey at h
  split at h
  · exact hforced h
  · split at h
    · cases h
    · exact hforced h

/-- The proof was made for the call: the call shows it, as it was read, and it names the action,
the names and the token of the call. -/
structure SignedFor (m : DpopProof H) (c : RelayCall H σ₀ σ γ) : Prop where
  presented : ∃ p, c.ctx.dpopProof = some p ∧ p.payload = m.payload.asRead m.wireFormat
  action : m.payload.actx.action.asRead = c.ctx.action
  target : c.ctx.action.resourceShape ≠ .endpoint →
    m.wireFormat.namesBack m.payload.actx.tns = c.ctx.namespaces ∧
      m.payload.actx.tn = c.ctx.track
  ath : m.payload.ath = some (H.sha256 c.token.serialized)

end

section
variable {ι : Type} {H : Host} {R : JsonReader} {σ₀ σ γ : Type}
  {calls : ι → RelayCall H σ₀ σ γ} {keys : σ → Set String} {ctis : γ → Set Bytes}
  {stores : RelayStores σ γ} {st : RelayState ι σ γ} {jkt : Bytes} {made : Set (DpopProof H)}

/-- Every proof that is shown arrived as bytes. -/
def ProofsArrive (R : JsonReader) (calls : ι → RelayCall H σ₀ σ γ) : Prop :=
  ∀ i p, (calls i).ctx.dpopProof = some p → ∃ wire, DpopProof.decode H R wire = .ok p

/-- The tokens that are shown: bytes with one hash are the same bytes, and have the same claims. -/
def TokensAgree (calls : ι → RelayCall H σ₀ σ γ) : Prop :=
  ∀ i j, H.sha256 (calls i).token.serialized = H.sha256 (calls j).token.serialized →
    (calls i).token.claims = (calls j).token.claims

/-- Calls with tokens of one decoder agree, where its hash has no collisions. -/
theorem tokensAgree_of_decoder {decode : Bytes → Except CatError VerifiedToken}
    (hhash : Set.InjOn H.sha256 (Set.range fun i => (calls i).token.serialized))
    (hdecoded : ∀ i, ∃ v, decode (calls i).token.serialized = .ok v ∧
      v.claims = (calls i).token.claims) : TokensAgree calls := by
  intro i j hij
  obtain ⟨v, hv, hclaims⟩ := hdecoded i
  obtain ⟨v', hv', hclaims'⟩ := hdecoded j
  have hbytes := hhash (Set.mem_range_self i) (Set.mem_range_self j) hij
  rw [hbytes] at hv
  obtain rfl := Except.ok.inj (hv.symm.trans hv')
  exact hclaims.symm.trans hclaims'

/-- The calls that the machine has authorized for the key, with an identifier entered. -/
def trackedCalls (calls : ι → RelayCall H σ₀ σ γ) (jkt : Bytes) (st : RelayState ι σ γ) : Set ι :=
  { i | (calls i).BoundTo jkt ∧ ∃ pre r, st.phase i = .authorized pre r ∧ pre.jtiCommit.isSome }

/-- **Agreement**, for one authorized call. -/
theorem signedFor_of_authorized (hb : Base64Lawful H) (L : JsonLaws H R)
    (hempty : DpopProof.NoEmptyJson R) (hholder : DpopProof.OnlySigned H jkt made)
    (hproofs : ProofsArrive R calls) (h : Admitted calls keys ctis st) {i : ι} {pre : PreCommit}
    {r : AuthorizedRequest} (hi : st.phase i = .authorized pre r)
    (hbound : (calls i).BoundTo jkt) : ∃ m ∈ made, SignedFor m (calls i) := by
  obtain ⟨env, list, hpre⟩ := h.decided i pre (by rw [hi]; rfl)
  obtain ⟨cnf, hcnf, rfl⟩ := hbound
  obtain ⟨τ, v, d, p, haccepted, -⟩ := RelayCall.proofAccepted hcnf hpre
  obtain ⟨wire, hwire⟩ := hproofs i p haccepted.presented
  obtain ⟨m, hm, -, -, hpayload⟩ := DpopProof.signed_of_verified hb L hempty hholder hwire
    haccepted.accepts.thumbprint_eq haccepted.accepts.verified
  have haction := haccepted.accepts.action_eq
  have htarget := haccepted.target
  have hath := haccepted.accepts.ath_eq _ rfl
  rw [hpayload] at haction htarget hath
  exact ⟨m, hm, ⟨p, haccepted.presented, hpayload⟩, haction, htarget, hath⟩

/-- Two calls that were authorized over one proof have entered one identifier. -/
theorem sameKey_of_signedFor (htokens : TokensAgree calls) (h : Admitted calls keys ctis st)
    {m : DpopProof H} {i j : ι} {pre pre' : PreCommit} {r r' : AuthorizedRequest}
    (hi : st.phase i = .authorized pre r) (hj : st.phase j = .authorized pre' r')
    (hbound : (calls i).BoundTo jkt) (hbound' : (calls j).BoundTo jkt)
    (hm : SignedFor m (calls i)) (hm' : SignedFor m (calls j))
    (htracked : pre.jtiCommit.isSome) (htracked' : pre'.jtiCommit.isSome) :
    ∃ key iat, pre.jtiCommit = some (key, iat) ∧ pre'.jtiCommit = some (key, iat) := by
  have hentry {i : ι} {pre : PreCommit} {r : AuthorizedRequest}
      (hi : st.phase i = .authorized pre r) (hbound : (calls i).BoundTo jkt)
      (hm : SignedFor m (calls i)) (htracked : pre.jtiCommit.isSome) :
      ∃ cti, m.payload.cti = some cti ∧ pre.jtiCommit =
        some (DpopValidator.commitKey (calls i).token.claims.core.iss jkt cti, m.payload.iat) := by
    obtain ⟨env, list, hpre⟩ := h.decided i pre (by rw [hi]; rfl)
    obtain ⟨cnf, hcnf, rfl⟩ := hbound
    obtain ⟨τ, v, d, p, haccepted, hcommit⟩ := RelayCall.proofAccepted hcnf hpre
    obtain ⟨p', hp', hpayload⟩ := hm.presented
    obtain rfl := Option.some.inj (haccepted.presented.symm.trans hp')
    obtain ⟨entry, hentry⟩ := Option.isSome_iff_exists.mp htracked
    obtain ⟨cti, hcti, rfl⟩ := MoqtValidator.commitKeyOf_eq_some (hcommit.symm.trans hentry)
    rw [hpayload] at hcti hentry
    exact ⟨cti, hcti, hentry⟩
  obtain ⟨cti, hcti, hkey⟩ := hentry hi hbound hm htracked
  obtain ⟨cti', hcti', hkey'⟩ := hentry hj hbound' hm' htracked'
  obtain rfl := Option.some.inj (hcti.symm.trans hcti')
  have hclaims := htokens i j (Option.some.inj (hm.ath.symm.trans hm'.ath))
  rw [← hclaims] at hkey'
  exact ⟨_, _, hkey, hkey'⟩

variable [DecidableEq ι]

/-- **Injective agreement**: in any interleaving of calls, every call that was authorized for a
    token bound to the holder's key was made for by the holder; one proof lets at most one call
    through where identifiers are kept; and of such calls there are no more than proofs.

    The signature says that the holder made the proof, and the store that it is used once; without
    the store a proof could serve any number of calls for the same names. What is assumed is about
    what lies outside of the crate: the signatures, the hashes and the two libraries. -/
theorem injectiveAgreement (hb : Base64Lawful H) (L : JsonLaws H R)
    (hempty : DpopProof.NoEmptyJson R) (hholder : DpopProof.OnlySigned H jkt made)
    (hproofs : ProofsArrive R calls) (htokens : TokensAgree calls)
    (hcalls : ∀ i, (calls i).Behaves keys ctis) {es : List ι}
    (hrun : Run (RelayStep calls) ⟨stores, fun _ => .idle⟩ es st) :
    (∀ i pre r, st.phase i = .authorized pre r → (calls i).BoundTo jkt →
      ∃ m ∈ made, SignedFor m (calls i)) ∧
    (∀ m, ∀ i ∈ trackedCalls calls jkt st, ∀ j ∈ trackedCalls calls jkt st,
      SignedFor m (calls i) → SignedFor m (calls j) → i = j) ∧
    (trackedCalls calls jkt st).encard ≤ made.encard := by
  have h : Admitted calls keys ctis st := (Admitted.start stores).run hcalls hrun
  have hagree : ∀ i pre r, st.phase i = .authorized pre r → (calls i).BoundTo jkt →
      ∃ m ∈ made, SignedFor m (calls i) := fun i pre r hi hbound =>
    signedFor_of_authorized hb L hempty hholder hproofs h hi hbound
  have hone : ∀ m, ∀ i ∈ trackedCalls calls jkt st, ∀ j ∈ trackedCalls calls jkt st,
      SignedFor m (calls i) → SignedFor m (calls j) → i = j := by
    rintro m i ⟨hbound, pre, r, hi, htracked⟩ j ⟨hbound', pre', r', hj, htracked'⟩ hm hm'
    obtain ⟨key, iat, hkey, hkey'⟩ :=
      sameKey_of_signedFor htokens h hi hj hbound hbound' hm hm' htracked htracked'
    -- the store has taken the identifier once
    refine h.entered.unique i j key ?_ ?_
    · show (st.phase i).enteredKey = some key
      rw [hi, CallPhase.enteredKey, hkey]
      rfl
    · show (st.phase j).enteredKey = some key
      rw [hj, CallPhase.enteredKey, hkey']
      rfl
  refine ⟨hagree, hone, ?_⟩
  classical
  have hmade (i : ι) (hi : i ∈ trackedCalls calls jkt st) : ∃ m ∈ made, SignedFor m (calls i) := by
    obtain ⟨hbound, pre, r, hphase, -⟩ := hi
    exact hagree i pre r hphase hbound
  choose f hf hfor using hmade
  refine Function.Embedding.encard_le (s := trackedCalls calls jkt st) (t := made)
    ⟨fun i => ⟨f i.1 i.2, hf i.1 i.2⟩, fun i j hij => ?_⟩
  have heq : f i.1 i.2 = f j.1 j.2 := congrArg Subtype.val hij
  exact Subtype.ext (hone _ _ i.2 _ j.2 (hfor i.1 i.2) (heq ▸ hfor j.1 j.2))

end

/-! ### One proof, sent twice -/

def subscribeBytes : SignedInput :=
  ⟨(subscribeSigningInput.drop 14).take 97, subscribeSigningInput.drop 114⟩

/-- The proof as a relay has it from the wire. -/
def subscribeReceived : DpopProof subscriberHost :=
  .cwtForm subscribeProof.header subscribeProof.payload subscribeBytes subscribeSignature

def subscribeCalls (_ : Bool) :
    RelayCall subscriberHost InMemoryStrictJtiStore InMemoryStrictJtiStore (List Bytes) :=
  .sync subscribeValidator none subscribeValidated
    { subscribeContext with dpopProof := some subscribeReceived }

/-- What either call owes. -/
def subscribePre : PreCommit :=
  ⟨0, none, none, some (DpopValidator.commitKey none subscriberJkt [1, 2], 1000), none⟩

theorem subscriberHost_base64 : Base64Lawful subscriberHost :=
  base64Lawful_of_reference (fun _ => rfl) fun _ => rfl

theorem subscriberHost_laws : JsonLaws subscriberHost setupReader where
  parse_written _ h := nomatch h
  keys_written _ h := nomatch h
  jwk_written := setupReader_laws.jwk_written

theorem subscribeProof_encoded :
    encodeHeaderAndPayload subscriberHost .cwt subscribeProof.header subscribeProof.payload =
      .ok subscribeBytes := by decide +kernel

theorem subscribeProof_signedOver : subscribeProof.SignedOver subscribeSigningInput :=
  ⟨subscribeBytes, subscribeProof_encoded, by decide +kernel⟩

theorem subscribeReceived_arrives : ∃ wire,
    DpopProof.decode subscriberHost setupReader wire = .ok subscribeReceived := by
  have hok : (DpopProof.wire subscriberHost .cwt subscribeBytes subscribeSignature).isOk = true :=
    by decide +kernel
  cases hw : DpopProof.wire subscriberHost .cwt subscribeBytes subscribeSignature with
  | error e =>
    rw [hw] at hok
    cases hok
  | ok wire =>
    have hlen : (DpopProof.wire subscriberHost .cwt subscribeBytes subscribeSignature).map
        (fun wire => decide (wire.length ≤ maxDpopWireSize)) = .ok true := by decide +kernel
    rw [hw] at hlen
    refine ⟨wire, ?_⟩
    unfold DpopProof.decode
    rw [looksLikeJwt_cwt hw, if_neg Bool.false_ne_true]
    exact decodeCwtProof_wire subscriberHost_base64 (by decide) subscribeProof_encoded hw
      (of_decide_eq_true (Except.ok.inj hlen))

/-- The host verifies one input. -/
theorem subscriberHost_p256 {key input signature : Bytes} {verifier : Jwk.Verifier}
    (h : subscriberHost.p256 key = .ok verifier) (hok : verifier input signature = .ok ()) :
    input = subscribeSigningInput := by
  have h : (if key = subscriberPoint then
      .ok fun input signature =>
        if input = subscribeSigningInput ∧ signature = subscribeSignature then .ok ()
        else .error CatError.signatureVerificationFailed
    else .error "no key") = Except.ok verifier := h
  split at h
  · obtain rfl := Except.ok.inj h
    dsimp only at hok
    by_contra hne
    rw [if_neg fun hand => hne hand.1] at hok
    cases hok
  · cases h

theorem subscriberHost_onlySigned :
    DpopProof.OnlySigned subscriberHost subscriberJkt {subscribeProof} := by
  intro jwk alg input signature _ hverifies
  refine ⟨subscribeProof, rfl, ?_⟩
  suffices hinput : input = subscribeSigningInput from hinput ▸ subscribeProof_signedOver
  unfold Jwk.verifies at hverifies
  split at hverifies
  · obtain ⟨verify, hverify, h⟩ := Except.bind_eq_ok.mp hverifies
    obtain ⟨-, h₁⟩ := Except.guard_eq_ok.mp hverify
    obtain ⟨-, h₂⟩ := Except.guard_eq_ok.mp h₁
    obtain ⟨x, -, h₃⟩ := Except.bind_eq_ok.mp h₂
    obtain ⟨y, -, h₄⟩ := Except.bind_eq_ok.mp h₃
    obtain ⟨xBytes, -, h₅⟩ := Except.bind_eq_ok.mp h₄
    obtain ⟨yBytes, -, h₆⟩ := Except.bind_eq_ok.mp h₅
    split at h₆
    · rename_i verifier hverifier
      obtain rfl := Except.pure_eq_ok.mp h₆
      exact subscriberHost_p256 hverifier h
    · cases h₆
  · split at hverifies
    · obtain ⟨verify, hverify, -⟩ := Except.bind_eq_ok.mp hverifies
      obtain ⟨-, h₁⟩ := Except.guard_eq_ok.mp hverify
      obtain ⟨n, -, h₂⟩ := Except.bind_eq_ok.mp h₁
      obtain ⟨e, -, h₃⟩ := Except.bind_eq_ok.mp h₂
      obtain ⟨nBytes, -, h₄⟩ := Except.bind_eq_ok.mp h₃
      obtain ⟨eBytes, -, h₅⟩ := Except.bind_eq_ok.mp h₄
      cases h₅
    · cases hverifies

theorem subscribeCalls_behaves (i : Bool) : (subscribeCalls i).Behaves
    (fun s => { key | ∃ iat, s.Holds key iat }) (fun seen => { cti | cti ∈ seen }) := by
  refine ⟨fun d hd => ?_, fun g hg => nomatch hg⟩
  obtain rfl := Option.some.inj hd
  exact InMemoryStrictJtiStore.checksAndInserts

/-- Both calls are decided for before either enters the identifier. -/
theorem injectiveAgreement_subscribe : ∃ st,
    Run (RelayStep subscribeCalls) ⟨subscribeStores, fun _ => .idle⟩ [true, false, true, true] st ∧
      true ∈ trackedCalls subscribeCalls subscriberJkt st ∧
      (trackedCalls subscribeCalls subscriberJkt st).encard ≤ 1 := by
  have hpre (i : Bool) : (subscribeCalls i).precommit ⟨1000, 1000, none⟩ none =
      (.ok subscribePre, none) := by
    cases i <;> exact Prod.ext (by decide +kernel) rfl
  have henter : ((subscribeCalls true).commitJti ⟨1000, 1000, none⟩ subscribePre
      subscribeStores.jti).1 = .ok () := by decide +kernel
  have hrun : Run (RelayStep subscribeCalls) ⟨subscribeStores, fun _ => .idle⟩
      [true, false, true, true] _ :=
    .cons (.decide rfl (hpre true)) <| .cons (.decide rfl (hpre false)) <|
    .cons (@RelayStep.enter _ _ _ _ _ _ _ _ _ _ _ _ _ ⟨1000, 1000, none⟩ _ rfl
      (Prod.ext henter rfl)) <|
    .cons (@RelayStep.authorize _ _ _ _ _ _ _ _ _ _ _ _ _ _ false rfl rfl) <|
    .nil _
  have harrive : ProofsArrive setupReader subscribeCalls := by
    intro i p h
    obtain rfl := Option.some.inj h
    exact subscribeReceived_arrives
  obtain ⟨-, -, hcount⟩ := injectiveAgreement subscriberHost_base64 subscriberHost_laws
    (fun v h => nomatch h) subscriberHost_onlySigned harrive (fun i j _ => rfl)
    subscribeCalls_behaves hrun
  rw [Set.encard_singleton] at hcount
  exact ⟨_, hrun, ⟨⟨⟨subscriberJkt, none⟩, rfl, rfl⟩, subscribePre, _, rfl, rfl⟩, hcount⟩

end Cat
