import Cat.Dpop.Honest
import Cat.Moqt.OwnClaims
import Cat.Moqt.TokenSettings

/-!
# Whether an honest client gets through

A client makes a proof for its request, signs and encodes it; the token is bound to its key and
permits the request, and no store has seen anything yet. `authorize_honest_iff` says when
`authorize` then returns `Ok`. It is not always: a format has a tuple of names that it does not
return, and the strict store refuses a key of more than 256 bytes, of which issuer, thumbprint
and identifier are parts.

Most results about a guard say what it keeps out. This one is on the side of those who are to
come in, and it goes through the whole of the crate: builders, codec, signature, pipeline,
stores. `Permits` gathers what the claims ask besides the proof, as conditions on the token and
the request, and with them the pipeline can be run forwards to the proof
(`authorizeCall_isOk_iff`).

What is left are the conditions on the proof. Those that an honest client meets by construction
are discharged here; the others make up the right-hand side of the theorem, each in terms of
what the client or the relay has chosen. The failing case at the end is a setup in CBOR, with a
key, a signature and two digests of real values.
-/

set_option autoImplicit false

namespace Cat

open Cbor

/-! ## The store key

The length of the key is what the store looks at, and it can be told from the three parts.
-/

theorem utf8_hex_length (b : Bytes) : (utf8 (String.ofList (Hex.encode b))).length =
    2 * b.length := by
  have hascii : ∀ c ∈ Hex.encode b, c.toNat < 128 := by
    intro c hc
    obtain ⟨x, -, hc⟩ := List.mem_flatMap.mp hc
    have hlt := x.toNat_lt
    rw [Hex.byte, List.mem_pair] at hc
    rcases hc with rfl | rfl
    · exact (hexDigit_ascii (n := x.toNat / 16) (by omega)).1
    · exact (hexDigit_ascii (n := x.toNat % 16) (by omega)).1
  rw [utf8_ofList hascii, codes, List.length_map, Hex.length_encode]

theorem commitKey_length (issuer : Option String) (thumbprint cti : Bytes) :
    (utf8 (DpopValidator.commitKey issuer thumbprint cti)).length =
      (utf8 (issuer.getD "_")).length + 2 * thumbprint.length + 2 * cti.length + 2 := by
  have hcolon : (utf8 ":").length = 1 := by decide +kernel
  unfold DpopValidator.commitKey
  simp only [utf8_append, List.length_append, utf8_hex_length, hcolon]
  omega

/-- A store that was never used takes any key it has the length and the room for. -/
theorem checkAndInsert_build {hash : String → UInt64} {w : Int64} {max : Option Nat}
    {key : String} {iat : Int64} :
    ((InMemoryStrictJtiStore.build hash w max).checkAndInsert key iat).1 = .ok () ↔
      (utf8 key).length ≤ maxJtiLengthBytes ∧ max ≠ some 0 := by
  unfold InMemoryStrictJtiStore.checkAndInsert
  by_cases hlen : (utf8 key).length > maxJtiLengthBytes
  · rw [if_pos hlen]
    simp [hlen]
  · rw [if_neg hlen]
    have hroom : (InMemoryStrictJtiStore.build hash w max).overCapacity =
        if max = some 0 then some 0 else none := by
      unfold InMemoryStrictJtiStore.overCapacity InMemoryStrictJtiStore.build
      cases max with
      | none => rfl
      | some n => cases n <;> rfl
    rw [hroom]
    by_cases hmax : max = some 0
    · rw [if_pos hmax]
      simp [hmax]
    · rw [if_neg hmax]
      dsimp only
      rw [dif_neg (by exact List.not_mem_nil)]
      exact iff_of_true rfl ⟨Nat.not_lt.mp hlen, hmax⟩

section
variable {H : Host} {R : JsonReader} {σ γ : Type}

/-! ## The pipeline, forwards

From conditions on token and request to a decision that returns, section by section in the order
of the source.
-/

namespace MoqtValidator

variable {v : MoqtValidator σ} {guard : Option (ReplayGuard γ)} {env : Ambient}
  {token : ValidatedToken} {ctx : RelayRequestContext H} {st : RelayStores σ γ}

/-- The token's claims permit the request: all that `authorize` asks of them but the proof of
    possession. -/
structure Permits (v : MoqtValidator σ) (guard : Option (ReplayGuard γ)) (env : Ambient)
    (token : ValidatedToken) (ctx : RelayRequestContext H) (st : RelayStores σ γ) : Prop where
  restrictions : v.checkRestrictions token.claims ctx = .ok ()
  catpor : (checkCatpor env token.claims (st.blockListFor guard)).1 = .ok ()
  replay : ∃ owed, replayObligation token.claims guard.isSome = .ok owed
  scope : (matchScopeIndex token.claims ctx).isSome

/-- The replay guard has seen no `cti`. -/
def Unseen (guard : Option (ReplayGuard γ)) (g : γ) : Prop :=
  ∀ G ∈ guard, ∀ cti, (G.checkAndRecord cti g).1 = .ok false

theorem authorizePrecommit_of_permits (h : v.Permits guard env token ctx st) :
    (v.authorizePrecommit env token ctx guard.isSome (st.blockListFor guard)).1 =
      v.obligations env token ctx guard.isSome := by
  unfold authorizePrecommit
  rw [h.restrictions]
  dsimp only
  have hcatpor := h.catpor
  cases hc : checkCatpor env token.claims (st.blockListFor guard) with
  | mk outcome blockList =>
    rw [hc] at hcatpor
    cases hcatpor
    rfl

/-- What is owed, once the claims permit the request. -/
theorem obligations_of_permits (h : v.Permits guard env token ctx st) {pre : PreCommit} :
    v.obligations env token ctx guard.isSome = .ok pre ↔ ∃ scope owed key,
      matchScopeIndex token.claims ctx = some scope ∧
      replayObligation token.claims guard.isSome = .ok owed ∧
      v.dpopCommit env token ctx = .ok key ∧
      pre = ⟨scope, token.claims.request.catr, token.claims.moqt.moqtReval, key, owed⟩ := by
  obtain ⟨owed, howed⟩ := h.replay
  obtain ⟨scope, hscope⟩ := Option.isSome_iff_exists.mp h.scope
  unfold obligations
  rw [howed, hscope]
  constructor
  · intro hpre
    obtain ⟨_, hk, h₁⟩ := Except.bind_eq_ok.mp hpre
    obtain rfl := Except.ok.inj hk
    obtain ⟨key, hkey, h₂⟩ := Except.bind_eq_ok.mp h₁
    exact ⟨scope, owed, key, rfl, rfl, hkey, (Except.pure_eq_ok.mp h₂).symm⟩
  · rintro ⟨scope', owed', key, hs, ho, hkey, rfl⟩
    obtain rfl := Option.some.inj hs
    obtain rfl := Except.ok.inj ho
    exact Except.bind_eq_ok.mpr ⟨_, rfl, Except.bind_eq_ok.mpr ⟨key, hkey, rfl⟩⟩

/-- A guard that has seen nothing lets every obligation pass. -/
theorem commitReplay_unseen {pre : PreCommit} {g : γ} (hunseen : Unseen guard g)
    (h : replayObligation token.claims guard.isSome = .ok pre.replay) :
    (commitReplay guard pre g).1 = .ok false := by
  unfold commitReplay
  cases hreplay : pre.replay with
  | none => rfl
  | some obligation =>
    cases guard with
    | none =>
      rw [hreplay] at h
      unfold replayObligation at h
      split at h
      · obtain ⟨cti, hcti, -⟩ := Except.map_eq_ok.mp h
        cases (requireCti_ok.mp hcti).1
      · obtain ⟨cti, hcti, -⟩ := Except.map_eq_ok.mp h
        cases (requireCti_ok.mp hcti).1
      · cases h
      · cases h
    | some G =>
      show judgeReuse obligation (G.checkAndRecord obligation.cti g).1 = _
      rw [hunseen G rfl obligation.cti]
      cases obligation <;> rfl

theorem commit_isOk_iff {pre : PreCommit} {s : σ} {g : γ} (hunseen : Unseen guard g)
    (h : replayObligation token.claims guard.isSome = .ok pre.replay) :
    (∃ r, (v.commit env pre guard s g).1 = .ok r) ↔ (v.commitJti env pre s).1 = .ok () := by
  have hreplay := commitReplay_unseen hunseen h
  unfold commit PreCommit.commitWith
  cases hjti : v.commitJti env pre s with
  | mk outcome s' =>
    cases outcome with
    | error e => simp
    | ok u =>
      cases hr : commitReplay guard pre g with
      | mk outcome g' =>
        rw [hr] at hreplay
        cases hreplay
        simp

/-- **A request that the claims permit is authorized** if its proof is accepted and the
    store takes the proof's identifier. -/
theorem authorizeCall_isOk_iff (hpermits : v.Permits guard env token ctx st)
    (hunseen : Unseen guard st.guard) :
    (∃ r, (v.authorizeCall guard env token ctx st).1 = .ok r) ↔
      ∃ key, v.dpopCommit env token ctx = .ok key ∧
        ∀ entry ∈ key, ∃ d, v.dpopValidator = some d ∧
          (d.jtiStore.checkAndInsert env.now entry.1 entry.2 st.jti).1 = .ok () := by
  have hpre := authorizePrecommit_of_permits hpermits
  have hcall : (∃ r, (v.authorizeCall guard env token ctx st).1 = .ok r) ↔
      ∃ pre, v.obligations env token ctx guard.isSome = .ok pre ∧
        ∃ r, (v.commit env pre guard st.jti st.guard).1 = .ok r := by
    rw [authorizeCall_iff, hpre]
  have hjti : ∀ pre : PreCommit, (v.commitJti env pre st.jti).1 = .ok () ↔
      ∀ entry ∈ pre.jtiCommit, ∃ d, v.dpopValidator = some d ∧
        (d.jtiStore.checkAndInsert env.now entry.1 entry.2 st.jti).1 = .ok () := by
    intro pre
    unfold commitJti
    cases pre.jtiCommit with
    | none => simp
    | some entry =>
      cases v.dpopValidator with
      | none => simp
      | some d => simp
  rw [hcall]
  constructor
  · rintro ⟨pre, hp, hcommit⟩
    obtain ⟨scope, owed, key, -, howed, hkey, rfl⟩ := (obligations_of_permits hpermits).mp hp
    exact ⟨key, hkey, (hjti _).mp ((commit_isOk_iff hunseen howed).mp hcommit)⟩
  · rintro ⟨key, hkey, hstore⟩
    obtain ⟨owed, howed⟩ := hpermits.replay
    obtain ⟨scope, hscope⟩ := Option.isSome_iff_exists.mp hpermits.scope
    let pre : PreCommit :=
      ⟨scope, token.claims.request.catr, token.claims.moqt.moqtReval, key, owed⟩
    exact ⟨pre, (obligations_of_permits hpermits).mpr ⟨scope, owed, key, hscope, howed, hkey, rfl⟩,
      (commit_isOk_iff hunseen howed).mpr ((hjti pre).mpr hstore)⟩

end MoqtValidator

/-! ## An honest request

What the client does by construction, and the conditions that are left.
-/

/-- A client asks for what its token permits, with a proof under the key that the token is
    bound to, and the strict in-memory store of the relay is as it was built. -/
structure HonestRequest (v : MoqtValidator InMemoryStrictJtiStore)
    (d : DpopValidator InMemoryStrictJtiStore) (guard : Option (ReplayGuard γ)) (env : Ambient)
    (token : ValidatedToken) (cnf : ConfirmationClaim) (ctx : RelayRequestContext H)
    (st : RelayStores InMemoryStrictJtiStore γ) (max : Option Nat) (iat : Int64) (alg : Int64)
    (jwk : Jwk) (signer : CryptographicAlgorithm) : Prop where
  action : ctx.action ≠ .serverSetup
  shape : ctx.action.resourceShape.Addresses ctx.namespaces ctx.track
  key : HolderKey H jwk alg signer
  bound : token.claims.dpop.cnf = some cnf
  thumbprint : jwk.thumbprint H = .ok cnf.jkt
  permits : v.Permits guard env token ctx st
  fresh : (DpopPayload.new iat (.newMoqt ctx.action ctx.namespaces ctx.track)).isFresh env.now
    d.settings.effectiveWindow = true
  validator : v.dpopValidator = some d
  store : d.jtiStore = InMemoryStrictJtiStore.store
  empty : ∃ hash w, st.jti = .build hash w max
  unseen : MoqtValidator.Unseen guard st.guard

variable {v : MoqtValidator InMemoryStrictJtiStore} {d : DpopValidator InMemoryStrictJtiStore}
  {guard : Option (ReplayGuard γ)} {env : Ambient} {token : ValidatedToken}
  {cnf : ConfirmationClaim} {ctx : RelayRequestContext H}
  {st : RelayStores InMemoryStrictJtiStore γ} {max : Option Nat} {iat alg : Int64} {jwk : Jwk}
  {signer : CryptographicAlgorithm}

/-- The proof as the relay reads it is accepted if the format returns its names, it was made
    after the epoch, and the relay asks for neither resource nor nonce. -/
theorem HonestRequest.proofAccepted_iff
    (h : HonestRequest v d guard env token cnf ctx st max iat alg jwk signer)
    {f : DpopWireFormat} {id : String} {q : DpopProof H}
    (hq : ReadAt f ⟨alg, f.typ, jwk⟩ ⟨some (utf8 id), iat,
      .newMoqt ctx.action ctx.namespaces ctx.track, some (computeAccessTokenHash H token.serialized),
      none⟩ q) :
    v.ProofAccepted env token { ctx with dpopProof := some q } cnf d q ↔
      0 < iat ∧ f.namesBack ctx.namespaces = ctx.namespaces ∧ v.expectedResource = none ∧
        ctx.expectedDpopNonce = none := by
  have htns : q.payload.actx.tns = f.namesBack ctx.namespaces := by rw [hq.payload_eq]; rfl
  have htn : q.payload.actx.tn = ctx.track := by rw [hq.payload_eq]; rfl
  have hresource : q.payload.actx.resource = none := by rw [hq.payload_eq]; rfl
  have hnonce : q.payload.nonce = none := by rw [hq.payload_eq]
  have hiat : q.payload.iat = iat := by rw [hq.payload_eq]
  constructor
  · intro hacc
    refine ⟨?_, ?_, ?_, ?_⟩
    · -- The four conditions are read off the checks of the relay that ask for them.
      have hvalid := hacc.accepts.payload_valid
      rw [DpopPayload.isValid, Bool.and_eq_true, hiat] at hvalid
      exact of_decide_eq_true hvalid.2
    · -- An endpoint action compares no names, but its shape lets the proof carry none at all.
      by_cases hendpoint : ctx.action.resourceShape = .endpoint
      · have hshape : ctx.action.resourceShape.Addresses q.payload.actx.tns q.payload.actx.tn :=
          hacc.shape
        have hrequest := h.shape
        rw [hendpoint] at hshape hrequest
        rw [← htns, hshape.1, hrequest.1]
      · rw [← htns]
        exact (hacc.target hendpoint).1
    · cases hexp : v.expectedResource with
      | none => rfl
      | some r => cases hresource.symm.trans (hacc.expected r hexp)
    · cases hexp : ctx.expectedDpopNonce with
      | none => rfl
      | some n => cases hnonce.symm.trans (hacc.nonce n hexp)
  · rintro ⟨hpos, hnames, hexpected, hnone⟩
    -- An honest client meets every other check by construction.
    rw [hnames] at htns
    have hshape : ctx.action.resourceShape.Addresses q.payload.actx.tns q.payload.actx.tn := by
      rw [htns, htn]
      exact h.shape
    have hheader : q.header.isValid = true := by
      unfold DpopHeader.isValid DpopHeader.isSupportedAlgorithm
      rw [hq.typ, hq.alg, Bool.and_eq_true]
      refine ⟨?_, List.contains_iff_mem.mpr h.key.supported⟩
      cases f with
      | cwt => rfl
      | jwt => rfl
    have hpayload : q.payload.isValid = true := by
      unfold DpopPayload.isValid AuthorizationContext.isValid
      rw [hiat, Bool.and_eq_true, Bool.and_eq_true]
      refine ⟨⟨by rw [hq.payload_eq]; rfl, ?_⟩, decide_eq_true hpos⟩
      have haction : q.payload.actx.action = ctx.action := by rw [hq.payload_eq]; rfl
      rw [haction]
      cases hs : ctx.action.resourceShape with
      | endpoint => rfl
      | namespaceTuple =>
        rw [hs] at hshape
        simpa using hshape.1
      | track =>
        rw [hs] at hshape
        simpa using hshape.1
    refine ⟨rfl, h.validator, ⟨hheader, hpayload, ?_, ?_, ?_, hq.thumbprint _ h.thumbprint, ?_,
      hq.verified⟩, fun _ => ⟨htns, htn⟩, ?_, ?_, hshape, ?_⟩
    · rw [hq.payload_eq]
      rfl
    · have hfresh := h.fresh
      unfold DpopPayload.isFresh DpopPayload.isFreshWithFutureTolerance at hfresh ⊢
      rw [hiat]
      exact hfresh
    · rw [hq.payload_eq]
      rfl
    · intro ath hath
      rw [hq.payload_eq]
      exact hath
    · rw [hexpected]
      exact fun r hr => nomatch hr
    · rw [hresource]
      exact fun r hr => nomatch hr
    · intro n hn
      exact absurd (hnone.symm.trans hn) (by simp)

/-- The entry for the store: there is one exactly if the relay tracks reuse. -/
theorem mem_commitKeyOf {q : DpopProof H} {cti : Bytes} {issuer : Option String}
    {entry : String × Int64} (hvalidator : v.dpopValidator = some d)
    (hcti : q.payload.cti = some cti) :
    entry ∈ v.commitKeyOf d q cnf issuer ↔
      v.TracksReuse ∧ entry = (DpopValidator.commitKey issuer cnf.jkt cti, q.payload.iat) := by
  have hforced : DpopValidator.dpopCommitKeyForced q cnf.jkt issuer =
      some (DpopValidator.commitKey issuer cnf.jkt cti, q.payload.iat) := by
    rw [DpopValidator.dpopCommitKeyForced, hcti]
    rfl
  unfold MoqtValidator.commitKeyOf MoqtValidator.TracksReuse DpopValidator.dpopCommitKey
  rw [hforced, hvalidator]
  cases v.requireDpopReplayTracking with
  | true => simp [@eq_comm (String × Int64) entry]
  | false =>
    cases hhonor : d.settings.shouldHonorJti with
    | true => simp [hhonor, @eq_comm (String × Int64) entry]
    | false => simp [hhonor]

/-- **When an honest client gets through**: the proof that it made, signed and encoded is
    decoded by the relay, and `authorize` returns `Ok` exactly if the format returns the
    request's tuple of names, the proof was made after the epoch, the relay asks for neither
    resource nor nonce, and the store, if the relay tracks reuse, has room for the proof's
    key and the key no more than 256 bytes.

    The relay is met at the level of bytes: the client encodes, the relay decodes what arrives. Each
    format loses one tuple of names, the empty one in CBOR and that of the empty name in JSON, and
    the relay then compares the request with another tuple than was signed. The bound on the key is
    that of the store, and the thumbprint and the identifier count twice in it because they are
    written in hex. -/
theorem authorize_honest_iff (hb : Base64Lawful H) (L : JsonLaws H R)
    (h : HonestRequest v d guard env token cnf ctx st max iat alg jwk signer)
    {f : DpopWireFormat} {id : String} {signed : DpopProof H} {b : Bytes}
    (hsign : (DpopProof.forRequest H iat ctx.action ctx.namespaces ctx.track alg jwk f id
      (computeAccessTokenHash H token.serialized)).sign signer = .ok signed)
    (henc : signed.encode = .ok b) (hlen : b.length ≤ maxDpopWireSize) :
    ∃ q, DpopProof.decode H R b = .ok q ∧
      ((∃ r, (v.authorizeCall guard env token { ctx with dpopProof := some q } st).1 = .ok r) ↔
        (f = .cwt → ctx.namespaces ≠ []) ∧ (f = .jwt → ctx.namespaces ≠ [[]]) ∧
        (v.TracksReuse → (utf8 (token.claims.core.iss.getD "_")).length + 2 * cnf.jkt.length +
          2 * (utf8 id).length + 2 ≤ maxJtiLengthBytes ∧ max ≠ some 0) ∧
        0 < iat ∧ v.expectedResource = none ∧ ctx.expectedDpopNonce = none) := by
  obtain ⟨q, hdec, hq⟩ := decode_forRequest hb L h.action h.key hsign henc hlen
  refine ⟨q, hdec, ?_⟩
  have hpermits : v.Permits guard env token { ctx with dpopProof := some q } st :=
    ⟨h.permits.restrictions, h.permits.catpor, h.permits.replay, h.permits.scope⟩
  obtain ⟨hash, w, hstore⟩ := h.empty
  have hcti : q.payload.cti = some (utf8 id) := by rw [hq.payload_eq]
  -- The proof passes when the relay accepts it and its key fits into the empty store.
  have hcommit : (∃ key, v.dpopCommit env token { ctx with dpopProof := some q } = .ok key ∧
      ∀ entry ∈ key, ∃ d, v.dpopValidator = some d ∧
        (d.jtiStore.checkAndInsert env.now entry.1 entry.2 st.jti).1 = .ok ()) ↔
      v.ProofAccepted env token { ctx with dpopProof := some q } cnf d q ∧
        ∀ entry ∈ v.commitKeyOf d q cnf token.claims.core.iss,
          (utf8 entry.1).length ≤ maxJtiLengthBytes ∧ max ≠ some 0 := by
    have hinsert : ∀ entry : String × Int64,
        (d.jtiStore.checkAndInsert env.now entry.1 entry.2 st.jti).1 = .ok () ↔
          (utf8 entry.1).length ≤ maxJtiLengthBytes ∧ max ≠ some 0 := by
      intro entry
      rw [h.store, hstore]
      exact checkAndInsert_build
    rw [MoqtValidator.dpopCommit, h.bound]
    dsimp only
    simp only [MoqtValidator.checkProof_ok, h.validator, Option.some.injEq, exists_eq_left']
    constructor
    · rintro ⟨key, ⟨d', q', hacc, rfl⟩, hentries⟩
      obtain rfl := Option.some.inj (hacc.presented.symm.trans rfl)
      obtain rfl := Option.some.inj (h.validator.symm.trans hacc.configured)
      exact ⟨hacc, fun entry he => (hinsert entry).mp (hentries entry he)⟩
    · rintro ⟨hacc, hentries⟩
      exact ⟨_, ⟨d, q, hacc, rfl⟩, fun entry he => (hinsert entry).mpr (hentries entry he)⟩
  rw [MoqtValidator.authorizeCall_isOk_iff hpermits h.unseen, hcommit]
  constructor
  · rintro ⟨hacc, hentries⟩
    obtain ⟨hpos, hnames, hexpected, hnonce⟩ := (h.proofAccepted_iff hq).mp hacc
    obtain ⟨hcwt, hjwt⟩ := DpopWireFormat.namesBack_eq_iff.mp hnames
    refine ⟨hcwt, hjwt, fun htracks => ?_, hpos, hexpected, hnonce⟩
    have hbound := hentries _ ((mem_commitKeyOf h.validator hcti).mpr ⟨htracks, rfl⟩)
    rwa [commitKey_length] at hbound
  · rintro ⟨hcwt, hjwt, hroom, hpos, hexpected, hnonce⟩
    have hacc := (h.proofAccepted_iff hq).mpr
      ⟨hpos, DpopWireFormat.namesBack_eq_iff.mpr ⟨hcwt, hjwt⟩, hexpected, hnonce⟩
    refine ⟨hacc, fun entry hentry => ?_⟩
    obtain ⟨htracks, rfl⟩ := (mem_commitKeyOf h.validator hcti).mp hentry
    rw [commitKey_length]
    exact hroom htracks

end

/-! ### A setup -/

/-- The key of a client. -/
def clientJwk : Jwk where
  kty := "EC"
  crv := some "P-256"
  x := some "UeUvtvzfwBLwCeUdmsirbTsNf9iWUwD2MAvT2gj_6gQ"
  y := some "A0j8fOlpbhwAtx0GX4v_3rQHk7jlVvGuf8KfkLjD_aI"

/-- The SHA-256 of the key's canonical JSON. -/
def clientJkt : Bytes :=
  BigEndian.ofNat 32 0x3f331f04f4b1511755524746a09e56811791e1a2e168070cd13f2fe101b886dc

/-- What the client signs for its setup. -/
def clientSigningInput : Bytes :=
  BigEndian.ofNat 178 0x846a5369676e6174757265315861a3012604a501020326200121582051e52fb6fcdfc012f009e51d9ac8ab6d3b0d7fd8965300f6300bd3da08ffea042258200348fc7ce9696e1c00b71d065f8bffdeb40793b8e556f1ae7fc29f90b8c3fda2106e64706f702d70726f6f662b637774405840a4061903e8074161190190a300646d6f71740165534554555002601901925820e3b0c44298fc1c149afbf4c8996fb92427ae41e4649b934ca495991b7852b855

/-- The signature of the input by the client's key. -/
def clientSignature : Bytes :=
  BigEndian.ofNat 64 0xa4a8d0f2be1eeb4dc6e477d895fc661e5c93a8f4531adcf8469fd4211fbacea1ce1234ff824748b678253390b63a92f9e4463cc7449f8a76d219339b0aa26936

/-- The proof in CBOR. -/
def clientForm : Bytes :=
  BigEndian.ofNat 234 0xd2845861a3012604a501020326200121582051e52fb6fcdfc012f009e51d9ac8ab6d3b0d7fd8965300f6300bd3da08ffea042258200348fc7ce9696e1c00b71d065f8bffdeb40793b8e556f1ae7fc29f90b8c3fda2106e64706f702d70726f6f662b637774a05840a4061903e8074161190190a300646d6f71740165534554555002601901925820e3b0c44298fc1c149afbf4c8996fb92427ae41e4649b934ca495991b7852b8555840a4a8d0f2be1eeb4dc6e477d895fc661e5c93a8f4531adcf8469fd4211fbacea1ce1234ff824748b678253390b63a92f9e4463cc7449f8a76d219339b0aa26936

/-- A host that knows the key, its one signature, and the two digests that occur. -/
def clientHost : Host :=
  { setupHost with
    sha256 := fun b => if b = [] then emptyDigest else if clientJwk.canonicalJson.toOption.map utf8 =
      some b then clientJkt else []
    p256 := fun key =>
      if key = BigEndian.ofNat 65 0x0451e52fb6fcdfc012f009e51d9ac8ab6d3b0d7fd8965300f6300bd3da08ffea040348fc7ce9696e1c00b71d065f8bffdeb40793b8e556f1ae7fc29f90b8c3fda2 then
        .ok fun input signature =>
          if input = clientSigningInput ∧ signature = clientSignature then .ok ()
          else .error .signatureVerificationFailed
      else .error "no key" }

def clientSigner : CryptographicAlgorithm where
  algorithmId := algEs256
  sign input := if input = clientSigningInput then .ok clientSignature
    else .error (.keyOperationFailed "not the sample")
  verify _ _ := .error .signatureVerificationFailed

/-- A token for the client setup, bound to the key. -/
def clientToken : CatToken :=
  { CatToken.new with
    core := { aud := some ["relay"] }
    dpop := { cnf := some ⟨clientJkt, none⟩ }
    moqt := { moqt := some [⟨[.clientSetup], [], none⟩] } }

def clientValidated : ValidatedToken := sampleValidated clientToken (by decide +kernel)

def clientContext : RelayRequestContext clientHost where
  relayEndpoint := "relay"
  action := .clientSetup
  namespaces := []
  track := []

theorem clientHost_base64 : Base64Lawful clientHost :=
  ⟨setupHost_base64.decode_encode, setupHost_base64.encode_decode, setupHost_base64.ascii⟩

theorem clientHost_laws : JsonLaws clientHost setupReader :=
  ⟨setupReader_laws.parse_written, setupReader_laws.keys_written, setupReader_laws.jwk_written⟩

theorem clientKey : HolderKey clientHost clientJwk algEs256 clientSigner where
  supported := by decide
  verifies message signature h := by
    have h : (if message = clientSigningInput then Except.ok clientSignature
      else .error (CatError.keyOperationFailed "not the sample")) = .ok signature := h
    split at h
    · rename_i hm
      obtain rfl := Except.ok.inj h
      rw [hm]
      decide +kernel
    · cases h

theorem clientRequest : HonestRequest subscribeValidator strictValidator
    (none : Option (ReplayGuard (List Bytes))) ⟨1000, 1000, none⟩ clientValidated ⟨clientJkt, none⟩
    clientContext subscribeStores (some 16) 1000 algEs256 clientJwk clientSigner where
  action := by decide
  shape := ⟨rfl, rfl⟩
  key := clientKey
  bound := rfl
  thumbprint := by decide +kernel
  permits := ⟨by decide +kernel, rfl, ⟨none, rfl⟩, by decide +kernel⟩
  fresh := by decide
  validator := rfl
  store := rfl
  empty := ⟨_, _, rfl⟩
  unseen G h := nomatch h

/-- The client's proof, signed and encoded. -/
theorem clientForm_made : ∃ signed, (DpopProof.forRequest clientHost 1000 .clientSetup [] []
    algEs256 clientJwk .cwt "a" (computeAccessTokenHash clientHost [])).sign clientSigner =
      .ok signed ∧ signed.encode = .ok clientForm := by
  apply Except.bind_eq_ok.mp
  decide +kernel

theorem authorize_honest_iff_setup : ∃ q,
    DpopProof.decode clientHost setupReader clientForm = .ok q ∧
    ((∃ r, (subscribeValidator.authorizeCall (none : Option (ReplayGuard (List Bytes)))
      ⟨1000, 1000, none⟩ clientValidated { clientContext with dpopProof := some q }
      subscribeStores).1 = .ok r) ↔
        (DpopWireFormat.cwt = .cwt → clientContext.namespaces ≠ []) ∧
        (DpopWireFormat.cwt = .jwt → clientContext.namespaces ≠ [[]]) ∧
        (subscribeValidator.TracksReuse →
          (utf8 (clientValidated.claims.core.iss.getD "_")).length + 2 * clientJkt.length +
            2 * (utf8 "a").length + 2 ≤ maxJtiLengthBytes ∧ some 16 ≠ some 0) ∧
        0 < (1000 : Int64) ∧ subscribeValidator.expectedResource = none ∧
          clientContext.expectedDpopNonce = none) := by
  obtain ⟨signed, hsign, henc⟩ := clientForm_made
  exact authorize_honest_iff clientHost_base64 clientHost_laws clientRequest hsign henc
    (by decide +kernel)

/-- A setup in CBOR does not get through: its context comes back with a name. -/
theorem authorize_not_honest :
    ¬∀ (H : Host) (R : JsonReader) (γ : Type) (v : MoqtValidator InMemoryStrictJtiStore)
      (d : DpopValidator InMemoryStrictJtiStore) (guard : Option (ReplayGuard γ)) (env : Ambient)
      (token : ValidatedToken) (cnf : ConfirmationClaim) (ctx : RelayRequestContext H)
      (st : RelayStores InMemoryStrictJtiStore γ) (max : Option Nat) (iat alg : Int64) (jwk : Jwk)
      (signer : CryptographicAlgorithm) (f : DpopWireFormat) (id : String) (signed : DpopProof H)
      (b : Bytes) (q : DpopProof H), Base64Lawful H → JsonLaws H R →
      HonestRequest v d guard env token cnf ctx st max iat alg jwk signer → max ≠ some 0 →
      0 < iat → v.expectedResource = none → ctx.expectedDpopNonce = none →
      (utf8 id).length ≤ 64 →
      (DpopProof.forRequest H iat ctx.action ctx.namespaces ctx.track alg jwk f id
        (computeAccessTokenHash H token.serialized)).sign signer = .ok signed →
      signed.encode = .ok b → b.length ≤ maxDpopWireSize → DpopProof.decode H R b = .ok q →
        ∃ r, (v.authorizeCall guard env token { ctx with dpopProof := some q } st).1 = .ok r := by
  intro h
  obtain ⟨signed, hsign, henc⟩ := clientForm_made
  obtain ⟨q, hdec, hread⟩ := decode_forRequest clientHost_base64 clientHost_laws
    (show MoqtAction.clientSetup ≠ .serverSetup by decide) clientKey hsign henc
    (show clientForm.length ≤ maxDpopWireSize by decide +kernel)
  obtain ⟨r, hr⟩ := h clientHost setupReader (List Bytes) subscribeValidator strictValidator none
    ⟨1000, 1000, none⟩ clientValidated ⟨clientJkt, none⟩ clientContext subscribeStores (some 16)
    1000 algEs256 clientJwk clientSigner .cwt "a" signed clientForm q clientHost_base64
    clientHost_laws clientRequest (by decide) (by decide) rfl rfl (by decide +kernel) hsign henc
    (by decide +kernel) hdec
  obtain ⟨pre, hpre, -⟩ := MoqtValidator.authorizeCall_ok hr
  have hcommit :=
    (MoqtValidator.obligations_ok (MoqtValidator.authorizePrecommit_ok hpre).2.2).2.2
  obtain ⟨d, q', hacc, -⟩ := MoqtValidator.dpopCommit_ok
    (show clientValidated.claims.dpop.cnf = some ⟨clientJkt, none⟩ from rfl) hcommit
  obtain rfl := Option.some.inj (hacc.presented.symm.trans rfl)
  have hshape := hacc.shape.1
  rw [hread.payload_eq] at hshape
  cases hshape

end Cat
