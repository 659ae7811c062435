import Cat.Dpop.Replay
import Cat.Moqt.Mediation

/-!
# What a proof of possession is bound to

A proof repeats the request it was signed for: the action, namespaces and track in its `actx`,
the hash of the token in `ath`, and its key in the header. Each copy is compared with the live
request or the token, so two calls that accept one proof were about one request and one token,
and the key that verified it is the one the token confirms.

The hash is taken to be injective. A setup action addresses no namespace, and a proof for one
says nothing of the namespaces and track of its request.

What one call establishes is collected in `ProofAccepted`: the checks of the validator and those
that the pipeline makes on top, for resource and nonce. The theorem is then about two such
collections over one proof, and it goes through the copies one by one.
-/

set_option autoImplicit false

namespace Cat

open Cbor

/-- A call that was authorized with this proof, for a token that demands one. -/
structure PossessionRun {H : Host} (proof : DpopProof H) where
  σ : Type
  γ : Type
  validator : MoqtValidator σ
  guard : Option (ReplayGuard γ)
  env : Ambient
  token : ValidatedToken
  cnf : ConfirmationClaim
  ctx : RelayRequestContext H
  stores : RelayStores σ γ
  outcome : AuthorizedRequest
  cnf_eq : token.claims.dpop.cnf = some cnf
  presented : ctx.dpopProof = some proof
  authorized : (validator.authorizeCall guard env token ctx stores).1 = .ok outcome

namespace PossessionRun

variable {H : Host} {proof : DpopProof H} (run : PossessionRun proof)

/-- The proof the run was authorized with passed every check. -/
theorem accepted : ∃ v, run.validator.ProofAccepted run.env run.token run.ctx run.cnf v proof := by
  obtain ⟨pre, hpre, -⟩ := MoqtValidator.authorizeCall_ok run.authorized
  obtain ⟨-, -, hob⟩ := MoqtValidator.authorizePrecommit_ok hpre
  obtain ⟨v, proof', haccepted, -⟩ :=
    MoqtValidator.dpopCommit_ok run.cnf_eq (MoqtValidator.obligations_ok hob).2.2
  obtain rfl := Option.some.inj (haccepted.presented.symm.trans run.presented)
  exact ⟨v, haccepted⟩

/-- What the run was about is what the proof says. -/
theorem actx_eq : proof.payload.actx.action = run.ctx.action ∧
    (run.ctx.action.resourceShape ≠ .endpoint →
      proof.payload.actx.tns = run.ctx.namespaces ∧ proof.payload.actx.tn = run.ctx.track) := by
  obtain ⟨v, haccepted⟩ := run.accepted
  exact ⟨haccepted.accepts.action_eq, haccepted.target⟩

theorem ath_eq : proof.payload.ath = some (H.sha256 run.token.serialized) := by
  obtain ⟨v, haccepted⟩ := run.accepted
  exact haccepted.accepts.ath_eq _ rfl

/-- The key in the proof's header verified it, and has this thumbprint. -/
def VerifiedByKeyOf (proof : DpopProof H) (jkt : Bytes) : Prop :=
  proof.header.jwk.thumbprint H = .ok jkt ∧ DpopValidator.verifyWithEmbeddedKey proof = .ok ()

theorem verifiedByKeyOf : VerifiedByKeyOf proof run.cnf.jkt := by
  obtain ⟨v, haccepted⟩ := run.accepted
  exact ⟨haccepted.accepts.thumbprint_eq, haccepted.accepts.verified⟩

/-- **One proof, one request and one token**, and the confirmed key.

The signed bytes of a proof hold the action, the names and a hash of the access token, and each run
compares them with its own. A setup request has no names to compare, which is why it is set apart.
That the hash stands for the token is the one assumption. -/
theorem bound_to_request (hsha : Function.Injective H.sha256) (run₁ run₂ : PossessionRun proof) :
    (run₁.ctx.action.resourceShape ≠ .endpoint →
      run₁.ctx.action = run₂.ctx.action ∧ run₁.ctx.namespaces = run₂.ctx.namespaces ∧
        run₁.ctx.track = run₂.ctx.track ∧ run₁.token.serialized = run₂.token.serialized) ∧
      VerifiedByKeyOf proof run₁.cnf.jkt ∧ VerifiedByKeyOf proof run₂.cnf.jkt := by
  refine ⟨fun hscoped => ?_, run₁.verifiedByKeyOf, run₂.verifiedByKeyOf⟩
  obtain ⟨haction₁, htarget₁⟩ := run₁.actx_eq
  obtain ⟨haction₂, htarget₂⟩ := run₂.actx_eq
  have haction : run₁.ctx.action = run₂.ctx.action := haction₁.symm.trans haction₂
  obtain ⟨htns₁, htn₁⟩ := htarget₁ hscoped
  obtain ⟨htns₂, htn₂⟩ := htarget₂ (haction ▸ hscoped)
  have hath := Option.some.inj (run₁.ath_eq.symm.trans run₂.ath_eq)
  exact ⟨haction, htns₁.symm.trans htns₂, htn₁.symm.trans htn₂, hsha hath⟩

end PossessionRun

/-! ### A subscription -/

/-- A token for subscribing to anything, bound to the key. -/
def subscribeToken : CatToken :=
  { CatToken.new with
    core := { aud := some ["relay"] }
    dpop := { cnf := some ⟨subscriberJkt, none⟩ }
    moqt := { moqt := some [⟨[.subscribe], [.match_ ⟨.any, []⟩], none⟩] } }

def subscribeContext : RelayRequestContext subscriberHost where
  relayEndpoint := "relay"
  action := .subscribe
  namespaces := [[0x61]]
  track := [0x74]
  dpopProof := some subscribeProof

/-- A relay with the strict store of the crate, and a replay window of five minutes. -/
def subscribeValidator : MoqtValidator InMemoryStrictJtiStore where
  dpopValidator := some (.withJtiStore .new InMemoryStrictJtiStore.store)
  requireDpop := true

def subscribeStores : RelayStores InMemoryStrictJtiStore (List Bytes) :=
  ⟨.new (fun _ => 0) 300 16, [], none⟩

def subscribeValidated : ValidatedToken := sampleValidated subscribeToken (by decide +kernel)

/-- The subscription at some time, with a fresh store. -/
def subscribeRun (now : Int64)
    (h : (subscribeValidator.authorizeCall (none : Option (ReplayGuard (List Bytes)))
      ⟨now, now, none⟩ subscribeValidated subscribeContext subscribeStores).1 =
        .ok { matchedScopeIndex := 0 }) : PossessionRun subscribeProof where
  σ := InMemoryStrictJtiStore
  γ := List Bytes
  validator := subscribeValidator
  guard := none
  env := ⟨now, now, none⟩
  token := subscribeValidated
  cnf := ⟨subscriberJkt, none⟩
  ctx := subscribeContext
  stores := subscribeStores
  outcome := { matchedScopeIndex := 0 }
  cnf_eq := rfl
  presented := rfl
  authorized := h

def subscribeAt1000 : PossessionRun subscribeProof := subscribeRun 1000 (by decide +kernel)
def subscribeAt1060 : PossessionRun subscribeProof := subscribeRun 1060 (by decide +kernel)

theorem bound_to_request_subscribe :
    subscribeAt1000.ctx.track = subscribeAt1060.ctx.track ∧
      subscribeAt1000.token.serialized = subscribeAt1060.token.serialized ∧
      PossessionRun.VerifiedByKeyOf subscribeProof subscriberJkt := by
  have hsha : Function.Injective subscriberHost.sha256 := sampleSha256.injective
  obtain ⟨hbound, hkey, -⟩ :=
    PossessionRun.bound_to_request hsha subscribeAt1000 subscribeAt1060
  have hscoped : subscribeAt1000.ctx.action.resourceShape ≠ .endpoint := by
    show MoqtResourceShape.track ≠ .endpoint
    decide
  obtain ⟨-, -, htrack, hserialized⟩ := hbound hscoped
  exact ⟨htrack, hserialized, hkey⟩

end Cat
