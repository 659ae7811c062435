import Cat.Moqt.AuthorizeSpec

/-!
# The asynchronous pipeline

`AsyncMoqtValidator` decides as its synchronous validator does and commits through stores of its
own kind. Only the two store operations are awaited, so a call is still: decide, enter the
identifier, record the `cti`.

A future that is awaited is modelled by its result. What can happen between two awaits of one
call is what other calls do, and this is modelled where calls interleave and not here.
-/

set_option autoImplicit false

namespace Cat

open Cbor

structure AsyncReplayGuard (γ : Type) where
  checkAndRecord : Bytes → γ → Except CatError Bool × γ
  isStrict : Bool

/-- The store of the synchronous validator plays no part in an asynchronous call. -/
structure AsyncMoqtValidator (σ₀ σ : Type) where
  sync : MoqtValidator σ₀
  jtiStore : AsyncJtiStore σ
  requireStrictReplayGuard : Bool := false

namespace AsyncMoqtValidator

variable {H : Host} {σ₀ σ γ : Type}

/-- A store that does not claim to be strict is turned down when the relay is configured, not later.
    -/
def strict (sync : MoqtValidator σ₀) (jtiStore : AsyncJtiStore σ) :
    Except CatError (AsyncMoqtValidator σ₀ σ) :=
  if !jtiStore.isStrict then .error (.configurationRefused
    "AsyncJtiStore::is_strict() returned false; strict CDN deployments require a store that retains every accepted JTI for the DPoP freshness window. Use AsyncMoqtValidator::best_effort for local development.")
  else .ok { sync, jtiStore }

def bestEffort (sync : MoqtValidator σ₀) (jtiStore : AsyncJtiStore σ) :
    AsyncMoqtValidator σ₀ σ := { sync, jtiStore }

variable (v : AsyncMoqtValidator σ₀ σ)

/-- A guard that does not claim to be strict is turned down call by call, if the validator says so.
    -/
def resolveReplayGuard (guard : Option (AsyncReplayGuard γ)) :
    Except CatError (AsyncReplayGuard γ) :=
  match guard with
  | none => .error (.invalidClaimValue
      "token asserts catreplay but no replay guard configured")
  | some guard =>
    if v.requireStrictReplayGuard && !guard.isStrict then .error (.configurationRefused
      "AsyncReplayGuard::is_strict() returned false but validator was constructed with require_strict_replay_guard(); refusing to commit catreplay through a best-effort backend")
    else .ok guard

def commitJti (env : Ambient) (pre : PreCommit) (s : σ) : Except CatError Unit × σ :=
  match pre.jtiCommit with
  | none => (.ok (), s)
  | some (key, iat) => v.jtiStore.checkAndInsert env.now key iat s

def commitReplay (guard : Option (AsyncReplayGuard γ)) (pre : PreCommit) (g : γ) :
    Except CatError Bool × γ :=
  match pre.replay with
  | none => (.ok false, g)
  | some obligation =>
    match v.resolveReplayGuard guard with
    | .error e => (.error e, g)
    | .ok guard =>
      let (seen, g) := guard.checkAndRecord obligation.cti g
      (MoqtValidator.judgeReuse obligation seen, g)

/-- The same two halves as in the synchronous commit, over the other stores. -/
def commitAsync (env : Ambient) (pre : PreCommit) (guard : Option (AsyncReplayGuard γ)) (s : σ)
    (g : γ) : Except CatError AuthorizedRequest × σ × γ :=
  pre.commitWith (v.commitJti env pre) (v.commitReplay guard pre) s g

def authorize (env : Ambient) (token : ValidatedToken) (ctx : RelayRequestContext H)
    (st : RelayStores σ γ) : Except CatError AuthorizedRequest × RelayStores σ γ :=
  match (v.sync.authorizePrecommit env token ctx false none).1 with
  | .error e => (.error e, st)
  | .ok pre =>
    let (r, s, g) := v.commitAsync env pre (none : Option (AsyncReplayGuard γ)) st.jti st.guard
    (r, { st with jti := s, guard := g })

def authorizeWithReplay (env : Ambient) (token : ValidatedToken) (ctx : RelayRequestContext H)
    (guard : AsyncReplayGuard γ) (st : RelayStores σ γ) :
    Except CatError AuthorizedRequest × RelayStores σ γ :=
  match v.sync.authorizePrecommit env token ctx true st.blockList with
  | (.error e, blockList) => (.error e, { st with blockList })
  | (.ok pre, blockList) =>
    let (r, s, g) := v.commitAsync env pre (some guard) st.jti st.guard
    (r, ⟨s, g, blockList⟩)

theorem resolveReplayGuard_ok {v : AsyncMoqtValidator σ₀ σ} {guard : Option (AsyncReplayGuard γ)}
    {G : AsyncReplayGuard γ} (h : v.resolveReplayGuard guard = .ok G) : guard = some G := by
  unfold resolveReplayGuard at h
  cases guard with
  | none => exact absurd h (by simp)
  | some G' =>
    dsimp only at h
    split at h
    · exact absurd h (by simp)
    · rw [Except.ok.inj h]

theorem commitReplay_ok {v : AsyncMoqtValidator σ₀ σ} {guard : Option (AsyncReplayGuard γ)}
    {pre : PreCommit} {obligation : CatReplayObligation} {g g' : γ} {reused : Bool}
    (hob : pre.replay = some obligation) (h : v.commitReplay guard pre g = (.ok reused, g')) :
    ∃ G seen, guard = some G ∧ G.checkAndRecord obligation.cti g = (.ok seen, g') ∧
      obligation.Passes seen reused := by
  unfold commitReplay at h
  rw [hob] at h
  dsimp only at h
  split at h
  · exact absurd (Prod.mk.inj h).1 (by simp)
  · rename_i G hG
    obtain ⟨hjudge, hg⟩ := Prod.mk.inj h
    obtain ⟨seen, hseen, hpass⟩ := judgeReuse_ok.mp hjudge
    exact ⟨G, seen, resolveReplayGuard_ok hG, Prod.ext hseen hg, hpass⟩

end AsyncMoqtValidator
end Cat
