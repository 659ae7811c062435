import Cat.Moqt.Async
import Cat.Moqt.Mediation
import Cat.Token.Rejection

/-!
# The offloaded pipeline

`authorize_offloaded` runs the checks on the blocking pool and commits on the reactor. On one
call it answers as `authorize_with_replay` does. But the block list is moved into the call, and
what the call writes into it is dropped with it: a token that was rejected by its draw is judged
by a new draw when it is presented again, while `authorize_with_replay` refuses it as long as
its entry is in force (`offloaded_forgets`).

The comparison is between two sequences of answers to one request that is presented again and
again, each time at its own reading of the clock and with its own draw. On the one side the list
is carried from call to call, on the other each call starts with the list as it was. What an
answer is beyond `catpor` is the same function on both sides (`behindCatpor`), so the theorem
says what the probability of a token amounts to on either path, and leaves everything else open.

A task that panics or is cancelled gives a join error, which is an argument of the model.
-/

set_option autoImplicit false

namespace Cat

open Cbor

namespace AsyncMoqtValidator

section
variable {H : Host} {σ₀ σ γ : Type} (v : AsyncMoqtValidator σ₀ σ)

/-- `joinError` is there if the task on the blocking pool panicked or was cancelled. -/
def authorizeOffloaded (env : Ambient) (token : ValidatedToken) (ctx : RelayRequestContext H)
    (guard : Option (AsyncReplayGuard γ)) (blockList : Option CatPorBlockList)
    (joinError : Option String) (s : σ) (g : γ) : Except CatError AuthorizedRequest × σ × γ :=
  match joinError with
  | some e => (.error (.backendUnavailable s!"tokio spawn_blocking join error: {e}"), s, g)
  | none =>
    match (v.sync.authorizePrecommit env token ctx guard.isSome blockList).1 with
    | .error e => (.error e, s, g)
    | .ok pre => v.commitAsync env pre guard s g

/-- What is left of a call when `catpor` has let the token pass. -/
def behindCatpor (env : Ambient) (token : ValidatedToken) (ctx : RelayRequestContext H)
    (guard : Option (AsyncReplayGuard γ)) (s : σ) (g : γ) :
    Except CatError AuthorizedRequest × σ × γ :=
  match v.sync.obligations env token ctx guard.isSome with
  | .error e => (.error e, s, g)
  | .ok pre => v.commitAsync env pre guard s g

/-- The answers to one request that is presented again and again. -/
def presentOffloaded (token : ValidatedToken) (ctx : RelayRequestContext H)
    (guard : Option (AsyncReplayGuard γ)) (blockList : CatPorBlockList) :
    List Ambient → σ → γ → List (Except CatError AuthorizedRequest)
  | [], _, _ => []
  | env :: later, s, g =>
    let r := v.authorizeOffloaded env token ctx guard (some blockList) none s g
    r.1 :: presentOffloaded token ctx guard blockList later r.2.1 r.2.2

def presentWithReplay (token : ValidatedToken) (ctx : RelayRequestContext H)
    (guard : AsyncReplayGuard γ) :
    List Ambient → RelayStores σ γ → List (Except CatError AuthorizedRequest)
  | [], _ => []
  | env :: later, st =>
    let r := v.authorizeWithReplay env token ctx guard st
    r.1 :: presentWithReplay token ctx guard later r.2

end

section
variable {H : Host} {σ₀ σ γ : Type} {v : AsyncMoqtValidator σ₀ σ} {env : Ambient}
  {token : ValidatedToken} {ctx : RelayRequestContext H}

/-- On one call the two agree. -/
theorem authorizeOffloaded_guarded {guard : AsyncReplayGuard γ} {st : RelayStores σ γ} :
    v.authorizeOffloaded env token ctx (some guard) st.blockList none st.jti st.guard =
      ((v.authorizeWithReplay env token ctx guard st).1,
        (v.authorizeWithReplay env token ctx guard st).2.jti,
        (v.authorizeWithReplay env token ctx guard st).2.guard) := by
  unfold authorizeOffloaded authorizeWithReplay
  dsimp only [Option.isSome]
  cases h : v.sync.authorizePrecommit env token ctx true st.blockList with
  | mk decision blockList =>
    cases decision with
    | error e => rfl
    | ok pre => rfl

/-- Without a guard and a block list it is `authorize`. -/
theorem authorizeOffloaded_bare {st : RelayStores σ γ} :
    v.authorizeOffloaded env token ctx (none : Option (AsyncReplayGuard γ)) none none st.jti
        st.guard =
      ((v.authorize env token ctx st).1, (v.authorize env token ctx st).2.jti,
        (v.authorize env token ctx st).2.guard) := by
  unfold authorizeOffloaded authorize
  dsimp only [Option.isSome]
  cases h : (v.sync.authorizePrecommit env token ctx false none).1 with
  | error e => rfl
  | ok pre => rfl

variable {p : ProbabilityOfRejection} {l : CatPorBlockList}
  (hcatpor : token.claims.cat.catpor = some p)
  (hrestrictions : v.sync.checkRestrictions token.claims ctx = .ok ())
include hcatpor hrestrictions

/-- The checks up to `catpor`, and what they leave of the list. -/
theorem authorizePrecommit_catpor {configured : Bool} :
    v.sync.authorizePrecommit env token ctx configured (some l) =
      match enforceCatpor env token.claims l with
      | (.error e, l') => (.error e, some l')
      | (.ok (), l') => (v.sync.obligations env token ctx configured, some l') := by
  have hsome : token.claims.cat.catpor.isSome = true := by rw [hcatpor]; rfl
  unfold MoqtValidator.authorizePrecommit MoqtValidator.checkCatpor
  rw [hrestrictions]
  dsimp only
  rw [if_pos hsome]
  cases enforceCatpor env token.claims l with
  | mk verdict l' =>
    cases verdict with
    | error e => rfl
    | ok => rfl

theorem authorizePrecommit_blocked {configured : Bool}
    (h : (l.isBlocked env.utcNow p.id).1 = true) :
    v.sync.authorizePrecommit env token ctx configured (some l) =
      (.error .rejectedByProbability, some (l.isBlocked env.utcNow p.id).2) := by
  rw [authorizePrecommit_catpor hcatpor hrestrictions, enforceCatpor_eq,
    enforceCatporWith_blocked hcatpor h]

theorem authorizePrecommit_drawn {configured : Bool} {draw : UInt64}
    (h : (l.isBlocked env.utcNow p.id).1 = false) (hdraw : env.draw = some draw) :
    v.sync.authorizePrecommit env token ctx configured (some l) =
      if doubleBelow draw p.probability then
        (.error .rejectedByProbability,
          some ((l.isBlocked env.utcNow p.id).2.add p.id p.expiration))
      else
        (v.sync.obligations env token ctx configured, some (l.isBlocked env.utcNow p.id).2) := by
  rw [authorizePrecommit_catpor hcatpor hrestrictions, enforceCatpor_eq,
    enforceCatporWith_drawn hcatpor h hdraw]
  cases doubleBelow draw p.probability with
  | true => rfl
  | false => rfl

/-- While its entry is in force, a token is refused whatever it draws. -/
theorem presentWithReplay_blocked {guard : AsyncReplayGuard γ} {envs : List Ambient}
    (hforce : ∀ e ∈ envs, CatPorBlockList.inForce e.utcNow p.expiration = true) {s : σ} {g : γ}
    (hentry : l.entry p.id = some p.expiration) :
    ∀ answer ∈ v.presentWithReplay token ctx guard envs ⟨s, g, some l⟩,
      answer = .error .rejectedByProbability := by
  induction envs generalizing l with
  | nil => exact fun answer h => absurd h List.not_mem_nil
  | cons e envs ih =>
    rw [List.forall_mem_cons] at hforce
    have hblocked : (l.isBlocked e.utcNow p.id).1 = true :=
      CatPorBlockList.isBlocked_iff.mpr ⟨_, hentry, hforce.1⟩
    have hcall : v.authorizeWithReplay e token ctx guard ⟨s, g, some l⟩ =
        (.error .rejectedByProbability, ⟨s, g, some (l.isBlocked e.utcNow p.id).2⟩) := by
      unfold authorizeWithReplay
      rw [authorizePrecommit_blocked hcatpor hrestrictions hblocked]
    rw [presentWithReplay, hcall]
    exact List.forall_mem_cons.mpr
      ⟨rfl, ih hforce.2 (CatPorBlockList.entry_isBlocked.trans hentry)⟩

/-- One offloaded call: its own draw decides. -/
theorem authorizeOffloaded_drawn {guard : Option (AsyncReplayGuard γ)} {draw : UInt64} {s : σ}
    {g : γ} (h : (l.isBlocked env.utcNow p.id).1 = false) (hdraw : env.draw = some draw) :
    v.authorizeOffloaded env token ctx guard (some l) none s g =
      if doubleBelow draw p.probability then (.error .rejectedByProbability, s, g)
      else v.behindCatpor env token ctx guard s g := by
  unfold authorizeOffloaded behindCatpor
  dsimp only
  rw [authorizePrecommit_drawn hcatpor hrestrictions h hdraw]
  cases doubleBelow draw p.probability with
  | true => rfl
  | false => rfl

/-- The presentations with a draw below the probability leave nothing behind. -/
theorem presentOffloaded_passed {guard : Option (AsyncReplayGuard γ)} {draw : Ambient → UInt64}
    {before after : List Ambient} {e : Ambient} {s : σ} {g : γ}
    (hopen : ∀ b ∈ before ++ e :: after, (l.isBlocked b.utcNow p.id).1 = false)
    (hdraws : ∀ b ∈ before ++ e :: after, b.draw = some (draw b))
    (hbelow : ∀ b ∈ before, doubleBelow (draw b) p.probability = true)
    (hpasses : doubleBelow (draw e) p.probability = false) :
    (v.presentOffloaded token ctx guard l (before ++ e :: after) s g)[before.length]? =
      some (v.behindCatpor e token ctx guard s g).1 := by
  induction before with
  | nil =>
    rw [List.nil_append] at hopen hdraws ⊢
    rw [presentOffloaded, authorizeOffloaded_drawn hcatpor hrestrictions
      (hopen e List.mem_cons_self) (hdraws e List.mem_cons_self), hpasses]
    rfl
  | cons b before ih =>
    rw [List.cons_append] at hopen hdraws ⊢
    rw [List.forall_mem_cons] at hopen hdraws hbelow
    rw [presentOffloaded, authorizeOffloaded_drawn hcatpor hrestrictions hopen.1 hdraws.1,
      if_pos hbelow.1]
    exact ih hopen.2 hdraws.2 hbelow.2

end

/-- **A rejection is final on one path and forgotten on the other.** Each single call is answered
alike. But let a request be presented again whose token was rejected by its draw. With the block
list that is kept every later presentation is refused while the entry is in force, whatever is
drawn. With `authorize_offloaded`, and the list as it was, the first presentation with a draw
that is not below the probability is answered as if it were the only one and the token had no
`catpor`. -/
theorem offloaded_forgets {H : Host} {σ₀ σ γ : Type} {v : AsyncMoqtValidator σ₀ σ}
    {token : ValidatedToken} {ctx : RelayRequestContext H} {guard : AsyncReplayGuard γ}
    {p : ProbabilityOfRejection} {l : CatPorBlockList} {draw : Ambient → UInt64} {env : Ambient}
    {later : List Ambient} {s : σ} {g : γ}
    (hcatpor : token.claims.cat.catpor = some p)
    (hrestrictions : v.sync.checkRestrictions token.claims ctx = .ok ()) (hroomy : l.Roomy)
    (hopen : ∀ e ∈ env :: later, (l.isBlocked e.utcNow p.id).1 = false)
    (hdraws : ∀ e ∈ env :: later, e.draw = some (draw e))
    (hforce : ∀ e ∈ later, CatPorBlockList.inForce e.utcNow p.expiration = true)
    (hrejected : doubleBelow (draw env) p.probability = true) :
    (∀ (e : Ambient) (st : RelayStores σ γ),
      v.authorizeOffloaded e token ctx (some guard) st.blockList none st.jti st.guard =
        ((v.authorizeWithReplay e token ctx guard st).1,
          (v.authorizeWithReplay e token ctx guard st).2.jti,
          (v.authorizeWithReplay e token ctx guard st).2.guard)) ∧
    (∀ (e : Ambient) (st : RelayStores σ γ),
      v.authorizeOffloaded e token ctx (none : Option (AsyncReplayGuard γ)) none none st.jti
          st.guard =
        ((v.authorize e token ctx st).1, (v.authorize e token ctx st).2.jti,
          (v.authorize e token ctx st).2.guard)) ∧
    (∀ answer ∈ v.presentWithReplay token ctx guard (env :: later) ⟨s, g, some l⟩,
      answer = .error .rejectedByProbability) ∧
    ∀ before e after, env :: later = before ++ e :: after →
      (∀ b ∈ before, doubleBelow (draw b) p.probability = true) →
      doubleBelow (draw e) p.probability = false →
      (v.presentOffloaded token ctx (some guard) l (env :: later) s g)[before.length]? =
        some (v.behindCatpor e token ctx (some guard) s g).1 := by
  refine ⟨fun e st => authorizeOffloaded_guarded, fun e st => authorizeOffloaded_bare, ?_, ?_⟩
  · have hfirst := List.forall_mem_cons.mp hopen
    have hcall : v.authorizeWithReplay env token ctx guard ⟨s, g, some l⟩ =
        (.error .rejectedByProbability,
          ⟨s, g, some ((l.isBlocked env.utcNow p.id).2.add p.id p.expiration)⟩) := by
      unfold authorizeWithReplay
      rw [authorizePrecommit_drawn hcatpor hrestrictions hfirst.1
        (hdraws env List.mem_cons_self), if_pos hrejected]
    rw [presentWithReplay, hcall]
    exact List.forall_mem_cons.mpr ⟨rfl, presentWithReplay_blocked hcatpor hrestrictions hforce
      (CatPorBlockList.entry_add_self hroomy.isBlocked)⟩
  · intro before e after hsplit hbelow hpasses
    rw [hsplit] at hopen hdraws ⊢
    exact presentOffloaded_passed hcatpor hrestrictions hopen hdraws hbelow hpasses

/-! ## A token that is rejected half of the time -/

def halvedToken : ValidatedToken :=
  sampleValidated (setupToken { catpor := some ⟨(F64.ofInt 1).divPow2 1, [1], none⟩ } none)
    (by decide +kernel)

def halvedValidator : AsyncMoqtValidator Unit Unit where
  sync := {}
  jtiStore := ⟨fun _ _ _ s => (.ok (), s), true⟩

def listGuard : AsyncReplayGuard (List Bytes) :=
  ⟨fun cti seen => (.ok (seen.contains cti), cti :: seen), true⟩

def lowDraw : Ambient := ⟨0, 0, some 0⟩
def highDraw : Ambient := ⟨1, 1, some 0xC000000000000000⟩

theorem offloaded_forgets_halvedToken :
    (∀ answer ∈ halvedValidator.presentWithReplay halvedToken setupContext listGuard
        [lowDraw, highDraw] ⟨(), [], some (.withCapacity (fun _ => 0) 16)⟩,
      answer = .error .rejectedByProbability) ∧
    (halvedValidator.presentOffloaded halvedToken setupContext (some listGuard)
        (.withCapacity (fun _ => 0) 16) [lowDraw, highDraw] () [])[1]? =
      some (.ok { matchedScopeIndex := 0 }) := by
  have h := @offloaded_forgets .reference Unit Unit (List Bytes) halvedValidator halvedToken
    setupContext listGuard ⟨(F64.ofInt 1).divPow2 1, [1], none⟩
    (.withCapacity (fun _ => 0) 16) (fun e => e.draw.getD 0) lowDraw [highDraw] () [] rfl
    (by decide +kernel) (CatPorBlockList.roomy_withCapacity _ _) (by decide +kernel)
    (by decide +kernel) (by decide +kernel) (by decide +kernel)
  have hsecond := h.2.2.2 [lowDraw] highDraw [] rfl (by decide +kernel) (by decide +kernel)
  refine ⟨h.2.2.1, hsecond.trans ?_⟩
  decide +kernel

end AsyncMoqtValidator

end Cat
