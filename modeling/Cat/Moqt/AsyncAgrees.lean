import Cat.Lib.Runs
import Cat.Moqt.Admission
import Cat.Moqt.ProofBinding

/-!
# The two pipelines agree

`AsyncMoqtValidator` repeats the commit of its synchronous validator over stores of its own.
Whatever the stores are, as long as the two kinds agree with each other, the pipelines return
the same authorization or fail together, and leave their stores related as before
(`authorize_agree`). The stores of the crate do agree: an adapted store with itself, and the
sharded one with the one behind a single lock.

Agreement of stores is a simulation: related states give related outcomes and related states.
Outcomes are related by success only, since two stores need not check in one order, and the two
of the crate do not: full and held at once, the one reports the bound and the other the replay.
So the errors of the pipelines may differ, and nothing else.

The decision is the same function in both pipelines, and the argument is about the commit alone:
each half of it over related stores, and then one after the other.
-/

set_option autoImplicit false

namespace Cat

open Cbor

/-! ## Stores that agree -/

section
variable {σ τ γ δ : Type}

def JtiAgree (R : σ → τ → Prop) (store : JtiStore σ) (asyncStore : AsyncJtiStore τ) : Prop :=
  ∀ now key iat s t, R s t →
    Agree R (store.checkAndInsert now key iat s) (asyncStore.checkAndInsert now key iat t)

def GuardAgree (R : γ → δ → Prop) (guard : ReplayGuard γ) (asyncGuard : AsyncReplayGuard δ) :
    Prop :=
  ∀ cti g d, R g d → Agree R (guard.checkAndRecord cti g) (asyncGuard.checkAndRecord cti d)

/-- The same contents, and the same block list. -/
structure RelayStores.Same (J : σ → τ → Prop) (G : γ → δ → Prop) (st : RelayStores σ γ)
    (st' : RelayStores τ δ) : Prop where
  jti : J st.jti st'.jti
  guard : G st.guard st'.guard
  blockList : st.blockList = st'.blockList

theorem JtiStore.agree_toAsync (store : JtiStore σ) : JtiAgree Eq store store.toAsync := by
  intro now key iat s t hst
  obtain rfl := hst
  exact .refl _

end

/-- The sharded store and the single one hold the same entries under the same bound. -/
structure SameEntries (s : InMemoryStrictJtiStore) (t : AsyncInMemoryStrictJtiStore) : Prop where
  maxEntries : s.maxEntries = t.maxEntries
  total : s.totalEntries = t.entries.entries.length
  holds : ∀ key iat, s.Holds key iat ↔ (key, iat) ∈ t.entries

/-- **They check in different orders**, which shows in the error only. -/
theorem InMemoryStrictJtiStore.agree_async :
    JtiAgree SameEntries InMemoryStrictJtiStore.store AsyncInMemoryStrictJtiStore.store := by
  intro now key iat s t hst
  have hkeys : key ∈ (s.shards (s.shardFor key)).keys ↔ key ∈ t.entries.keys := by
    rw [KeyedList.mem_keys, KeyedList.mem_keys]
    exact exists_congr fun i => hst.holds key i
  have hfull : s.overCapacity = t.maxEntries.filter fun max => t.entries.entries.length ≥ max := by
    rw [overCapacity, hst.maxEntries, hst.total]
  show Agree SameEntries (s.checkAndInsert key iat) (t.checkAndInsert key iat)
  unfold checkAndInsert AsyncInMemoryStrictJtiStore.checkAndInsert
  by_cases hlong : (utf8 key).length > maxJtiLengthBytes
  · rw [if_pos hlong, if_pos hlong]
    exact .error hst _ _
  · rw [if_neg hlong, if_neg hlong, ← hfull]
    by_cases hkey : key ∈ t.entries.keys
    · rw [dif_pos hkey]
      cases s.overCapacity with
      | some max => exact .error ⟨hst.maxEntries, hst.total, hst.holds⟩ _ _
      | none =>
        dsimp only
        rw [dif_pos (hkeys.mpr hkey)]
        exact .error hst _ _
    · rw [dif_neg hkey]
      cases s.overCapacity with
      | some max => exact .error ⟨hst.maxEntries, hst.total, hst.holds⟩ _ _
      | none =>
        dsimp only
        rw [dif_neg (hkeys.not.mpr hkey)]
        refine .ok ⟨hst.maxEntries, ?_, fun k i => ?_⟩ ()
        · show s.totalEntries + 1 = (t.entries.insertNew key iat hkey).entries.length
          rw [hst.total]
          rfl
        · rw [holds_record, hst.holds k i, KeyedList.mem_insertNew]

/-! ## Commits that agree -/

section
variable {H : Host} {σ τ γ δ : Type} {J : σ → τ → Prop} {G : γ → δ → Prop}

theorem PreCommit.commitWith_agree (pre : PreCommit) {jtiStep : σ → Except CatError Unit × σ}
    {jtiStep' : τ → Except CatError Unit × τ} {replayStep : γ → Except CatError Bool × γ}
    {replayStep' : δ → Except CatError Bool × δ} {s : σ} {t : τ} {g : γ} {d : δ} (hg : G g d)
    (hjti : Agree J (jtiStep s) (jtiStep' t))
    (hreplay : Agree G (replayStep g) (replayStep' d)) :
    Agree (fun st st' => J st.1 st'.1 ∧ G st.2 st'.2) (pre.commitWith jtiStep replayStep s g)
      (pre.commitWith jtiStep' replayStep' t d) := by
  unfold commitWith
  rcases hjti.cases with ⟨e, e', s', t', hs, ht, hst⟩ | ⟨u, s', t', hs, ht, hst⟩
  · rw [hs, ht]
    exact ⟨rfl, hst, hg⟩
  · rw [hs, ht]
    dsimp only
    rcases hreplay.cases with ⟨e, e', g', d', hg', hd', hgd⟩ | ⟨reused, g', d', hg', hd', hgd⟩
    · rw [hg', hd']
      exact ⟨rfl, hst, hgd⟩
    · rw [hg', hd']
      exact ⟨rfl, hst, hgd⟩

theorem MoqtValidator.judgeReuse_agree {obligation : CatReplayObligation}
    {seen seen' : Except CatError Bool} (h : seen.toOption = seen'.toOption) :
    (judgeReuse obligation seen).toOption = (judgeReuse obligation seen').toOption := by
  cases obligation with
  | reuseDetection cti => exact h
  | prohibited cti =>
    cases seen with
    | error e =>
      cases seen' with
      | error e' => rfl
      | ok b' => exact absurd h (by simp [Except.toOption])
    | ok b =>
      cases seen' with
      | error e' => exact absurd h (by simp [Except.toOption])
      | ok b' =>
        obtain rfl : b = b' := Option.some.inj h
        rfl

variable {v : MoqtValidator σ} {store : AsyncJtiStore τ} {guard : Option (ReplayGuard γ)}
  {asyncGuard : Option (AsyncReplayGuard δ)} {env : Ambient} {token : ValidatedToken}
  {ctx : RelayRequestContext H}

/-- The store of the synchronous validator, if it has one, agrees. -/
theorem commitJti_agree (hstore : ∀ d ∈ v.dpopValidator, JtiAgree J d.jtiStore store)
    {pre : PreCommit} (hconfigured : pre.jtiCommit.isSome → v.dpopValidator.isSome)
    {s : σ} {t : τ} (hst : J s t) :
    Agree J (v.commitJti env pre s)
      ((AsyncMoqtValidator.bestEffort v store).commitJti env pre t) := by
  unfold MoqtValidator.commitJti AsyncMoqtValidator.commitJti
  cases hcommit : pre.jtiCommit with
  | none => exact .ok hst ()
  | some commit =>
    cases hv : v.dpopValidator with
    | none =>
      rw [hcommit, hv] at hconfigured
      exact absurd (hconfigured rfl) (by simp)
    | some validator => exact hstore validator hv _ _ _ s t hst

/-- A guard that is missing on one side is missing on the other. -/
inductive GuardsAgree (G : γ → δ → Prop) :
    Option (ReplayGuard γ) → Option (AsyncReplayGuard δ) → Prop where
  | absent : GuardsAgree G none none
  | present {guard : ReplayGuard γ} {asyncGuard : AsyncReplayGuard δ}
      (h : GuardAgree G guard asyncGuard) : GuardsAgree G (some guard) (some asyncGuard)

variable (v store) in
theorem commitReplay_agree (hguard : GuardsAgree G guard asyncGuard) (pre : PreCommit) {g : γ}
    {d : δ} (hgd : G g d) :
    Agree G (MoqtValidator.commitReplay guard pre g)
      ((AsyncMoqtValidator.bestEffort v store).commitReplay asyncGuard pre d) := by
  unfold MoqtValidator.commitReplay AsyncMoqtValidator.commitReplay
  cases pre.replay with
  | none => exact .ok hgd false
  | some obligation =>
    cases hguard with
    | absent => exact .error hgd _ _
    | present hops =>
      exact (hops obligation.cti g d hgd).bind_fst fun _ _ => MoqtValidator.judgeReuse_agree

/-- What the pre-commit phase leaves to a store, a validator is there for. -/
theorem MoqtValidator.jtiCommit_configured {configured : Bool}
    {blockList : Option CatPorBlockList} {pre : PreCommit}
    (h : (v.authorizePrecommit env token ctx configured blockList).1 = .ok pre)
    (hcommit : pre.jtiCommit.isSome) : v.dpopValidator.isSome := by
  have hdpop := (obligations_ok (authorizePrecommit_ok h).2.2).2.2
  cases hcnf : token.claims.dpop.cnf with
  | none =>
    rw [dpopCommit, hcnf] at hdpop
    obtain hnone : none = pre.jtiCommit := Except.ok.inj hdpop
    rw [← hnone] at hcommit
    exact absurd hcommit (by simp)
  | some cnf =>
    obtain ⟨validator, proof, haccepted, -⟩ := dpopCommit_ok hcnf hdpop
    rw [haccepted.configured]
    rfl

/-! ## Calls that agree -/

abbrev MoqtValidator.call (v : MoqtValidator σ) (guard : Option (ReplayGuard γ))
    (token : ValidatedToken) (ctx : RelayRequestContext H) : RelayCall H σ σ γ :=
  .sync v guard token ctx

abbrev AsyncMoqtValidator.call (v : AsyncMoqtValidator σ τ) (guard : Option (AsyncReplayGuard δ))
    (token : ValidatedToken) (ctx : RelayRequestContext H) : RelayCall H σ τ δ :=
  .async v guard token ctx

/-- What the synchronous and the asynchronous call decide is one decision. -/
theorem RelayCall.precommit_agree (hguard : GuardsAgree G guard asyncGuard)
    (blockList : Option CatPorBlockList) :
    ((AsyncMoqtValidator.bestEffort v store).call asyncGuard token ctx).precommit env blockList =
      (v.call guard token ctx).precommit env blockList := by
  cases hguard with
  | absent => rfl
  | present => rfl

theorem RelayCall.precommit_configured {pre : PreCommit} {blockList : Option CatPorBlockList}
    (h : ((v.call guard token ctx).precommit env blockList).1 = .ok pre)
    (hcommit : pre.jtiCommit.isSome) : v.dpopValidator.isSome := by
  cases guard with
  | none => exact MoqtValidator.jtiCommit_configured h hcommit
  | some G => exact MoqtValidator.jtiCommit_configured h hcommit

/-- **The asynchronous pipeline is the synchronous one over other stores.**

The two pipelines are written separately in the source. They agree whatever the stores are, as long
as corresponding stores answer alike from corresponding states; the outcome, its error included, and
the stores afterwards are the same. The strict resolution of the replay guard is set apart, since
the synchronous pipeline has nothing like it. -/
theorem authorize_agree (hstore : ∀ d ∈ v.dpopValidator, JtiAgree J d.jtiStore store)
    (hguard : GuardsAgree G guard asyncGuard) {st : RelayStores σ γ} {st' : RelayStores τ δ}
    (hst : st.Same J G st') :
    Agree (RelayStores.Same J G)
      ((v.call guard token ctx).run env st)
      (((AsyncMoqtValidator.bestEffort v store).call asyncGuard token ctx).run env st') := by
  rw [RelayCall.run_eq, RelayCall.run_eq, RelayCall.precommit_agree hguard, ← hst.blockList]
  rcases hpre : (v.call guard token ctx).precommit env st.blockList
    with ⟨e | pre, blockList⟩
  · exact ⟨rfl, hst.jti, hst.guard, rfl⟩
  · have hconfigured := RelayCall.precommit_configured (congrArg Prod.fst hpre)
    have hjti : Agree J (v.commitJti env pre st.jti)
        ((AsyncMoqtValidator.bestEffort v store).commitJti env pre st'.jti) :=
      commitJti_agree hstore hconfigured hst.jti
    have hcommit := pre.commitWith_agree hst.guard hjti
      (commitReplay_agree v store hguard pre hst.guard)
    exact ⟨hcommit.outcome, hcommit.state.1, hcommit.state.2, rfl⟩

end

/-! ### A subscription over the two stores of the crate -/

theorem SameEntries.new (hash : String → UInt64) (window : Int64) (maxEntries : Nat) :
    SameEntries (.new hash window maxEntries) (.new maxEntries) :=
  ⟨rfl, rfl, fun _ _ => Iff.rfl⟩

/-- A guard that lists what it has seen, awaited. -/
def AsyncReplayGuard.ofList : AsyncReplayGuard (List Bytes) :=
  ⟨ReplayGuard.ofList.checkAndRecord, false⟩

theorem authorize_agree_subscribe :
    (((AsyncMoqtValidator.bestEffort subscribeValidator AsyncInMemoryStrictJtiStore.store).call
      (none : Option (AsyncReplayGuard (List Bytes))) subscribeValidated subscribeContext).run
        ⟨1000, 1000, none⟩ ⟨.new 16, [], none⟩).1.toOption = some { matchedScopeIndex := 0 } := by
  have hstore : ∀ d ∈ subscribeValidator.dpopValidator,
      JtiAgree SameEntries d.jtiStore AsyncInMemoryStrictJtiStore.store := by
    intro d hd
    obtain rfl := Option.some.inj hd
    exact InMemoryStrictJtiStore.agree_async
  have hguard : GuardsAgree Eq (none : Option (ReplayGuard (List Bytes)))
      (none : Option (AsyncReplayGuard (List Bytes))) := .absent
  have hstores : subscribeStores.Same SameEntries Eq ⟨.new 16, [], none⟩ :=
    ⟨.new _ _ _, rfl, rfl⟩
  have hagree := @authorize_agree _ _ _ _ _ _ _ _ _ _ _ ⟨1000, 1000, none⟩ subscribeValidated
    subscribeContext hstore hguard _ _ hstores
  exact hagree.outcome.symm.trans (congrArg Except.toOption subscribeAt1000.authorized)

end Cat
