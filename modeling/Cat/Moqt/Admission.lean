import Cat.Lib.Runs
import Cat.Moqt.Async
import Cat.Moqt.Mediation

/-!
# Admission under interleaving

Any number of calls, synchronous and asynchronous, that share a store of proof identifiers and a
replay guard. A call takes three steps — decide, enter the identifier, record the `cti` — and
the steps of different calls interleave in any order; what each step does to the shared stores
is atomic. A call that is left alone takes the steps that the pipeline takes
(`RelayCall.run_alone`).

Of the stores no more is asked than that they check and insert. Then an identifier and a `cti`
that may be used once each admit one call, and a call that fails before the guard has left it
alone (`admission`).

A phase carries what the call has decided, so the state says of each call what it owes and what
it has paid. The invariant (`Admitted`) is about keys and their owners: what a call has entered
is in the store, what it has used up is in the guard, and no two calls own the same. A step adds
to the stores and never takes from them, and the one thing a step can do wrong is to give a call
a key that another one owns; the store has refused that, since it held the key. Cleanups are
outside of this system, and time with them: within a window nothing is forgotten.

The relation has a step for each call at each phase, at any reading of the clock. No fairness is
assumed and none is needed, since nothing is said about calls that do not finish.
-/

set_option autoImplicit false

namespace Cat

open Cbor

/-! ## Stores

All that is used of a store and of a guard, in two structures. That a store forgets nothing is
among it, and holds as long as no cleanup runs.
-/

/-- A store that accepts a key it does not hold, holds it from then on, and forgets none. -/
structure ChecksAndInserts {σ : Type} (keys : σ → Set String)
    (op : Int64 → String → Int64 → σ → Except CatError Unit × σ) : Prop where
  fresh : ∀ {now key iat s s'}, op now key iat s = (.ok (), s') → key ∉ keys s ∧ key ∈ keys s'
  keeps : ∀ now key iat s, keys s ⊆ keys (op now key iat s).2

/-- A guard that calls a `cti` new if it has not recorded it, has recorded it then, and
    forgets none. -/
structure ChecksAndRecords {γ : Type} (ctis : γ → Set Bytes)
    (op : Bytes → γ → Except CatError Bool × γ) : Prop where
  fresh : ∀ {cti g g'}, op cti g = (.ok false, g') → cti ∉ ctis g ∧ cti ∈ ctis g'
  keeps : ∀ cti g, ctis g ⊆ ctis (op cti g).2

/-- The strict store of the crate is one, while nothing is cleaned up. -/
theorem InMemoryStrictJtiStore.checksAndInserts :
    ChecksAndInserts (fun s => { key | ∃ iat, s.Holds key iat }) store.checkAndInsert where
  fresh := by
    intro now key iat s s' h
    obtain ⟨hfresh, -, hholds⟩ := checkAndInsert_ok h
    exact ⟨fun ⟨i, hi⟩ => hfresh i hi, iat, (hholds key iat).mpr (.inl rfl)⟩
  keeps := by
    intro now key iat s k ⟨i, hi⟩
    rcases hop : s.checkAndInsert key iat with ⟨e | _, s'⟩
    · obtain ⟨hshards, hhash, -⟩ := checkAndInsert_error hop
      refine ⟨i, ?_⟩
      show (s.checkAndInsert key iat).2.Holds k i
      rw [hop]
      exact (holds_congr hshards hhash).mpr hi
    · refine ⟨i, ?_⟩
      show (s.checkAndInsert key iat).2.Holds k i
      rw [hop]
      exact ((checkAndInsert_ok hop).2.2 k i).mpr (.inr hi)

theorem ReplayGuard.ofList_checksAndRecords :
    ChecksAndRecords (fun seen => { cti | cti ∈ seen }) ReplayGuard.ofList.checkAndRecord where
  fresh := by
    intro cti g g' h
    obtain ⟨hseen, rfl⟩ := Prod.mk.inj h
    exact ⟨by simpa using hseen, List.mem_cons_self⟩
  keeps := by
    intro cti g c hc
    exact List.mem_cons_of_mem cti hc

/-! ## Calls

A call is its validator with the token and the request, of either pipeline, over one kind of
shared stores.
-/

inductive RelayCall (H : Host) (σ₀ σ γ : Type) where
  | sync (v : MoqtValidator σ) (guard : Option (ReplayGuard γ)) (token : ValidatedToken)
    (ctx : RelayRequestContext H)
  | async (v : AsyncMoqtValidator σ₀ σ) (guard : Option (AsyncReplayGuard γ))
    (token : ValidatedToken) (ctx : RelayRequestContext H)

namespace RelayCall

variable {H : Host} {σ₀ σ γ : Type}

def token : RelayCall H σ₀ σ γ → ValidatedToken
  | sync _ _ token _ | async _ _ token _ => token

/-- The pre-commit phase. The block list belongs to the replay context. -/
def precommit (env : Ambient) (blockList : Option CatPorBlockList) :
    RelayCall H σ₀ σ γ → Except CatError PreCommit × Option CatPorBlockList
  | sync v none token ctx => ((v.authorizePrecommit env token ctx false none).1, blockList)
  | sync v (some _) token ctx => v.authorizePrecommit env token ctx true blockList
  | async v none token ctx => ((v.sync.authorizePrecommit env token ctx false none).1, blockList)
  | async v (some _) token ctx => v.sync.authorizePrecommit env token ctx true blockList

def commitJti (env : Ambient) (pre : PreCommit) (s : σ) :
    RelayCall H σ₀ σ γ → Except CatError Unit × σ
  | sync v _ _ _ => v.commitJti env pre s
  | async v _ _ _ => v.commitJti env pre s

def commitReplay (pre : PreCommit) (g : γ) : RelayCall H σ₀ σ γ → Except CatError Bool × γ
  | sync _ guard _ _ => MoqtValidator.commitReplay guard pre g
  | async v guard _ _ => v.commitReplay guard pre g

/-- The whole call, as the pipelines have it. -/
def run (env : Ambient) (st : RelayStores σ γ) :
    RelayCall H σ₀ σ γ → Except CatError AuthorizedRequest × RelayStores σ γ
  | sync v none token ctx => v.authorize env token ctx st
  | sync v (some guard) token ctx => v.authorizeWithReplay env token ctx guard st
  | async v none token ctx => v.authorize env token ctx st
  | async v (some guard) token ctx => v.authorizeWithReplay env token ctx guard st

/-- The call's stores check and insert. -/
def Behaves (keys : σ → Set String) (ctis : γ → Set Bytes) : RelayCall H σ₀ σ γ → Prop
  | sync v guard _ _ => (∀ d ∈ v.dpopValidator, ChecksAndInserts keys d.jtiStore.checkAndInsert) ∧
      ∀ g ∈ guard, ChecksAndRecords ctis g.checkAndRecord
  | async v guard _ _ => ChecksAndInserts keys v.jtiStore.checkAndInsert ∧
      ∀ g ∈ guard, ChecksAndRecords ctis g.checkAndRecord

end RelayCall

/-! ## Steps

What is atomic is one operation of a store. A decision touches no store but the block list, and
it is a step because the clock may be read there.
-/

inductive CallPhase where
  | idle
  | decided (pre : PreCommit)
  /-- The identifier of the proof is in the store. -/
  | entered (pre : PreCommit)
  /-- By the pre-commit phase, or by the store. -/
  | rejected (e : CatError)
  /-- By the guard. -/
  | refused (pre : PreCommit) (e : CatError)
  | authorized (pre : PreCommit) (r : AuthorizedRequest)

structure RelayState (ι σ γ : Type) where
  stores : RelayStores σ γ
  phase : ι → CallPhase

section
variable {ι : Type} [DecidableEq ι] {H : Host} {σ₀ σ γ : Type}

/-- One step of one call, at any reading of the clock. -/
inductive RelayStep (calls : ι → RelayCall H σ₀ σ γ) :
    RelayState ι σ γ → ι → RelayState ι σ γ → Prop where
  | decide {s : σ} {g : γ} {blockList blockList' : Option CatPorBlockList} {ph : ι → CallPhase}
      {i : ι} {env : Ambient} {pre : PreCommit} (hph : ph i = .idle)
      (h : (calls i).precommit env blockList = (.ok pre, blockList')) :
      RelayStep calls ⟨⟨s, g, blockList⟩, ph⟩ i
        ⟨⟨s, g, blockList'⟩, Function.update ph i (.decided pre)⟩
  | reject {s : σ} {g : γ} {blockList blockList' : Option CatPorBlockList} {ph : ι → CallPhase}
      {i : ι} {env : Ambient} {e : CatError} (hph : ph i = .idle)
      (h : (calls i).precommit env blockList = (.error e, blockList')) :
      RelayStep calls ⟨⟨s, g, blockList⟩, ph⟩ i
        ⟨⟨s, g, blockList'⟩, Function.update ph i (.rejected e)⟩
  | enter {s s' : σ} {g : γ} {blockList : Option CatPorBlockList} {ph : ι → CallPhase} {i : ι}
      {env : Ambient} {pre : PreCommit} (hph : ph i = .decided pre)
      (h : (calls i).commitJti env pre s = (.ok (), s')) :
      RelayStep calls ⟨⟨s, g, blockList⟩, ph⟩ i
        ⟨⟨s', g, blockList⟩, Function.update ph i (.entered pre)⟩
  | bar {s s' : σ} {g : γ} {blockList : Option CatPorBlockList} {ph : ι → CallPhase} {i : ι}
      {env : Ambient} {pre : PreCommit} {e : CatError} (hph : ph i = .decided pre)
      (h : (calls i).commitJti env pre s = (.error e, s')) :
      RelayStep calls ⟨⟨s, g, blockList⟩, ph⟩ i
        ⟨⟨s', g, blockList⟩, Function.update ph i (.rejected e)⟩
  | authorize {s : σ} {g g' : γ} {blockList : Option CatPorBlockList} {ph : ι → CallPhase} {i : ι}
      {pre : PreCommit} {reused : Bool} (hph : ph i = .entered pre)
      (h : (calls i).commitReplay pre g = (.ok reused, g')) :
      RelayStep calls ⟨⟨s, g, blockList⟩, ph⟩ i
        ⟨⟨s, g', blockList⟩, Function.update ph i (.authorized pre (pre.finalize reused))⟩
  | refuse {s : σ} {g g' : γ} {blockList : Option CatPorBlockList} {ph : ι → CallPhase} {i : ι}
      {pre : PreCommit} {e : CatError} (hph : ph i = .entered pre)
      (h : (calls i).commitReplay pre g = (.error e, g')) :
      RelayStep calls ⟨⟨s, g, blockList⟩, ph⟩ i
        ⟨⟨s, g', blockList⟩, Function.update ph i (.refused pre e)⟩

/-! ## One call alone

The machine does nothing that the pipeline does not do: steps in a row are the pipeline's run.
-/

/-- What a finished call has returned. -/
def CallPhase.outcome : CallPhase → Option (Except CatError AuthorizedRequest)
  | idle | decided _ | entered _ => none
  | rejected e | refused _ e => some (.error e)
  | authorized _ r => some (.ok r)

/-- The pipelines are their three steps in a row. -/
theorem RelayCall.run_eq (c : RelayCall H σ₀ σ γ) (env : Ambient) (st : RelayStores σ γ) :
    c.run env st =
      match c.precommit env st.blockList with
      | (.error e, blockList) => (.error e, { st with blockList })
      | (.ok pre, blockList) =>
        let (r, s, g) := pre.commitWith (fun s => c.commitJti env pre s)
          (fun g => c.commitReplay pre g) st.jti st.guard
        (r, ⟨s, g, blockList⟩) := by
  cases c with
  | sync v guard token ctx =>
    cases guard with
    | none =>
      simp only [run, precommit, MoqtValidator.authorize]
      cases (v.authorizePrecommit env token ctx false none).1 with
      | error e => rfl
      | ok pre => rfl
    | some guard => rfl
  | async v guard token ctx =>
    cases guard with
    | none =>
      simp only [run, precommit, AsyncMoqtValidator.authorize]
      cases (v.sync.authorizePrecommit env token ctx false none).1 with
      | error e => rfl
      | ok pre => rfl
    | some guard => rfl

/-- **A call that is left alone does what the pipeline does.** -/
theorem RelayCall.run_alone (calls : ι → RelayCall H σ₀ σ γ) (st : RelayStores σ γ)
    {ph : ι → CallPhase} {i : ι} (hph : ph i = .idle) (env : Ambient) :
    ∃ es p, (∀ j ∈ es, j = i) ∧
      Run (RelayStep calls) ⟨st, ph⟩ es
        ⟨((calls i).run env st).2, Function.update ph i p⟩ ∧
      p.outcome = some ((calls i).run env st).1 := by
  obtain ⟨s, g, blockList⟩ := st
  rw [RelayCall.run_eq]
  rcases hpre : (calls i).precommit env blockList with ⟨e | pre, blockList'⟩
  · exact ⟨[i], .rejected e, by simp, .cons (.reject hph hpre) (.nil _), rfl⟩
  · have hdecide := RelayStep.decide (s := s) (g := g) hph hpre
    have hdecided : Function.update ph i (.decided pre) i = .decided pre := Function.update_self ..
    unfold PreCommit.commitWith
    dsimp only
    rcases hjti : (calls i).commitJti env pre s with ⟨e | _, s'⟩
    · have hbar : RelayStep calls ⟨⟨s, g, blockList'⟩, _⟩ i _ := .bar hdecided hjti
      rw [Function.update_idem] at hbar
      exact ⟨[i, i], .rejected e, by simp, .cons hdecide (.cons hbar (.nil _)), rfl⟩
    · have henter : RelayStep calls ⟨⟨s, g, blockList'⟩, _⟩ i _ := .enter hdecided hjti
      rw [Function.update_idem] at henter
      have hentered : Function.update ph i (.entered pre) i = .entered pre :=
        Function.update_self ..
      dsimp only
      rcases hreplay : (calls i).commitReplay pre g with ⟨e | reused, g'⟩
      · have hrefuse : RelayStep calls ⟨⟨s', g, blockList'⟩, _⟩ i _ := .refuse hentered hreplay
        rw [Function.update_idem] at hrefuse
        exact ⟨[i, i, i], .refused pre e, by simp,
          .cons hdecide (.cons henter (.cons hrefuse (.nil _))), rfl⟩
      · have hauthorize : RelayStep calls ⟨⟨s', g, blockList'⟩, _⟩ i _ :=
          .authorize hentered hreplay
        rw [Function.update_idem] at hauthorize
        exact ⟨[i, i, i], .authorized pre (pre.finalize reused), by simp,
          .cons hdecide (.cons henter (.cons hauthorize (.nil _))), rfl⟩

/-! ## What a call holds

From its phase: the key that it has entered, and the `cti` that it has used up.
-/

/-- What the pre-commit phase returned, once it has passed. -/
def CallPhase.pre? : CallPhase → Option PreCommit
  | idle | rejected _ => none
  | decided pre | entered pre | refused pre _ | authorized pre _ => some pre

/-- The store key that the call has entered. -/
def CallPhase.enteredKey : CallPhase → Option String
  | idle | decided _ | rejected _ => none
  | entered pre | refused pre _ | authorized pre _ => pre.jtiCommit.map Prod.fst

def PreCommit.prohibitedCti (pre : PreCommit) : Option Bytes :=
  match pre.replay with
  | some (.prohibited cti) => some cti
  | some (.reuseDetection _) | none => none

/-- The `cti` that the call has used up. -/
def CallPhase.spentCti : CallPhase → Option Bytes
  | idle | decided _ | rejected _ | entered _ | refused _ _ => none
  | authorized pre _ => pre.prohibitedCti

variable {keys : σ → Set String} {ctis : γ → Set Bytes}

namespace RelayCall

variable {c : RelayCall H σ₀ σ γ} {env : Ambient} {pre : PreCommit} {s s' : σ} {g g' : γ}

theorem commitJti_keeps (hc : c.Behaves keys ctis) {r : Except CatError Unit}
    (h : c.commitJti env pre s = (r, s')) : keys s ⊆ keys s' := by
  rw [show s' = (c.commitJti env pre s).2 from (congrArg Prod.snd h).symm]
  cases c with
  | sync v guard token ctx =>
    simp only [commitJti, MoqtValidator.commitJti]
    split
    · exact subset_rfl
    · split
      · exact subset_rfl
      · exact (hc.1 _ ‹_›).keeps _ _ _ _
  | async v guard token ctx =>
    simp only [commitJti, AsyncMoqtValidator.commitJti]
    split
    · exact subset_rfl
    · exact hc.1.keeps _ _ _ _

/-- A key that is entered was not in the store. -/
theorem commitJti_ok (hc : c.Behaves keys ctis) (h : c.commitJti env pre s = (.ok (), s'))
    {k : String} (hk : pre.jtiCommit.map Prod.fst = some k) : k ∉ keys s ∧ k ∈ keys s' := by
  obtain ⟨⟨key, iat⟩, hcommit, rfl⟩ := Option.map_eq_some_iff.mp hk
  cases c with
  | sync v guard token ctx =>
    simp only [commitJti, MoqtValidator.commitJti, hcommit] at h
    split at h
    · exact absurd (Prod.mk.inj h).1 (by simp)
    · exact (hc.1 _ ‹_›).fresh h
  | async v guard token ctx =>
    simp only [commitJti, AsyncMoqtValidator.commitJti, hcommit] at h
    exact hc.1.fresh h

theorem commitReplay_keeps (hc : c.Behaves keys ctis) {r : Except CatError Bool}
    (h : c.commitReplay pre g = (r, g')) : ctis g ⊆ ctis g' := by
  rw [show g' = (c.commitReplay pre g).2 from (congrArg Prod.snd h).symm]
  cases c with
  | sync v guard token ctx =>
    simp only [commitReplay, MoqtValidator.commitReplay]
    split
    · exact subset_rfl
    · cases guard with
      | none => exact subset_rfl
      | some G => exact (hc.2 G rfl).keeps _ _
  | async v guard token ctx =>
    simp only [commitReplay, AsyncMoqtValidator.commitReplay]
    split
    · exact subset_rfl
    · split
      · exact subset_rfl
      · exact (hc.2 _ (AsyncMoqtValidator.resolveReplayGuard_ok ‹_›)).keeps _ _

/-- A `cti` that is used up was not in the guard. -/
theorem commitReplay_ok (hc : c.Behaves keys ctis) {reused : Bool}
    (h : c.commitReplay pre g = (.ok reused, g')) {cti : Bytes}
    (hcti : pre.prohibitedCti = some cti) : cti ∉ ctis g ∧ cti ∈ ctis g' := by
  have hob : pre.replay = some (.prohibited cti) := by
    unfold PreCommit.prohibitedCti at hcti
    split at hcti
    · obtain rfl := Option.some.inj hcti
      assumption
    · exact absurd hcti (by simp)
    · exact absurd hcti (by simp)
  cases c with
  | sync v guard token ctx =>
    obtain ⟨G, seen, hG, hseen, hpass⟩ := Cat.commitReplay_ok hob h
    cases hpass with
    | prohibited => exact (hc.2 G hG).fresh hseen
  | async v guard token ctx =>
    obtain ⟨G, seen, hG, hseen, hpass⟩ := AsyncMoqtValidator.commitReplay_ok hob h
    cases hpass with
    | prohibited => exact (hc.2 G hG).fresh hseen

end RelayCall

/-! ## The invariant

Kept by every step, for any number of calls.
-/

/-- Every call that is past its decision decided for itself, the keys that were entered are
    in the store, the `cti`s that were used up in the guard, and each belongs to one call. -/
structure Admitted (calls : ι → RelayCall H σ₀ σ γ) (keys : σ → Set String)
    (ctis : γ → Set Bytes) (st : RelayState ι σ γ) : Prop where
  decided : ∀ i pre, (st.phase i).pre? = some pre →
    ∃ env blockList, ((calls i).precommit env blockList).1 = .ok pre
  entered : Exclusive (CallPhase.enteredKey ∘ st.phase) (keys st.stores.jti)
  spent : Exclusive (CallPhase.spentCti ∘ st.phase) (ctis st.stores.guard)

variable {calls : ι → RelayCall H σ₀ σ γ} {st st' : RelayState ι σ γ}

omit [DecidableEq ι] in
theorem Admitted.start (stores : RelayStores σ γ) :
    Admitted calls keys ctis ⟨stores, fun _ => .idle⟩ := by
  constructor
  · intro i pre h
    exact absurd h (by simp [CallPhase.pre?])
  · constructor
    · intro i k h
      exact absurd h (by simp [CallPhase.enteredKey])
    · intro i j k h
      exact absurd h (by simp [CallPhase.enteredKey])
  · constructor
    · intro i k h
      exact absurd h (by simp [CallPhase.spentCti])
    · intro i j k h
      exact absurd h (by simp [CallPhase.spentCti])

/-- One call moves to phase `p`, holding what it held or something new. -/
theorem Admitted.move {s s' : σ} {g g' : γ} {blockList blockList' : Option CatPorBlockList}
    {ph : ι → CallPhase} {i : ι} {p : CallPhase}
    (h : Admitted calls keys ctis ⟨⟨s, g, blockList⟩, ph⟩)
    (hs : keys s ⊆ keys s') (hg : ctis g ⊆ ctis g')
    (hpre : ∀ pre, p.pre? = some pre →
      ∃ env blockList, ((calls i).precommit env blockList).1 = .ok pre)
    (hkey : ∀ k, p.enteredKey = some k → (ph i).enteredKey = some k ∨ k ∉ keys s ∧ k ∈ keys s')
    (hcti : ∀ c, p.spentCti = some c → (ph i).spentCti = some c ∨ c ∉ ctis g ∧ c ∈ ctis g') :
    Admitted calls keys ctis ⟨⟨s', g', blockList'⟩, Function.update ph i p⟩ := by
  constructor
  · intro j pre hj
    dsimp only at hj
    by_cases hji : j = i
    · obtain rfl := hji
      rw [Function.update_self] at hj
      exact hpre pre hj
    · rw [Function.update_of_ne hji] at hj
      exact h.decided j pre hj
  · dsimp only
    rw [Function.comp_update]
    exact h.entered.update hs hkey
  · dsimp only
    rw [Function.comp_update]
    exact h.spent.update hg hcti

/-- **Every step keeps it.** -/
theorem Admitted.step (hcalls : ∀ i, (calls i).Behaves keys ctis) {i : ι}
    (h : Admitted calls keys ctis st) (hstep : RelayStep calls st i st') :
    Admitted calls keys ctis st' := by
  cases hstep with
  | decide hph hdecide =>
    apply h.move subset_rfl subset_rfl
    · intro pre hpre
      obtain rfl := Option.some.inj hpre
      exact ⟨_, _, congrArg Prod.fst hdecide⟩
    · intro k hk
      exact absurd hk (by simp [CallPhase.enteredKey])
    · intro c hc
      exact absurd hc (by simp [CallPhase.spentCti])
  | reject hph hdecide =>
    apply h.move subset_rfl subset_rfl
    · intro pre hpre
      exact absurd hpre (by simp [CallPhase.pre?])
    · intro k hk
      exact absurd hk (by simp [CallPhase.enteredKey])
    · intro c hc
      exact absurd hc (by simp [CallPhase.spentCti])
  | enter hph hcommit =>
    apply h.move (RelayCall.commitJti_keeps (hcalls i) hcommit) subset_rfl
    · intro pre hpre
      obtain rfl := Option.some.inj hpre
      exact h.decided i _ (by dsimp only; rw [hph]; rfl)
    · -- The step that adds a key to the store is the one that enters the call.
      intro k hk
      exact .inr (RelayCall.commitJti_ok (hcalls i) hcommit hk)
    · intro c hc
      exact absurd hc (by simp [CallPhase.spentCti])
  | bar hph hcommit =>
    apply h.move (RelayCall.commitJti_keeps (hcalls i) hcommit) subset_rfl
    · intro pre hpre
      exact absurd hpre (by simp [CallPhase.pre?])
    · intro k hk
      exact absurd hk (by simp [CallPhase.enteredKey])
    · intro c hc
      exact absurd hc (by simp [CallPhase.spentCti])
  | authorize hph hcommit =>
    apply h.move subset_rfl (RelayCall.commitReplay_keeps (hcalls i) hcommit)
    · intro pre hpre
      obtain rfl := Option.some.inj hpre
      exact h.decided i _ (by dsimp only; rw [hph]; rfl)
    · intro k hk
      rw [hph]
      exact .inl hk
    · intro c hc
      exact .inr (RelayCall.commitReplay_ok (hcalls i) hcommit hc)
  | refuse hph hcommit =>
    apply h.move subset_rfl (RelayCall.commitReplay_keeps (hcalls i) hcommit)
    · intro pre hpre
      obtain rfl := Option.some.inj hpre
      exact h.decided i _ (by dsimp only; rw [hph]; rfl)
    · intro k hk
      rw [hph]
      exact .inl hk
    · intro c hc
      exact absurd hc (by simp [CallPhase.spentCti])

theorem Admitted.run {es : List ι} (hcalls : ∀ i, (calls i).Behaves keys ctis)
    (h : Admitted calls keys ctis st) (hrun : Run (RelayStep calls) st es st') :
    Admitted calls keys ctis st' :=
  hrun.invariant h fun _ _ _ hs hstep => hs.step hcalls hstep

/-- A token whose `cti` may be used once owes it to the guard. -/
theorem RelayCall.prohibitedCti_eq {c : RelayCall H σ₀ σ γ} {env : Ambient}
    {blockList : Option CatPorBlockList} {pre : PreCommit} {cti : Bytes}
    (h : (c.precommit env blockList).1 = .ok pre)
    (hmode : c.token.claims.cat.catreplay = some .prohibited)
    (hcti : c.token.claims.core.cti = some cti) : pre.prohibitedCti = some cti := by
  have howed : ∃ configured,
      MoqtValidator.replayObligation c.token.claims configured = .ok pre.replay := by
    cases c with
    | sync v guard token ctx =>
      cases guard with
      | none | some =>
        exact ⟨_, (MoqtValidator.obligations_ok (MoqtValidator.authorizePrecommit_ok h).2.2).1⟩
    | async v guard token ctx =>
      cases guard with
      | none | some =>
        exact ⟨_, (MoqtValidator.obligations_ok (MoqtValidator.authorizePrecommit_ok h).2.2).1⟩
  obtain ⟨configured, howed⟩ := howed
  cases MoqtValidator.replayObligation_some hmode howed with
  | inl hpermitted => exact absurd hpermitted (by simp)
  | inr hsome =>
    obtain ⟨cti', hcti', hob⟩ := hsome
    obtain rfl := Option.some.inj (hcti.symm.trans hcti')
    rcases hob with ⟨-, hob⟩ | ⟨hreuse, -⟩
    · rw [PreCommit.prohibitedCti, hob]
    · exact absurd hreuse (by simp)

/-! ## Rejection

A rejected call has never come to the guard, so its own steps have left the guard as it was.
-/

/-- No step but a commit to the guard changes it, and that one ends elsewhere. -/
theorem RelayStep.guard_eq {i : ι} (h : RelayStep calls st i st') :
    st'.stores.guard = st.stores.guard ∨ (∃ pre r, st'.phase i = .authorized pre r) ∨
      ∃ pre e, st'.phase i = .refused pre e := by
  cases h with
  | decide | reject | enter | bar => exact .inl rfl
  | authorize => exact .inr (.inl ⟨_, _, Function.update_self ..⟩)
  | refuse => exact .inr (.inr ⟨_, _, Function.update_self ..⟩)

/-- A finished call is left as it is. -/
theorem RelayStep.phase_eq {i j : ι} (h : RelayStep calls st j st')
    (hdone : (st.phase i).outcome.isSome) : st'.phase i = st.phase i := by
  cases h with
  | decide hph | reject hph | enter hph | bar hph | authorize hph | refuse hph =>
    refine Function.update_of_ne ?_ _ _
    rintro rfl
    dsimp only at hdone
    rw [hph] at hdone
    exact absurd hdone (by simp [CallPhase.outcome])

theorem RelayStep.run_phase_eq {i : ι} {es : List ι} (h : Run (RelayStep calls) st es st')
    (hdone : (st.phase i).outcome.isSome) : st'.phase i = st.phase i := by
  apply h.invariant (I := fun s => s.phase i = st.phase i) rfl
  intro s e t hs hstep
  rw [← hs] at hdone ⊢
  exact hstep.phase_eq hdone

/-- The steps of a call that was rejected in the end. -/
theorem RelayStep.guard_eq_of_rejected {i : ι} {es : List ι} {s : RelayState ι σ γ} {e : CatError}
    (h : RelayStep calls st i s) (hrest : Run (RelayStep calls) s es st')
    (hrejected : st'.phase i = .rejected e) : s.stores.guard = st.stores.guard := by
  rcases h.guard_eq with hguard | ⟨pre, r, hauth⟩ | ⟨pre, e', hrefused⟩
  · exact hguard
  · have hlast := run_phase_eq hrest (i := i) (by rw [hauth]; rfl)
    rw [hrejected, hauth] at hlast
    exact absurd hlast (by simp)
  · have hlast := run_phase_eq hrest (i := i) (by rw [hrefused]; rfl)
    rw [hrejected, hrefused] at hlast
    exact absurd hlast (by simp)

/-! ## Admission -/

/-- **At most once**: of the calls that share a key, and of the calls that share a `cti`
    which may be used once, one is authorized; and a rejected call has left the guard alone
    at each of its steps.

    The calls share nothing but the stores, and between the decision of a call and its commits any
    other call may come. What decides is that a store tests and enters in one step. The guard comes
    last, so a call that the store of identifiers turns away has spent nothing. -/
theorem admission (hcalls : ∀ i, (calls i).Behaves keys ctis) {stores : RelayStores σ γ}
    {es : List ι} (hrun : Run (RelayStep calls) ⟨stores, fun _ => .idle⟩ es st') :
    (∀ i j pre pre' r r' key iat iat', st'.phase i = .authorized pre r →
      st'.phase j = .authorized pre' r' → pre.jtiCommit = some (key, iat) →
      pre'.jtiCommit = some (key, iat') → i = j) ∧
    (∀ i j pre pre' r r' cti, st'.phase i = .authorized pre r →
      st'.phase j = .authorized pre' r' →
      (calls i).token.claims.cat.catreplay = some .prohibited →
      (calls j).token.claims.cat.catreplay = some .prohibited →
      (calls i).token.claims.core.cti = some cti → (calls j).token.claims.core.cti = some cti →
      i = j) ∧
    ∀ i e, st'.phase i = .rejected e → ∀ before after s₁ s₂, es = before ++ i :: after →
      Run (RelayStep calls) ⟨stores, fun _ => .idle⟩ before s₁ → RelayStep calls s₁ i s₂ →
      Run (RelayStep calls) s₂ after st' → s₂.stores.guard = s₁.stores.guard := by
  have hadmitted := (Admitted.start stores).run hcalls hrun
  refine ⟨?_, ?_, ?_⟩
  · intro i j pre pre' r r' key iat iat' hi hj hkey hkey'
    apply hadmitted.entered.unique i j key
    · simp [hi, CallPhase.enteredKey, hkey]
    · simp [hj, CallPhase.enteredKey, hkey']
  · intro i j pre pre' r r' cti hi hj hmode hmode' hcti hcti'
    obtain ⟨_, _, hpre⟩ := hadmitted.decided i pre (by rw [hi]; rfl)
    obtain ⟨_, _, hpre'⟩ := hadmitted.decided j pre' (by rw [hj]; rfl)
    apply hadmitted.spent.unique i j cti
    · simp [hi, CallPhase.spentCti, RelayCall.prohibitedCti_eq hpre hmode hcti]
    · simp [hj, CallPhase.spentCti, RelayCall.prohibitedCti_eq hpre' hmode' hcti']
  · intro i e hrejected before after s₁ s₂ _ _ hstep hrest
    exact hstep.guard_eq_of_rejected hrest hrejected

end

/-! ### Two calls with one token -/

def sampleJtiStore : InMemoryStrictJtiStore := .new (fun _ => 0) 300 16

def sampleMoqtValidator : MoqtValidator InMemoryStrictJtiStore where
  dpopValidator := some (.withJtiStore .new InMemoryStrictJtiStore.store)

/-- The same request to a synchronous and to an asynchronous relay, over the same stores. -/
def sampleCalls : Bool → RelayCall .reference InMemoryStrictJtiStore InMemoryStrictJtiStore
    (List Bytes)
  | true => .sync sampleMoqtValidator (some .ofList) restrictedToken setupContext
  | false => .async (.bestEffort sampleMoqtValidator InMemoryStrictJtiStore.store.toAsync)
      (some ⟨ReplayGuard.ofList.checkAndRecord, false⟩) restrictedToken setupContext

theorem sampleCalls_behaves (i : Bool) : (sampleCalls i).Behaves
    (fun s => { key | ∃ iat, s.Holds key iat }) (fun seen => { cti | cti ∈ seen }) := by
  cases i with
  | true =>
    refine ⟨fun d hd => ?_, fun g hg => ?_⟩
    · obtain rfl := Option.some.inj hd
      exact InMemoryStrictJtiStore.checksAndInserts
    · obtain rfl := Option.some.inj hg
      exact ReplayGuard.ofList_checksAndRecords
  | false =>
    refine ⟨InMemoryStrictJtiStore.checksAndInserts, fun g hg => ?_⟩
    obtain rfl := Option.some.inj hg
    exact ReplayGuard.ofList_checksAndRecords

def samplePreCommit : PreCommit := ⟨0, none, none, none, some (.prohibited [7])⟩

/-- The guard refuses the asynchronous call: the synchronous one has used the `cti`. -/
theorem admission_sampleCalls : ∃ st',
    Run (RelayStep sampleCalls) ⟨⟨sampleJtiStore, [], none⟩, fun _ => .idle⟩
      [true, false, false, true, true, false] st' ∧
    (∃ pre r, st'.phase true = .authorized pre r) ∧
    ¬∃ pre r, st'.phase false = .authorized pre r := by
  have hpre (i : Bool) : (sampleCalls i).precommit sampleAmbient none =
      (.ok samplePreCommit, none) := by
    cases i with
    | true => rfl
    | false => rfl
  have hrun : Run (RelayStep sampleCalls) ⟨⟨sampleJtiStore, [], none⟩, fun _ => .idle⟩
      [true, false, false, true, true, false] _ :=
    .cons (.decide rfl (hpre true)) <| .cons (.decide rfl (hpre false)) <|
    .cons (@RelayStep.enter _ _ _ _ _ _ _ _ _ _ _ _ _ sampleAmbient _ rfl rfl) <|
    .cons (@RelayStep.enter _ _ _ _ _ _ _ _ _ _ _ _ _ sampleAmbient _ rfl rfl) <|
    .cons (@RelayStep.authorize _ _ _ _ _ _ _ _ _ _ _ _ _ _ false rfl rfl) <|
    .cons (@RelayStep.refuse _ _ _ _ _ _ _ _ _ _ _ _ _ _ .replayAttackDetected rfl rfl) <|
    .nil _
  refine ⟨_, hrun, ⟨samplePreCommit, samplePreCommit.finalize false, rfl⟩, ?_⟩
  intro ⟨pre, r, h⟩
  have honce := (admission sampleCalls_behaves hrun).2.1 true false samplePreCommit pre _ r [7]
    rfl h rfl rfl rfl rfl
  exact absurd honce (by decide)

end Cat
