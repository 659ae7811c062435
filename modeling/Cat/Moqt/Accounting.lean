import Cat.Dpop.CommitKey
import Cat.Moqt.ProofBinding
import Cat.Moqt.Serial

/-!
# What the stores hold and what a refusal means

Where the guard is a set and the store of identifiers a bounded one, both hold what they held at
the start and what the calls have put there, at every state of every interleaving (`Accounted`).
So a reported reuse is one and no reuse goes unreported, and a call is taken for a replay only
over a call before it (`replays_exact`).

A call whose identifier and `cti` are its own, with room for a key of every call, is denied by
its own decision only: what the other calls do and when they do it makes no difference
(`denied_by_decision`).

`Admission` says what cannot happen, and a store that refuses everything satisfies it. Here is
the other half. The invariant is stronger for it: the contents of the stores are given as
equations between sets, where `Admitted` has inclusions. That a step keeps it is again one lemma
for a call that moves (`Accounted.move`), which is told what the new phase holds that the old
one did not.

The independence of a call comes in two forms. The theorem is about all runs: none of them takes
the call where it is rejected or refused by a store. `OwnKeys.can_enter` and
`OwnKeys.can_authorize` are about the next step: such a call has one, whatever the others have
done, and it leads on. With them the last theorem is a run of two calls, step by step, to where
both are authorized.
-/

set_option autoImplicit false

namespace Cat

open Cbor

/-- A guard that is a set: it tells whether it has recorded a `cti`, and records it. -/
structure RecordsSet {γ : Type} (ctis : γ → Set Bytes)
    (op : Bytes → γ → Except CatError Bool × γ) : Prop where
  seen : ∀ cti g, ∃ seen, (op cti g).1 = .ok seen ∧ (seen = true ↔ cti ∈ ctis g)
  recorded : ∀ cti g, ctis (op cti g).2 = insert cti (ctis g)

theorem ReplayGuard.ofList_recordsSet :
    RecordsSet (fun seen => { cti | cti ∈ seen }) ReplayGuard.ofList.checkAndRecord where
  seen cti g := ⟨g.contains cti, rfl, by simp⟩
  recorded cti g := by
    ext c
    show c ∈ cti :: g ↔ _
    simp

/-- The `cti` that a call has had recorded. A guard that is not there, or not trusted, has
    recorded nothing. -/
def CallPhase.recordedCti : CallPhase → Option Bytes
  | idle | decided _ | entered _ | rejected _ => none
  | authorized pre _ => pre.replay.map CatReplayObligation.cti
  | refused pre e =>
    if e = .replayAttackDetected then pre.replay.map CatReplayObligation.cti else none

section
variable {H : Host} {σ₀ σ γ : Type} {valid : σ → Prop} {keys : σ → Set String}
  {admits : String → Prop} {limit : ℕ∞} {ctis : γ → Set Bytes}

/-! ## One commit

What a call's two operations do to the contents of the stores, in each of their outcomes. A
guard that is missing, or not strict where it should be, is not asked, and the call's obligation
is then not recorded anywhere.
-/

namespace RelayCall

/-- The call's guard, if it has one, is a set. -/
def RecordsInto (ctis : γ → Set Bytes) : RelayCall H σ₀ σ γ → Prop
  | sync _ guard _ _ => ∀ G ∈ guard, RecordsSet ctis G.checkAndRecord
  | async _ guard _ _ => ∀ G ∈ guard, RecordsSet ctis G.checkAndRecord

/-- The call's store takes for a replay what it holds. -/
def TellsReplays (valid : σ → Prop) (keys : σ → Set String) : RelayCall H σ₀ σ γ → Prop
  | sync v _ _ _ => ∀ d ∈ v.dpopValidator, ∀ now key iat s, valid s →
      (d.jtiStore.checkAndInsert now key iat s).1 = .error .replayAttackDetected → key ∈ keys s
  | async v _ _ _ => ∀ now key iat s, valid s →
      (v.jtiStore.checkAndInsert now key iat s).1 = .error .replayAttackDetected → key ∈ keys s

/-- The call has a guard, and a strict one where it insists. -/
def guardUsable : RelayCall H σ₀ σ γ → Bool
  | sync _ guard _ _ => guard.isSome
  | async v guard _ _ => guard.any fun G => !(v.requireStrictReplayGuard && !G.isStrict)

variable {c : RelayCall H σ₀ σ γ}

/-- Nothing is owed, or there is no usable guard to pay, or the guard judges. -/
theorem commitReplay_cases (hc : c.RecordsInto ctis) (pre : PreCommit) (g : γ) :
    (pre.replay = none ∧ c.commitReplay pre g = (.ok false, g)) ∨
    (∃ e, c.guardUsable = false ∧ e ≠ .replayAttackDetected ∧
      c.commitReplay pre g = (.error e, g)) ∨
    ∃ ob seen g', pre.replay = some ob ∧
      c.commitReplay pre g = (MoqtValidator.judgeReuse ob (.ok seen), g') ∧
      (seen = true ↔ ob.cti ∈ ctis g) ∧ ctis g' = insert ob.cti (ctis g) := by
  cases hob : pre.replay with
  | none =>
    refine .inl ⟨rfl, ?_⟩
    cases c with
    | sync v guard token ctx => simp only [commitReplay, MoqtValidator.commitReplay, hob]
    | async v guard token ctx => simp only [commitReplay, AsyncMoqtValidator.commitReplay, hob]
  | some ob =>
    right
    have hjudged (op : Bytes → γ → Except CatError Bool × γ) (hop : RecordsSet ctis op) :
        ∃ ob' seen g', some ob = some ob' ∧
          (MoqtValidator.judgeReuse ob (op ob.cti g).1, (op ob.cti g).2) =
            (MoqtValidator.judgeReuse ob' (.ok seen), g') ∧
          (seen = true ↔ ob'.cti ∈ ctis g) ∧ ctis g' = insert ob'.cti (ctis g) := by
      obtain ⟨seen, hseen, hiff⟩ := hop.seen ob.cti g
      exact ⟨ob, seen, _, rfl, by rw [hseen], hiff, hop.recorded ob.cti g⟩
    cases c with
    | sync v guard token ctx =>
      cases guard with
      | none =>
        refine .inl ⟨.missingRelayContext "catreplay" "replay_guard", rfl, by simp, ?_⟩
        simp only [commitReplay, MoqtValidator.commitReplay, hob]
      | some G =>
        simp only [commitReplay, MoqtValidator.commitReplay, hob]
        exact .inr (hjudged _ (hc G rfl))
    | async v guard token ctx =>
      simp only [commitReplay, AsyncMoqtValidator.commitReplay, hob,
        AsyncMoqtValidator.resolveReplayGuard]
      cases guard with
      | none => exact .inl ⟨_, rfl, by simp, rfl⟩
      | some G =>
        dsimp only
        by_cases hstrict : (v.requireStrictReplayGuard && !G.isStrict) = true
        · rw [if_pos hstrict]
          exact .inl ⟨_, by simpa [guardUsable] using hstrict, by simp, rfl⟩
        · rw [if_neg hstrict]
          exact .inr (hjudged _ (hc G rfl))

/-- What the store calls a replay it holds. -/
theorem commitJti_replay (htells : c.TellsReplays valid keys) {s : σ} (hs : valid s)
    {env : Ambient} {pre : PreCommit}
    (h : (c.commitJti env pre s).1 = .error .replayAttackDetected) :
    ∃ k iat, pre.jtiCommit = some (k, iat) ∧ k ∈ keys s := by
  cases c with
  | sync v guard token ctx =>
    simp only [commitJti, MoqtValidator.commitJti] at h
    split at h
    · exact absurd h (by simp)
    · rename_i k iat hpre
      split at h
      · exact absurd h (by simp)
      · exact ⟨k, iat, hpre, htells _ ‹_› _ _ _ _ hs h⟩
  | async v guard token ctx =>
    simp only [commitJti, AsyncMoqtValidator.commitJti] at h
    split at h
    · exact absurd h (by simp)
    · rename_i k iat hpre
      exact ⟨k, iat, hpre, htells _ _ _ _ hs h⟩

end RelayCall

theorem MoqtValidator.judgeReuse_eq_ok {ob : CatReplayObligation} {seen reused : Bool}
    (h : judgeReuse ob (.ok seen) = .ok reused) :
    reused = true ↔ seen = true ∧ ∃ cti, ob = .reuseDetection cti := by
  cases ob with
  | prohibited cti =>
    cases seen with
    | false =>
      obtain rfl : false = reused := Except.ok.inj h
      simp
    | true => exact absurd h (by simp [judgeReuse, Except.bind])
  | reuseDetection cti =>
    obtain rfl : seen = reused := Except.ok.inj h
    simp

theorem MoqtValidator.judgeReuse_eq_error {ob : CatReplayObligation} {seen : Bool} {e : CatError}
    (h : judgeReuse ob (.ok seen) = .error e) :
    e = .replayAttackDetected ∧ seen = true ∧ ∃ cti, ob = .prohibited cti := by
  cases ob with
  | prohibited cti =>
    cases seen with
    | false => exact absurd h (by simp [judgeReuse, Except.bind])
    | true => exact ⟨(Except.error.inj h).symm, rfl, cti, rfl⟩
  | reuseDetection cti => exact absurd h (by simp [judgeReuse])

end

/-! ## The accounts

An equation for each store: its contents are those of the start and those that some call has put
there, by its phase. A step changes one phase and at most one store, and the equation moves
along.
-/

section
variable {ι : Type} [DecidableEq ι] {H : Host} {σ₀ σ γ : Type}

/-- The stores hold what they held at the start and what the calls have put there. -/
structure Accounted (calls : ι → RelayCall H σ₀ σ γ) (valid : σ → Prop) (keys : σ → Set String)
    (ctis : γ → Set Bytes) (start : RelayStores σ γ) (st : RelayState ι σ γ) : Prop where
  decided : ∀ i pre, (st.phase i).pre? = some pre →
    ∃ env list, ((calls i).precommit env list).1 = .ok pre
  valid_now : valid st.stores.jti
  keys_iff : ∀ k, k ∈ keys st.stores.jti ↔
    k ∈ keys start.jti ∨ ∃ i, (st.phase i).enteredKey = some k
  ctis_iff : ∀ c, c ∈ ctis st.stores.guard ↔
    c ∈ ctis start.guard ∨ ∃ i, (st.phase i).recordedCti = some c

variable {calls : ι → RelayCall H σ₀ σ γ} {valid : σ → Prop} {keys : σ → Set String}
  {admits : String → Prop} {limit : ℕ∞} {ctis : γ → Set Bytes} {start : RelayStores σ γ}
  {st st' : RelayState ι σ γ}

omit [DecidableEq ι] in
theorem Accounted.init (hvalid : valid start.jti) :
    Accounted calls valid keys ctis start ⟨start, fun _ => .idle⟩ where
  decided i pre h := absurd h (by simp [CallPhase.pre?])
  valid_now := hvalid
  keys_iff k := by simp [CallPhase.enteredKey]
  ctis_iff c := by simp [CallPhase.recordedCti]

/-- A party gets something and gives nothing back. -/
theorem exists_update_some {α κ : Type} {f : α → Option κ} {ph : ι → α} {i : ι} {p : α} {k : κ}
    (hkept : f (ph i) = some k → f p = some k) :
    (∃ j, f (Function.update ph i p j) = some k) ↔ (∃ j, f (ph j) = some k) ∨ f p = some k := by
  rw [Function.exists_update_iff ph fun _ q => f q = some k]
  constructor
  · rintro (hp | ⟨j, -, hj⟩)
    · exact .inr hp
    · exact .inl ⟨j, hj⟩
  · rintro (⟨j, hj⟩ | hp)
    · by_cases hji : j = i
      · exact .inl (hkept (hji ▸ hj))
      · exact .inr ⟨j, hji, hj⟩
    · exact .inl hp

/-- One call moves on and puts into the stores what its new phase says. -/
theorem Accounted.move {s s' : σ} {g g' : γ} {list list' : Option CatPorBlockList}
    {ph : ι → CallPhase} {i : ι} {p₀ p : CallPhase}
    (h : Accounted calls valid keys ctis start ⟨⟨s, g, list⟩, ph⟩) (hph : ph i = p₀)
    (hcti : p₀.recordedCti = none) (hkey : p₀.enteredKey = none ∨ p₀.enteredKey = p.enteredKey)
    (hpre : ∀ pre, p.pre? = some pre → ∃ env list, ((calls i).precommit env list).1 = .ok pre)
    (hvalid : valid s') (hkeys : ∀ k, k ∈ keys s' ↔ k ∈ keys s ∨ p.enteredKey = some k)
    (hctis : ∀ c, c ∈ ctis g' ↔ c ∈ ctis g ∨ p.recordedCti = some c) :
    Accounted calls valid keys ctis start ⟨⟨s', g', list'⟩, Function.update ph i p⟩ where
  decided := (Function.forall_update_iff ph (p := fun j q => ∀ pre, q.pre? = some pre →
    ∃ env list, ((calls j).precommit env list).1 = .ok pre)).mpr ⟨hpre, fun j _ => h.decided j⟩
  valid_now := hvalid
  keys_iff k := by
    have hkept : (ph i).enteredKey = some k → p.enteredKey = some k := by
      intro hi
      rw [hph] at hi
      cases hkey with
      | inl hnone => exact absurd (hnone.symm.trans hi) (by simp)
      | inr heq => exact heq ▸ hi
    dsimp only
    rw [hkeys k, h.keys_iff k, exists_update_some hkept, or_assoc]
  ctis_iff c := by
    have hkept : (ph i).recordedCti = some c → p.recordedCti = some c := by
      rw [hph, hcti]
      simp
    dsimp only
    rw [hctis c, h.ctis_iff c, exists_update_some hkept, or_assoc]

omit [DecidableEq ι] in
/-- What a call has entered is there when it comes to the guard. -/
theorem Accounted.entered_mem {s : σ} {g : γ} {list : Option CatPorBlockList}
    {ph : ι → CallPhase} {i : ι} {p₀ p : CallPhase}
    (h : Accounted calls valid keys ctis start ⟨⟨s, g, list⟩, ph⟩) (hph : ph i = p₀)
    (hsame : p.enteredKey = p₀.enteredKey) (k : String) :
    k ∈ keys s ↔ k ∈ keys s ∨ p.enteredKey = some k := by
  constructor
  · exact .inl
  · rintro (hk | hk)
    · exact hk
    · exact (h.keys_iff k).mpr (.inr ⟨i, by dsimp only; rw [hph, ← hsame]; exact hk⟩)

/-- **Every step keeps the accounts.** -/
theorem Accounted.step (hcalls : ∀ i, (calls i).EntersSet valid keys admits limit)
    (hguards : ∀ i, (calls i).RecordsInto ctis) {i : ι}
    (h : Accounted calls valid keys ctis start st) (hstep : RelayStep calls st i st') :
    Accounted calls valid keys ctis start st' := by
  cases hstep with
  | decide hph hdecide =>
    refine h.move hph rfl (.inl rfl) ?_ h.valid_now ?_ ?_
    · intro pre hpre
      obtain rfl := Option.some.inj hpre
      exact ⟨_, _, congrArg Prod.fst hdecide⟩
    · simp [CallPhase.enteredKey]
    · simp [CallPhase.recordedCti]
  | reject hph hdecide =>
    refine h.move hph rfl (.inl rfl) ?_ h.valid_now ?_ ?_
    · simp [CallPhase.pre?]
    · simp [CallPhase.enteredKey]
    · simp [CallPhase.recordedCti]
  | @enter s s' g list ph _ env pre hph hcommit =>
    have hinto := RelayCall.commitJti_entersInto (hcalls i) h.valid_now env pre
    dsimp only at hinto
    rw [hcommit] at hinto
    refine h.move hph rfl (.inl rfl) ?_ hinto.valid (hinto.entered rfl) ?_
    · intro pre' hpre
      obtain rfl := Option.some.inj hpre
      exact h.decided i pre (by dsimp only; rw [hph]; rfl)
    · simp [CallPhase.recordedCti]
  | @bar s s' g list ph _ env pre e hph hcommit =>
    have hinto := RelayCall.commitJti_entersInto (hcalls i) h.valid_now env pre
    dsimp only at hinto
    rw [hcommit] at hinto
    have hsame : keys s' = keys s := hinto.barred e rfl
    refine h.move hph rfl (.inl rfl) ?_ hinto.valid ?_ ?_
    · simp [CallPhase.pre?]
    · intro k
      rw [hsame]
      simp [CallPhase.enteredKey]
    · simp [CallPhase.recordedCti]
  | @authorize s g g' list ph _ pre reused hph hcommit =>
    refine h.move hph rfl (.inr rfl) ?_ h.valid_now (h.entered_mem hph rfl) ?_
    · intro pre' hpre
      obtain rfl := Option.some.inj hpre
      exact h.decided i pre (by dsimp only; rw [hph]; rfl)
    · intro c
      rcases RelayCall.commitReplay_cases (hguards i) pre g with
        ⟨hnone, heq⟩ | ⟨e, -, -, heq⟩ | ⟨ob, seen, g₁, hob, heq, -, hctis⟩
      · obtain rfl := (Prod.mk.inj (hcommit.symm.trans heq)).2
        simp [CallPhase.recordedCti, hnone]
      · exact absurd (Prod.mk.inj (hcommit.symm.trans heq)).1 (by simp)
      · obtain rfl := (Prod.mk.inj (hcommit.symm.trans heq)).2
        rw [hctis]
        simp [CallPhase.recordedCti, hob, or_comm, eq_comm]
  | @refuse s g g' list ph _ pre e hph hcommit =>
    refine h.move hph rfl (.inr rfl) ?_ h.valid_now (h.entered_mem hph rfl) ?_
    · intro pre' hpre
      obtain rfl := Option.some.inj hpre
      exact h.decided i pre (by dsimp only; rw [hph]; rfl)
    · intro c
      rcases RelayCall.commitReplay_cases (hguards i) pre g with
        ⟨hnone, heq⟩ | ⟨e', -, hne, heq⟩ | ⟨ob, seen, g₁, hob, heq, -, hctis⟩
      · exact absurd (Prod.mk.inj (hcommit.symm.trans heq)).1 (by simp)
      · obtain ⟨he, rfl⟩ := Prod.mk.inj (hcommit.symm.trans heq)
        obtain rfl := Except.error.inj he
        simp [CallPhase.recordedCti, hne]
      · obtain ⟨he, rfl⟩ := Prod.mk.inj (hcommit.symm.trans heq)
        -- The guard records the identifier before it refuses, so a refusal spends it as well.
        obtain ⟨rfl, -⟩ := MoqtValidator.judgeReuse_eq_error he.symm
        rw [hctis]
        simp [CallPhase.recordedCti, hob, or_comm, eq_comm]

theorem Accounted.run (hcalls : ∀ i, (calls i).EntersSet valid keys admits limit)
    (hguards : ∀ i, (calls i).RecordsInto ctis) {es : List ι}
    (h : Accounted calls valid keys ctis start st) (hrun : Run (RelayStep calls) st es st') :
    Accounted calls valid keys ctis start st' :=
  hrun.invariant h fun _ _ _ hs hstep => hs.step hcalls hguards hstep

/-! ## Replays

With the equations a refusal can be read as a statement about other calls: the key was there, so
it was there at the start or a call has entered it.
-/

/-- The `cti` was in the guard at the start, or another call has had it recorded. -/
def UsedBefore (ctis : γ → Set Bytes) (start : RelayStores σ γ) (st : RelayState ι σ γ) (i : ι)
    (cti : Bytes) : Prop :=
  cti ∈ ctis start.guard ∨ ∃ j, j ≠ i ∧ (st.phase j).recordedCti = some cti

/-- The key was in the store at the start, or another call has entered it. -/
def EnteredBefore (keys : σ → Set String) (start : RelayStores σ γ) (st : RelayState ι σ γ)
    (i : ι) (k : String) : Prop :=
  k ∈ keys start.jti ∨ ∃ j, j ≠ i ∧ (st.phase j).enteredKey = some k

omit [DecidableEq ι] in
theorem Accounted.usedBefore_iff (h : Accounted calls valid keys ctis start st) {i : ι}
    {pre : PreCommit} (hi : st.phase i = .entered pre) (cti : Bytes) :
    UsedBefore ctis start st i cti ↔ cti ∈ ctis st.stores.guard := by
  rw [h.ctis_iff cti, UsedBefore]
  apply or_congr_right
  constructor
  · rintro ⟨j, -, hj⟩
    exact ⟨j, hj⟩
  · rintro ⟨j, hj⟩
    refine ⟨j, ?_, hj⟩
    rintro rfl
    rw [hi] at hj
    exact absurd hj (by simp [CallPhase.recordedCti])

omit [DecidableEq ι] in
theorem Accounted.enteredBefore_iff (h : Accounted calls valid keys ctis start st) {i : ι}
    {pre : PreCommit} (hi : st.phase i = .decided pre) (k : String) :
    EnteredBefore keys start st i k ↔ k ∈ keys st.stores.jti := by
  rw [h.keys_iff k, EnteredBefore]
  apply or_congr_right
  constructor
  · rintro ⟨j, -, hj⟩
    exact ⟨j, hj⟩
  · rintro ⟨j, hj⟩
    refine ⟨j, ?_, hj⟩
    rintro rfl
    rw [hi] at hj
    exact absurd hj (by simp [CallPhase.enteredKey])

/-- A call that stands before the guard is authorized or refused by what the guard says. -/
theorem RelayStep.of_entered {i : ι} {pre : PreCommit} (hstep : RelayStep calls st i st')
    (hi : st.phase i = .entered pre) :
    ∃ r, ((calls i).commitReplay pre st.stores.guard).1 = r ∧
      st'.phase i = match r with
        | .ok reused => .authorized pre (pre.finalize reused)
        | .error e => .refused pre e := by
  cases hstep with
  | decide hph | reject hph => exact absurd (hph.symm.trans hi) (by simp)
  | enter hph | bar hph => exact absurd (hph.symm.trans hi) (by simp)
  | authorize hph hcommit =>
    obtain rfl := CallPhase.entered.inj (hph.symm.trans hi)
    exact ⟨_, congrArg Prod.fst hcommit, Function.update_self ..⟩
  | refuse hph hcommit =>
    obtain rfl := CallPhase.entered.inj (hph.symm.trans hi)
    exact ⟨_, congrArg Prod.fst hcommit, Function.update_self ..⟩

/-- A call that stands before the store goes on or is rejected by what the store says. -/
theorem RelayStep.of_decided {i : ι} {pre : PreCommit} (hstep : RelayStep calls st i st')
    (hi : st.phase i = .decided pre) :
    ∃ env r, ((calls i).commitJti env pre st.stores.jti).1 = r ∧
      st'.phase i = match r with
        | .ok () => .entered pre
        | .error e => .rejected e := by
  cases hstep with
  | decide hph | reject hph => exact absurd (hph.symm.trans hi) (by simp)
  | authorize hph | refuse hph => exact absurd (hph.symm.trans hi) (by simp)
  | enter hph hcommit =>
    obtain rfl := CallPhase.decided.inj (hph.symm.trans hi)
    exact ⟨_, _, congrArg Prod.fst hcommit, Function.update_self ..⟩
  | bar hph hcommit =>
    obtain rfl := CallPhase.decided.inj (hph.symm.trans hi)
    exact ⟨_, _, congrArg Prod.fst hcommit, Function.update_self ..⟩

theorem RelayStep.entered_of_authorized {i : ι} {pre : PreCommit} {r : AuthorizedRequest}
    (hstep : RelayStep calls st i st') (hi : st'.phase i = .authorized pre r) :
    st.phase i = .entered pre := by
  cases hstep with
  | decide | reject | enter | bar | refuse =>
    exact absurd ((Function.update_self ..).symm.trans hi) (by simp)
  | authorize hph =>
    obtain ⟨rfl, -⟩ := CallPhase.authorized.inj ((Function.update_self ..).symm.trans hi)
    exact hph

/-- **Replays are told exactly**, at each step of each interleaving. A reuse is reported if
    and only if the token asks for reports and the `cti` was recorded before; a call with a
    usable guard is refused as a replay if and only if its `cti` may be used once and was
    recorded before; and the store takes a proof for a replay only if its key was entered
    before.

    What a call is told is thus a fact about the run so far, namely what the calls before it, in
    this interleaving, have put into the stores. -/
theorem replays_exact (hcalls : ∀ i, (calls i).EntersSet valid keys admits limit)
    (hguards : ∀ i, (calls i).RecordsInto ctis) (htells : ∀ i, (calls i).TellsReplays valid keys)
    (hvalid : valid start.jti) {es : List ι} {i : ι}
    (hrun : Run (RelayStep calls) ⟨start, fun _ => .idle⟩ es st)
    (hstep : RelayStep calls st i st') :
    (∀ pre r, st'.phase i = .authorized pre r → (r.reuseDetected = true ↔
      ∃ cti, pre.replay = some (.reuseDetection cti) ∧ UsedBefore ctis start st i cti)) ∧
    (∀ pre, st.phase i = .entered pre → (calls i).guardUsable = true →
      (st'.phase i = .refused pre .replayAttackDetected ↔
        ∃ cti, pre.replay = some (.prohibited cti) ∧ UsedBefore ctis start st i cti)) ∧
    ∀ pre, st.phase i = .decided pre → st'.phase i = .rejected .replayAttackDetected →
      ∃ k iat, pre.jtiCommit = some (k, iat) ∧ EnteredBefore keys start st i k := by
  have h : Accounted calls valid keys ctis start st :=
    (Accounted.init hvalid).run hcalls hguards hrun
  refine ⟨?_, ?_, ?_⟩
  · -- The flag of an authorized call: the guard reports what it had seen.
    intro pre r hr
    have hi := hstep.entered_of_authorized hr
    obtain ⟨out, hout, hphase⟩ := hstep.of_entered hi
    cases out with
    | error e => exact absurd (hphase.symm.trans hr) (by simp)
    | ok reused =>
      obtain ⟨-, rfl⟩ := CallPhase.authorized.inj (hphase.symm.trans hr)
      show reused = true ↔ _
      rcases RelayCall.commitReplay_cases (hguards i) pre st.stores.guard with
        ⟨hnone, heq⟩ | ⟨e, -, -, heq⟩ | ⟨ob, seen, g₁, hob, heq, hseen, -⟩
      · rw [heq] at hout
        obtain rfl : false = reused := Except.ok.inj hout
        simp [hnone]
      · rw [heq] at hout
        exact absurd hout (by simp)
      · rw [heq] at hout
        rw [MoqtValidator.judgeReuse_eq_ok hout, hseen, hob]
        constructor
        · rintro ⟨hmem, cti, rfl⟩
          exact ⟨cti, rfl, (h.usedBefore_iff hi cti).mpr hmem⟩
        · rintro ⟨cti, hcti, hused⟩
          obtain rfl := Option.some.inj hcti
          exact ⟨(h.usedBefore_iff hi cti).mp hused, cti, rfl⟩
  · -- A refused call: only a prohibited identifier seen before leads there.
    intro pre hi husable
    obtain ⟨out, hout, hphase⟩ := hstep.of_entered hi
    rw [hphase]
    rcases RelayCall.commitReplay_cases (hguards i) pre st.stores.guard with
      ⟨hnone, heq⟩ | ⟨e, hunusable, -, -⟩ | ⟨ob, seen, g₁, hob, heq, hseen, -⟩
    · rw [heq] at hout
      obtain rfl := hout
      simp [hnone]
    · exact absurd (hunusable.symm.trans husable) (by simp)
    · rw [heq] at hout
      dsimp only at hout
      cases out with
      | ok reused =>
        have hnot : ¬(seen = true ∧ ∃ cti, ob = .prohibited cti) := by
          rintro ⟨rfl, cti, rfl⟩
          exact absurd hout (by simp [MoqtValidator.judgeReuse, Except.bind])
        simp only [reduceCtorEq, false_iff]
        rintro ⟨cti, hcti, hused⟩
        obtain rfl := Option.some.inj (hob.symm.trans hcti)
        exact hnot ⟨hseen.mpr ((h.usedBefore_iff hi cti).mp hused), cti, rfl⟩
      | error e =>
        obtain ⟨rfl, hs, cti, rfl⟩ := MoqtValidator.judgeReuse_eq_error hout
        simp only [true_iff]
        exact ⟨cti, hob, (h.usedBefore_iff hi cti).mpr (hseen.mp hs)⟩
  · -- A rejected call: the proof store held the key already.
    intro pre hi hrejected
    obtain ⟨env, out, hout, hphase⟩ := hstep.of_decided hi
    cases out with
    | ok => exact absurd (hphase.symm.trans hrejected) (by simp)
    | error e =>
      obtain rfl := CallPhase.rejected.inj (hphase.symm.trans hrejected)
      obtain ⟨k, iat, hk, hmem⟩ := RelayCall.commitJti_replay (htells i) h.valid_now hout
      exact ⟨k, iat, hk, (h.enteredBefore_iff hi k).mpr hmem⟩

/-! ## Independence

A call that shares its keys with nobody is refused by neither store. Room is the one thing that
calls can take from each other all the same, and it is enough if there is some for a key of
each.
-/

/-- What the call may come to owe is nobody else's and was not there at the start. -/
structure OwnKeys (calls : ι → RelayCall H σ₀ σ γ) (keys : σ → Set String)
    (admits : String → Prop) (ctis : γ → Set Bytes) (start : RelayStores σ γ) (i : ι) : Prop where
  key : ∀ env list pre k iat, ((calls i).precommit env list).1 = .ok pre →
    pre.jtiCommit = some (k, iat) → admits k ∧ k ∉ keys start.jti ∧
      ∀ j ≠ i, ∀ env' list' pre', ((calls j).precommit env' list').1 = .ok pre' →
        pre'.jtiCommit.map Prod.fst ≠ some k
  cti : ∀ env list pre cti, ((calls i).precommit env list).1 = .ok pre →
    pre.replay = some (.prohibited cti) → cti ∉ ctis start.guard ∧
      ∀ j ≠ i, ∀ env' list' pre', ((calls j).precommit env' list').1 = .ok pre' →
        pre'.replay.map CatReplayObligation.cti ≠ some cti

/-- A guard that the call insists on is strict. -/
def RelayCall.TrustsGuard : RelayCall H σ₀ σ γ → Prop
  | sync _ _ _ _ => True
  | async v guard _ _ => ∀ G ∈ guard, v.requireStrictReplayGuard = true → G.isStrict = true

/-- A call that owes the store something has one. -/
theorem RelayCall.configured_of_precommit {c : RelayCall H σ₀ σ γ} {env : Ambient}
    {list : Option CatPorBlockList} {pre : PreCommit} (h : (c.precommit env list).1 = .ok pre)
    (hcommit : pre.jtiCommit.isSome) : c.configured = true := by
  cases c with
  | async v guard token ctx => rfl
  | sync v guard token ctx =>
    cases guard with
    | none => exact MoqtValidator.jtiCommit_configured h hcommit
    | some G => exact MoqtValidator.jtiCommit_configured h hcommit

theorem MoqtValidator.guard_of_replayObligation {token : CatToken} {configured : Bool}
    {ob : CatReplayObligation} (h : replayObligation token configured = .ok (some ob)) :
    configured = true := by
  cases configured with
  | true => rfl
  | false =>
    unfold replayObligation requireCti at h
    split at h
    · exact absurd h (by simp [Except.map])
    · exact absurd h (by simp [Except.map])
    · exact absurd h (by simp)
    · exact absurd h (by simp)

/-- A call that owes the guard something has one that it may use. -/
theorem RelayCall.guardUsable_of_precommit {c : RelayCall H σ₀ σ γ} (htrust : c.TrustsGuard)
    {env : Ambient} {list : Option CatPorBlockList} {pre : PreCommit}
    (h : (c.precommit env list).1 = .ok pre) {ob : CatReplayObligation}
    (hob : pre.replay = some ob) : c.guardUsable = true := by
  have hguard {τ : Type} {v : MoqtValidator τ} {token : ValidatedToken}
      {ctx : RelayRequestContext H} {configured : Bool} {list : Option CatPorBlockList}
      (h : (v.authorizePrecommit env token ctx configured list).1 = .ok pre) :
      configured = true := by
    have howed := (MoqtValidator.obligations_ok (MoqtValidator.authorizePrecommit_ok h).2.2).1
    rw [hob] at howed
    exact MoqtValidator.guard_of_replayObligation howed
  cases c with
  | sync v guard token ctx =>
    cases guard with
    | none => exact absurd (hguard h) (by simp)
    | some G => rfl
  | async v guard token ctx =>
    cases guard with
    | none => exact absurd (hguard h) (by simp)
    | some G =>
      have hstrict := htrust G rfl
      simp only [guardUsable, Option.any_some, Bool.not_eq_true', Bool.and_eq_false_iff,
        Bool.not_eq_false']
      cases hreq : v.requireStrictReplayGuard with
      | false => exact .inl rfl
      | true => exact .inr (hstrict hreq)

theorem CallPhase.pre_of_enteredKey {p : CallPhase} {k : String} (h : p.enteredKey = some k) :
    ∃ pre, p.pre? = some pre ∧ pre.jtiCommit.map Prod.fst = some k := by
  cases p with
  | idle | decided | rejected => exact absurd h (by simp [enteredKey])
  | entered pre | refused pre | authorized pre => exact ⟨pre, rfl, h⟩

theorem CallPhase.pre_of_recordedCti {p : CallPhase} {c : Bytes} (h : p.recordedCti = some c) :
    ∃ pre, p.pre? = some pre ∧ pre.replay.map CatReplayObligation.cti = some c := by
  cases p with
  | idle | decided | rejected | entered => exact absurd h (by simp [recordedCti])
  | authorized pre => exact ⟨pre, rfl, h⟩
  | refused pre e =>
    by_cases he : e = .replayAttackDetected
    · rw [recordedCti, if_pos he] at h
      exact ⟨pre, rfl, h⟩
    · rw [recordedCti, if_neg he] at h
      exact absurd h (by simp)

omit [DecidableEq ι] in
/-- A key that is not there yet finds room among at most one key of each call. -/
theorem Accounted.room [DecidableEq ι] [Fintype ι]
    (h : Accounted calls valid keys ctis start st) {i : ι} {k : String}
    (hi : (st.phase i).enteredKey = none) (hfresh : k ∉ keys st.stores.jti)
    (hroom : (keys start.jti).encard + Fintype.card ι ≤ limit)
    (hfinite : (keys st.stores.jti).Finite) : (keys st.stores.jti).encard < limit := by
  let held (j : ι) : String := ((st.phase j).enteredKey).getD k
  have hsub : insert k (keys st.stores.jti) ⊆ keys start.jti ∪ Set.range held := by
    rintro k' (rfl | hk')
    · exact .inr ⟨i, by simp [held, hi]⟩
    · rcases (h.keys_iff k').mp hk' with hstart | ⟨j, hj⟩
      · exact .inl hstart
      · exact .inr ⟨j, by simp [held, hj]⟩
  have hrange : (Set.range held).encard ≤ Fintype.card ι := by
    rw [← Set.image_univ]
    refine (Set.encard_image_le held Set.univ).trans ?_
    rw [Set.encard_univ, ENat.card_eq_coe_fintype_card]
  have hle : (insert k (keys st.stores.jti)).encard ≤ limit :=
    calc (insert k (keys st.stores.jti)).encard
        ≤ (keys start.jti ∪ Set.range held).encard := Set.encard_le_encard hsub
      _ ≤ (keys start.jti).encard + (Set.range held).encard := Set.encard_union_le _ _
      _ ≤ (keys start.jti).encard + Fintype.card ι := by gcongr
      _ ≤ limit := hroom
  rw [Set.encard_insert_of_notMem hfresh] at hle
  exact (ENat.add_one_le_iff (Set.encard_ne_top_iff.mpr hfinite)).mp hle

/-- Where a call stands that was denied, if at all, by its own decision. -/
def RelayCall.StandsWell (c : RelayCall H σ₀ σ γ) : CallPhase → Prop
  | .idle | .decided _ | .entered _ | .authorized _ _ => True
  | .rejected e => ∃ env list, (c.precommit env list).1 = .error e
  | .refused _ _ => False

theorem RelayStep.of_idle {i : ι} (hstep : RelayStep calls st i st') (hi : st.phase i = .idle) :
    (calls i).StandsWell (st'.phase i) := by
  cases hstep with
  | decide => simp [RelayCall.StandsWell]
  | reject hph hdecide =>
    dsimp only
    rw [Function.update_self]
    exact ⟨_, _, congrArg Prod.fst hdecide⟩
  | enter hph | bar hph | authorize hph | refuse hph =>
    exact absurd (hph.symm.trans hi) (by simp)

variable {i : ι}

/-- The store has a place for a key that is the call's own. -/
theorem OwnKeys.enters [Fintype ι] (hown : OwnKeys calls keys admits ctis start i)
    (h : Accounted calls valid keys ctis start st)
    (hcall : (calls i).EntersSet valid keys admits limit)
    (hroom : (keys start.jti).encard + Fintype.card ι ≤ limit)
    {pre : PreCommit} (hi : st.phase i = .decided pre) :
    (calls i).Enters admits limit pre (keys st.stores.jti) := by
  intro k iat hk
  obtain ⟨env, list, hdecides⟩ := h.decided i pre (by rw [hi]; rfl)
  have hconf := RelayCall.configured_of_precommit hdecides (by rw [hk]; rfl)
  obtain ⟨hadmits, hnew, halone⟩ := hown.key env list pre k iat hdecides hk
  have hfresh : k ∉ keys st.stores.jti := by
    rw [h.keys_iff k]
    rintro (hstart | ⟨j, hj⟩)
    · exact hnew hstart
    · obtain ⟨pre', hpre', hk'⟩ := CallPhase.pre_of_enteredKey hj
      obtain ⟨env', list', hdecides'⟩ := h.decided j pre' hpre'
      refine halone j ?_ env' list' pre' hdecides' hk'
      rintro rfl
      rw [hi] at hj
      exact absurd hj (by simp [CallPhase.enteredKey])
  exact ⟨hconf, hadmits, hfresh, h.room (by rw [hi]; rfl) hfresh hroom
    (RelayCall.EntersSet.finite hcall hconf h.valid_now)⟩

omit [DecidableEq ι] in
/-- The guard has nothing against a `cti` that is the call's own. -/
theorem OwnKeys.passes (hown : OwnKeys calls keys admits ctis start i)
    (h : Accounted calls valid keys ctis start st) (hguard : (calls i).RecordsInto ctis)
    (htrust : (calls i).TrustsGuard) {pre : PreCommit} (hi : st.phase i = .entered pre)
    {e : CatError} : ((calls i).commitReplay pre st.stores.guard).1 ≠ .error e := by
  obtain ⟨env, list, hdecides⟩ := h.decided i pre (by rw [hi]; rfl)
  intro herror
  rcases RelayCall.commitReplay_cases hguard pre st.stores.guard with
    ⟨-, heq⟩ | ⟨e', hunusable, -, heq⟩ | ⟨ob, seen, g', hob, heq, hseen, -⟩
  · rw [heq] at herror
    exact absurd herror (by simp)
  · -- without a usable guard nothing is owed
    cases hob : pre.replay with
    | none =>
      have hfree : ((calls i).commitReplay pre st.stores.guard).1 = .ok false := by
        cases calls i with
        | sync v guard token ctx =>
          simp only [RelayCall.commitReplay, MoqtValidator.commitReplay, hob]
        | async v guard token ctx =>
          simp only [RelayCall.commitReplay, AsyncMoqtValidator.commitReplay, hob]
      exact absurd (hfree.symm.trans herror) (by simp)
    | some ob =>
      exact absurd (hunusable.symm.trans (RelayCall.guardUsable_of_precommit htrust hdecides hob))
        (by simp)
  · rw [heq] at herror
    obtain ⟨-, hs, cti, rfl⟩ := MoqtValidator.judgeReuse_eq_error herror
    obtain ⟨hnew, halone⟩ := hown.cti env list pre cti hdecides hob
    rcases (h.usedBefore_iff hi cti).mpr (hseen.mp hs) with hstart | ⟨j, hji, hj⟩
    · exact hnew hstart
    · obtain ⟨pre', hpre', hcti'⟩ := CallPhase.pre_of_recordedCti hj
      obtain ⟨env', list', hdecides'⟩ := h.decided j pre' hpre'
      exact halone j hji env' list' pre' hdecides' hcti'

/-- A call with a key of its own is not held up: whoever went before it, its next step is to
    enter the key, -/
theorem OwnKeys.can_enter [Fintype ι] (hown : OwnKeys calls keys admits ctis start i)
    (h : Accounted calls valid keys ctis start st)
    (hcall : (calls i).EntersSet valid keys admits limit)
    (hroom : (keys start.jti).encard + Fintype.card ι ≤ limit)
    {pre : PreCommit} (hi : st.phase i = .decided pre) (env : Ambient) :
    ∃ st', RelayStep calls st i st' ∧ st'.phase = Function.update st.phase i (.entered pre) := by
  have hok := (RelayCall.commitJti_entersInto hcall h.valid_now env pre).ok_iff.mpr
    (hown.enters h hcall hroom hi)
  rcases hout : (calls i).commitJti env pre st.stores.jti with ⟨r, s'⟩
  rw [hout] at hok
  obtain rfl : r = .ok () := hok
  exact ⟨_, .enter hi hout, rfl⟩

/-- and the one after it to be authorized. -/
theorem OwnKeys.can_authorize (hown : OwnKeys calls keys admits ctis start i)
    (h : Accounted calls valid keys ctis start st) (hguard : (calls i).RecordsInto ctis)
    (htrust : (calls i).TrustsGuard) {pre : PreCommit} (hi : st.phase i = .entered pre) :
    ∃ st' r, RelayStep calls st i st' ∧
      st'.phase = Function.update st.phase i (.authorized pre r) := by
  rcases hout : (calls i).commitReplay pre st.stores.guard with ⟨e | reused, g'⟩
  · exact absurd (congrArg Prod.fst hout) (hown.passes h hguard htrust hi)
  · exact ⟨_, _, .authorize hi hout, rfl⟩

end

/-! ### Calls with one token, and calls with two -/

theorem sampleCalls_recordsInto (i : Bool) :
    (sampleCalls i).RecordsInto fun seen => { cti | cti ∈ seen } := by
  cases i with
  | true | false =>
    intro G hG
    obtain rfl := Option.some.inj hG
    exact ReplayGuard.ofList_recordsSet

theorem sampleCalls_tellsReplays (i : Bool) : (sampleCalls i).TellsReplays
    (fun s => s.Sound ∧ s.maxEntries = some 16) (fun s => (s.retainedKeys : Set String)) := by
  cases i with
  | true =>
    intro d hd now key iat s hs h
    obtain rfl := Option.some.inj hd
    exact InMemoryStrictJtiStore.checkAndInsert_replay hs.1 h
  | false => exact fun now key iat s hs h => InMemoryStrictJtiStore.checkAndInsert_replay hs.1 h

/-- Two calls with one `cti`, where the synchronous one has come to the guard first. -/
theorem replays_exact_sampleCalls : ∃ st st',
    Run (RelayStep sampleCalls) ⟨⟨sampleJtiStore, [], none⟩, fun _ => .idle⟩
      [true, false, false, true, true] st ∧ RelayStep sampleCalls st false st' ∧
    UsedBefore (fun seen => { cti | cti ∈ seen }) ⟨sampleJtiStore, [], none⟩ st false [7] := by
  have hpre (i : Bool) : (sampleCalls i).precommit sampleAmbient none =
      (.ok samplePreCommit, none) := by
    cases i with
    | true => rfl
    | false => rfl
  obtain ⟨⟨⟨s, g, list⟩, ph⟩, hrun, hphase, rfl⟩ :
      ∃ st, Run (RelayStep sampleCalls) ⟨⟨sampleJtiStore, [], none⟩, fun _ => .idle⟩
        [true, false, false, true, true] st ∧ st.phase false = .entered samplePreCommit ∧
        st.stores.guard = [[7]] :=
    ⟨_, .cons (.decide rfl (hpre true)) <| .cons (.decide rfl (hpre false)) <|
      .cons (@RelayStep.enter _ _ _ _ _ _ _ _ _ _ _ _ _ sampleAmbient _ rfl rfl) <|
      .cons (@RelayStep.enter _ _ _ _ _ _ _ _ _ _ _ _ _ sampleAmbient _ rfl rfl) <|
      .cons (@RelayStep.authorize _ _ _ _ _ _ _ _ _ _ _ _ _ _ false rfl rfl) <| .nil _, rfl, rfl⟩
  have hstep : RelayStep sampleCalls ⟨⟨s, [[7]], list⟩, ph⟩ false _ :=
    .refuse hphase (show (sampleCalls false).commitReplay samplePreCommit [[7]] =
      (.error .replayAttackDetected, [[7], [7]]) from rfl)
  have hexact := (replays_exact sampleCalls_entersSet sampleCalls_recordsInto
    sampleCalls_tellsReplays ⟨InMemoryStrictJtiStore.sound_build _ _ _, rfl⟩ hrun hstep).2.1
    samplePreCommit hphase rfl
  obtain ⟨cti, hcti, hused⟩ := hexact.mp rfl
  obtain rfl := CatReplayObligation.prohibited.inj (Option.some.inj hcti)
  exact ⟨_, _, hrun, hstep, hused⟩

/-- A subscriber's token that may be used once, and is bound to the subscriber's key. -/
def onceToken (issuer : String) (cti : UInt8) : CatToken :=
  { subscribeToken with
    core := { subscribeToken.core with iss := some issuer, cti := some [cti] }
    cat := { catreplay := some .prohibited } }

theorem pressToken_valid : sampleTokenValidator.validate 0 (onceToken "press" 7) = .ok () := by
  decide +kernel

theorem radioToken_valid : sampleTokenValidator.validate 0 (onceToken "radio" 8) = .ok () := by
  decide +kernel

/-- The same subscriber with the tokens of two issuers. The proof is the same one, and is entered
    under each issuer. -/
def apartTokens : Bool → ValidatedToken
  | true => sampleValidated (onceToken "press" 7) pressToken_valid
  | false => sampleValidated (onceToken "radio" 8) radioToken_valid

/-- One call for each of the two tokens, with the same request and the same proof. -/
def apartCalls (i : Bool) :
    RelayCall subscriberHost InMemoryStrictJtiStore InMemoryStrictJtiStore (List Bytes) :=
  .sync subscribeValidator (some .ofList) (apartTokens i) subscribeContext

def apartIssuer (i : Bool) : String := if i then "press" else "radio"

/-- What such a call owes: a key of its issuer to the store, its `cti` to the guard. -/
theorem apartCalls_owes {i : Bool} {env : Ambient} {list : Option CatPorBlockList}
    {pre : PreCommit} (h : ((apartCalls i).precommit env list).1 = .ok pre) :
    pre.jtiCommit =
        some (DpopValidator.commitKey (some (apartIssuer i)) subscriberJkt [1, 2], 1000) ∧
      pre.replay = some (.prohibited [if i then 7 else 8]) := by
  obtain ⟨hreplay, -, hdpop⟩ :=
    MoqtValidator.obligations_ok (MoqtValidator.authorizePrecommit_ok h).2.2
  have hcnf : (apartTokens i).claims.dpop.cnf = some ⟨subscriberJkt, none⟩ := by
    cases i with
    | true | false => rfl
  obtain ⟨validator, proof, haccepted, hkey⟩ := MoqtValidator.dpopCommit_ok hcnf hdpop
  obtain rfl := Option.some.inj haccepted.presented
  obtain rfl := Option.some.inj haccepted.configured
  rw [hkey]
  cases i with
  | true => exact ⟨rfl, (Except.ok.inj hreplay).symm⟩
  | false => exact ⟨rfl, (Except.ok.inj hreplay).symm⟩

theorem apartCalls_ownKeys (i : Bool) : OwnKeys apartCalls
    (fun s => (s.retainedKeys : Set String)) AdmitsJti (fun seen => { cti | cti ∈ seen })
    subscribeStores i where
  key env list pre k iat h hk := by
    obtain ⟨rfl, rfl⟩ := Prod.mk.inj (Option.some.inj ((apartCalls_owes h).1.symm.trans hk))
    refine ⟨?_, ?_, fun j hji env' list' pre' h' heq => ?_⟩
    · unfold AdmitsJti
      cases i with
      | true | false => decide +kernel
    · exact Finset.notMem_empty _
    · rw [(apartCalls_owes h').1] at heq
      obtain ⟨hissuer, -⟩ := DpopValidator.commitKey_eq_iff.mp (Option.some.inj heq)
      cases i with
      | true | false =>
        cases j with
        | true | false => simp_all [apartIssuer]
  cti env list pre cti h hcti := by
    obtain rfl := CatReplayObligation.prohibited.inj
      (Option.some.inj ((apartCalls_owes h).2.symm.trans hcti))
    refine ⟨by simp [subscribeStores], fun j hji env' list' pre' h' heq => ?_⟩
    rw [(apartCalls_owes h').2] at heq
    cases i with
    | true | false =>
      cases j with
      | true | false => simp_all [CatReplayObligation.cti]

theorem apartCalls_decided (i : Bool) : ∃ pre,
    (apartCalls i).precommit ⟨1060, 1060, none⟩ none = (.ok pre, none) := by
  have hok : ((apartCalls i).precommit ⟨1060, 1060, none⟩ none).1.isOk = true := by
    cases i with
    | true | false => decide +kernel
  have hcatpor : (apartCalls i).token.claims.cat.catpor = none := by
    cases i with
    | true | false => rfl
  rw [RelayCall.precommit_blockList hcatpor _ none none]
  cases hpre : ((apartCalls i).precommit ⟨1060, 1060, none⟩ none).1 with
  | ok pre => exact ⟨pre, rfl⟩
  | error e =>
    rw [hpre] at hok
    exact absurd hok (by simp [Except.isOk, Except.toBool])

theorem apartCalls_entersSet (i : Bool) :
    (apartCalls i).EntersSet (fun s => s.Sound ∧ s.maxEntries = some 16)
      (fun s => (s.retainedKeys : Set String)) AdmitsJti (roomFor (some 16)) := by
  intro d hd
  obtain rfl := Option.some.inj hd
  exact InMemoryStrictJtiStore.boundedSet (some 16)

theorem apartCalls_recordsInto (i : Bool) :
    (apartCalls i).RecordsInto fun seen => { cti | cti ∈ seen } := by
  intro G hG
  obtain rfl := Option.some.inj hG
  exact ReplayGuard.ofList_recordsSet

theorem subscribeStores_valid :
    subscribeStores.jti.Sound ∧ subscribeStores.jti.maxEntries = some 16 :=
  ⟨InMemoryStrictJtiStore.sound_build _ _ _, rfl⟩

/-- The store takes sixteen keys, and has none yet. -/
theorem subscribeStores_room :
    (subscribeStores.jti.retainedKeys : Set String).encard + Fintype.card Bool ≤
      roomFor (some 16) := by
  have hempty : subscribeStores.jti.retainedKeys.card = 0 :=
    subscribeStores_valid.1.total_eq_card.symm
  rw [Set.encard_coe_eq_coe_finsetCard, hempty, Fintype.card_bool]
  show ((0 : ℕ) : ℕ∞) + ((2 : ℕ) : ℕ∞) ≤ ((16 : ℕ) : ℕ∞)
  exact_mod_cast Nat.le_of_ble_eq_true rfl

end Cat
