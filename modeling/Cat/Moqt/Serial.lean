import Cat.Moqt.Admission
import Cat.Moqt.StrictSets

/-!
# Interleaved calls have a serial order

However the steps of the calls interleave, there is an order of the calls in which, one after
the other, each would have come to the same end (`serializable`). The calls that reached the
guard come in the order in which they reached it, the rejected ones after them: a key that
rejected a call is still in the store at the end.

It is not the order in which the calls returned. A call can be rejected over the key of a call
that is still under way, and the guard can refuse that one over a third call which started only
then.

The proof builds the serial run along with the interleaved one. `Serialized` is the invariant:
beside a state of the interleaved run there is one of a serial run of the calls that the guard
has judged so far, with the same guard, and with the keys of the store but for those that calls
under way have put there. A step that does not reach the guard leaves the serial run where it is
(`Serialized.move`); a step that does is where the serial run takes the whole call at once
(`Serialized.judge`), which is possible because entering its key in the smaller set is possible
if it was in the larger one. Rejections are taken at the end, and may be rejected for another
reason than they were, which `SameEnd` allows.

What is asked of a store is that it is a bounded set (`EntersSet`), and of the guard nothing.
Tokens with `catpor` are excluded: a draw that refuses one is remembered in the block list,
which makes the order of decisions visible.
-/

set_option autoImplicit false

namespace Cat

open Cbor

/-! ## The store of identifiers as a bounded set

What a call does to the store is told by the set of keys before and after: it enters its key if
it is admitted, not held, and there is room. Nothing else of the store matters to the order of
calls.
-/

section
variable {H : Host} {σ₀ σ γ : Type} {valid : σ → Prop} {keys : σ → Set String}
  {admits : String → Prop} {limit : ℕ∞}

namespace RelayCall

/-- The call's store of identifiers is a bounded set. Its guard may be anything. -/
def EntersSet (valid : σ → Prop) (keys : σ → Set String) (admits : String → Prop) (limit : ℕ∞) :
    RelayCall H σ₀ σ γ → Prop
  | sync v _ _ _ => ∀ d ∈ v.dpopValidator,
      BoundedSet valid keys admits limit d.jtiStore.checkAndInsert
  | async v _ _ _ => BoundedSet valid keys admits limit v.jtiStore.checkAndInsert

/-- The call has a store. -/
def configured : RelayCall H σ₀ σ γ → Bool
  | sync v _ _ _ => v.dpopValidator.isSome
  | async _ _ _ _ => true

/-- What the call owes the store finds its place among the held keys. -/
def Enters (admits : String → Prop) (limit : ℕ∞) (c : RelayCall H σ₀ σ γ) (pre : PreCommit)
    (held : Set String) : Prop :=
  ∀ k iat, pre.jtiCommit = some (k, iat) →
    c.configured = true ∧ BoundedSet.Accepts admits limit held k

variable {c : RelayCall H σ₀ σ γ} {pre : PreCommit} {held held' : Set String}

/-- What finds its place finds it among fewer keys. -/
theorem Enters.mono (h : c.Enters admits limit pre held) (hle : held' ⊆ held) :
    c.Enters admits limit pre held' := fun k iat hk => ⟨(h k iat hk).1, (h k iat hk).2.mono hle⟩

/-- A call with a store has it among the states it is about. -/
theorem EntersSet.finite (hc : c.EntersSet valid keys admits limit) (hconf : c.configured = true)
    {s : σ} (hs : valid s) : (keys s).Finite := by
  cases c with
  | async v guard token ctx => exact hc.finite hs
  | sync v guard token ctx =>
    obtain ⟨d, hd⟩ := Option.isSome_iff_exists.mp hconf
    exact (hc d hd).finite hs

/-- The four facts about entering an identifier, in one place. -/
structure EntersInto (valid : σ → Prop) (keys : σ → Set String) (admits : String → Prop)
    (limit : ℕ∞) (c : RelayCall H σ₀ σ γ) (pre : PreCommit) (s : σ)
    (out : Except CatError Unit × σ) : Prop where
  ok_iff : out.1 = .ok () ↔ c.Enters admits limit pre (keys s)
  entered : out.1 = .ok () → ∀ k, k ∈ keys out.2 ↔ k ∈ keys s ∨ pre.jtiCommit.map Prod.fst = some k
  barred : ∀ e, out.1 = .error e → keys out.2 = keys s
  valid : valid out.2

/-- The facts about a call's commit from those about its store. -/
theorem EntersInto.of_store {op : Int64 → String → Int64 → σ → Except CatError Unit × σ}
    (hop : BoundedSet valid keys admits limit op) (hconf : c.configured = true) {now : Int64}
    {s : σ} (hs : valid s) {key : String} {iat : Int64} (hpre : pre.jtiCommit = some (key, iat)) :
    EntersInto valid keys admits limit c pre s (op now key iat s) where
  ok_iff := by
    rw [hop.accepts_iff now key iat hs]
    constructor
    · intro haccepts k i hk
      obtain ⟨rfl, -⟩ := Prod.mk.inj (Option.some.inj (hpre.symm.trans hk))
      exact ⟨hconf, haccepts⟩
    · intro henters
      exact (henters key iat hpre).2
  entered hok k := by
    rw [hop.accepted now key iat hs hok, hpre]
    simp [or_comm, eq_comm]
  barred e he := hop.refused now key iat hs he
  valid := hop.valid_next now key iat hs

theorem commitJti_entersInto (hc : c.EntersSet valid keys admits limit) {s : σ} (hs : valid s)
    (env : Ambient) (pre : PreCommit) :
    EntersInto valid keys admits limit c pre s (c.commitJti env pre s) := by
  cases hpre : pre.jtiCommit with
  | none =>
    have hout : c.commitJti env pre s = (.ok (), s) := by
      cases c with
      | sync v guard token ctx => simp only [commitJti, MoqtValidator.commitJti, hpre]
      | async v guard token ctx => simp only [commitJti, AsyncMoqtValidator.commitJti, hpre]
    rw [hout]
    exact ⟨by simp [Enters, hpre], by simp [hpre], by simp, hs⟩
  | some entry =>
    obtain ⟨key, iat⟩ := entry
    cases c with
    | async v guard token ctx =>
      simp only [commitJti, AsyncMoqtValidator.commitJti, hpre]
      exact .of_store hc rfl hs hpre
    | sync v guard token ctx =>
      simp only [commitJti, MoqtValidator.commitJti, hpre]
      cases hd : v.dpopValidator with
      | none => exact ⟨by simp [Enters, hpre, configured, hd], by simp, by simp, hs⟩
      | some d => exact .of_store (hc d hd) (by simp [configured, hd]) hs hpre

end RelayCall

/-- The decision on a token without `catpor` does not look at the block list. -/
theorem MoqtValidator.authorizePrecommit_blockList {τ : Type} (v : MoqtValidator τ)
    {token : ValidatedToken} (hcatpor : token.claims.cat.catpor = none) (env : Ambient)
    (ctx : RelayRequestContext H) (configured : Bool) (list list' : Option CatPorBlockList) :
    v.authorizePrecommit env token ctx configured list =
      ((v.authorizePrecommit env token ctx configured list').1, list) := by
  unfold authorizePrecommit checkCatpor
  simp only [hcatpor, Option.isSome_none, Bool.false_eq_true, if_false]
  cases v.checkRestrictions token.claims ctx with
  | error e => rfl
  | ok => rfl

theorem RelayCall.precommit_blockList {c : RelayCall H σ₀ σ γ}
    (hcatpor : c.token.claims.cat.catpor = none) (env : Ambient)
    (list list' : Option CatPorBlockList) :
    c.precommit env list = ((c.precommit env list').1, list) := by
  cases c with
  | sync v guard token ctx =>
    cases guard with
    | none => rfl
    | some G => exact v.authorizePrecommit_blockList hcatpor env ctx true list list'
  | async v guard token ctx =>
    cases guard with
    | none => rfl
    | some G => exact v.sync.authorizePrecommit_blockList hcatpor env ctx true list list'

end

/-! ## Calls one after the other

The serial run takes the calls in the order in which they came to the guard. A call that has
entered its key and not come to the guard yet is not part of it, so the serial store may lack
keys that the interleaved one has: those of calls under way, and only those.
-/

section
variable {ι : Type} [DecidableEq ι] {H : Host} {σ₀ σ γ : Type}

/-- A call from its start to its end, with no step of another one between. -/
structure CallRun (calls : ι → RelayCall H σ₀ σ γ) (st : RelayState ι σ γ) (i : ι)
    (st' : RelayState ι σ γ) : Prop where
  idle : st.phase i = .idle
  steps : ∃ n, Run (RelayStep calls) st (List.replicate n i) st'
  finished : (st'.phase i).outcome.isSome

/-- The same end, a rejection perhaps with another error. -/
inductive SameEnd : CallPhase → CallPhase → Prop where
  | same (p : CallPhase) : SameEnd p p
  | rejected (e e' : CatError) : SameEnd (.rejected e) (.rejected e')

/-- The call has come to the guard. -/
def CallPhase.judged : CallPhase → Bool
  | idle | decided _ | entered _ | rejected _ => false
  | refused _ _ | authorized _ _ => true

/-- How far a serial run of the judged calls has brought it. -/
def CallPhase.serial : CallPhase → CallPhase
  | idle | decided _ | entered _ | rejected _ => .idle
  | refused pre e => .refused pre e
  | authorized pre r => .authorized pre r

/-- The key that a call under way has in the store. -/
def CallPhase.heldKey : CallPhase → Option String
  | entered pre => pre.jtiCommit.map Prod.fst
  | idle | decided _ | rejected _ | refused _ _ | authorized _ _ => none

variable {calls : ι → RelayCall H σ₀ σ γ} {valid : σ → Prop} {keys : σ → Set String}
  {admits : String → Prop} {limit : ℕ∞} {start st st' : RelayState ι σ γ}

/-- The call decided for itself at some time. -/
def RelayCall.Decides (c : RelayCall H σ₀ σ γ) (r : Except CatError PreCommit) : Prop :=
  ∃ env, (c.precommit env none).1 = r

/-- Why a call is rejected: by its own decision, or because the store has no place for its
    key. The latter stays so when more keys are held. -/
def RelayCall.IsRejected (admits : String → Prop) (limit : ℕ∞) (c : RelayCall H σ₀ σ γ)
    (e : CatError) (held : Set String) : Prop :=
  c.Decides (.error e) ∨ ∃ pre, c.Decides (.ok pre) ∧ ¬c.Enters admits limit pre held

theorem RelayCall.IsRejected.mono {c : RelayCall H σ₀ σ γ} {e : CatError}
    {held held' : Set String} (h : c.IsRejected admits limit e held) (hle : held ⊆ held') :
    c.IsRejected admits limit e held' := by
  rcases h with h | ⟨pre, hpre, hnot⟩
  · exact .inl h
  · exact .inr ⟨pre, hpre, fun henters => hnot (henters.mono hle)⟩

/-- An interleaved run so far, beside the serial run of the calls that have been judged. -/
structure Serialized (calls : ι → RelayCall H σ₀ σ γ) (valid : σ → Prop)
    (keys : σ → Set String) (admits : String → Prop) (limit : ℕ∞)
    (start st : RelayState ι σ γ) (order : List ι) (serial : RelayState ι σ γ) : Prop where
  run : Run (CallRun calls) start order serial
  guard : serial.stores.guard = st.stores.guard
  blockList : serial.stores.blockList = st.stores.blockList
  valid_now : valid st.stores.jti
  valid_serial : valid serial.stores.jti
  /-- The store holds what the serial run left and what calls under way have entered. -/
  keys_iff : ∀ k, k ∈ keys st.stores.jti ↔
    k ∈ keys serial.stores.jti ∨ ∃ i, (st.phase i).heldKey = some k
  phase : ∀ i, serial.phase i = (st.phase i).serial
  decided : ∀ i pre, st.phase i = .decided pre ∨ st.phase i = .entered pre →
    (calls i).Decides (.ok pre)
  held : ∀ i k, (st.phase i).heldKey = some k → (calls i).configured = true ∧ admits k ∧
    k ∉ keys serial.stores.jti ∧ (keys st.stores.jti).encard ≤ limit
  unique : ∀ i j k, (st.phase i).heldKey = some k → (st.phase j).heldKey = some k → i = j
  rejected : ∀ i e, st.phase i = .rejected e →
    (calls i).IsRejected admits limit e (keys st.stores.jti)
  mem_order : ∀ i, i ∈ order ↔ (st.phase i).judged = true

/-! ## Steps

A step of the interleaved run is none of the serial one, or, when a call comes to the guard, all
of its steps at once. That the key finds a place in the serial store follows from there being
fewer keys in it.
-/

namespace CallPhase

variable {p : CallPhase}

theorem outcome_of_judged (h : p.judged = true) : p.outcome.isSome := by
  cases p with
  | idle | decided | entered | rejected => exact absurd h (by simp [judged])
  | refused | authorized => rfl

/-- Once the guard has judged a call, the serial run has it where it is, and it holds no key of its
    own any more. -/
theorem serial_of_judged (h : p.judged = true) : p.serial = p := by
  cases p with
  | idle | decided | entered | rejected => exact absurd h (by simp [judged])
  | refused | authorized => rfl

theorem serial_of_not_judged (h : p.judged = false) : p.serial = .idle := by
  cases p with
  | idle | decided | entered | rejected => rfl
  | refused | authorized => exact absurd h (by simp [judged])

theorem heldKey_of_judged (h : p.judged = true) : p.heldKey = none := by
  cases p with
  | idle | decided | entered | rejected => exact absurd h (by simp [judged])
  | refused | authorized => rfl

end CallPhase

/-- A call that enters a key, or none, or is rejected: the serial run waits for it. -/
theorem Serialized.move {s s' : σ} {g : γ} {blockList : Option CatPorBlockList}
    {ph : ι → CallPhase} {order : List ι} {serial : RelayState ι σ γ} {i : ι} {p : CallPhase}
    (h : Serialized calls valid keys admits limit start ⟨⟨s, g, blockList⟩, ph⟩ order serial)
    (hfrom : (ph i).judged = false) (hheldNone : (ph i).heldKey = none) (hto : p.judged = false)
    (hvalid : valid s') (hkeys : ∀ k, k ∈ keys s' ↔ k ∈ keys s ∨ p.heldKey = some k)
    (hdecided : ∀ pre, p = .decided pre ∨ p = .entered pre → (calls i).Decides (.ok pre))
    (hheld : ∀ k, p.heldKey = some k → (calls i).configured = true ∧ admits k ∧ k ∉ keys s ∧
      (keys s').encard ≤ limit)
    (hrejected : ∀ e, p = .rejected e → (calls i).IsRejected admits limit e (keys s')) :
    Serialized calls valid keys admits limit start
      ⟨⟨s', g, blockList⟩, Function.update ph i p⟩ order serial := by
  have hsub : keys s ⊆ keys s' := fun k hk => (hkeys k).mpr (.inl hk)
  -- a key that is entered now was not in the store, so no other call holds it
  have hclash (l : ι) (k : String) (hl : (ph l).heldKey = some k) : p.heldKey ≠ some k :=
    fun hp => (hheld k hp).2.2.1 ((h.keys_iff k).mpr (.inr ⟨l, hl⟩))
  have hbound (hold : (keys s).encard ≤ limit) : (keys s').encard ≤ limit := by
    cases hp : p.heldKey with
    | some k => exact (hheld k hp).2.2.2
    | none =>
      have hsame : keys s' = keys s := Set.ext fun k => by rw [hkeys k, hp]; simp
      rw [hsame]
      exact hold
  refine ⟨h.run, h.guard, h.blockList, hvalid, h.valid_serial, ?_, ?_, ?_, ?_, ?_, ?_, ?_⟩
  · intro k
    dsimp only
    rw [hkeys k, h.keys_iff k, or_assoc]
    apply or_congr_right
    constructor
    · rintro (⟨j, hj⟩ | hi)
      · refine ⟨j, ?_⟩
        rw [Function.update_of_ne]
        · exact hj
        · rintro rfl
          exact absurd (hheldNone.symm.trans hj) (by simp)
      · exact ⟨i, by rw [Function.update_self]; exact hi⟩
    · rintro ⟨j, hj⟩
      by_cases hji : j = i
      · rw [hji, Function.update_self] at hj
        exact .inr hj
      · rw [Function.update_of_ne hji] at hj
        exact .inl ⟨j, hj⟩
  · apply (Function.forall_update_iff ph (p := fun j q => serial.phase j = q.serial)).mpr
    refine ⟨?_, fun j _ => h.phase j⟩
    rw [h.phase i, CallPhase.serial_of_not_judged hfrom, CallPhase.serial_of_not_judged hto]
  · exact (Function.forall_update_iff ph (p := fun j q => ∀ pre, q = .decided pre ∨
      q = .entered pre → (calls j).Decides (.ok pre))).mpr ⟨hdecided, fun j _ => h.decided j⟩
  · apply (Function.forall_update_iff ph (p := fun j q => ∀ k, q.heldKey = some k →
      (calls j).configured = true ∧ admits k ∧ k ∉ keys serial.stores.jti ∧
        (keys s').encard ≤ limit)).mpr
    constructor
    · intro k hk
      obtain ⟨hconf, hadmits, hnew, hle⟩ := hheld k hk
      exact ⟨hconf, hadmits, fun hs => hnew ((h.keys_iff k).mpr (.inl hs)), hle⟩
    · intro j _ k hk
      obtain ⟨hconf, hadmits, hnew, hle⟩ := h.held j k hk
      exact ⟨hconf, hadmits, hnew, hbound hle⟩
  · intro j j' k hj hj'
    dsimp only at hj hj'
    by_cases hji : j = i
    · by_cases hji' : j' = i
      · rw [hji, hji']
      · rw [hji, Function.update_self] at hj
        rw [Function.update_of_ne hji'] at hj'
        exact absurd hj (hclash j' k hj')
    · rw [Function.update_of_ne hji] at hj
      by_cases hji' : j' = i
      · rw [hji', Function.update_self] at hj'
        exact absurd hj' (hclash j k hj)
      · rw [Function.update_of_ne hji'] at hj'
        exact h.unique j j' k hj hj'
  · exact (Function.forall_update_iff ph (p := fun j q => ∀ e, q = .rejected e →
      (calls j).IsRejected admits limit e (keys s'))).mpr
        ⟨hrejected, fun j _ e he => (h.rejected j e he).mono hsub⟩
  · apply (Function.forall_update_iff ph (p := fun j q => j ∈ order ↔ q.judged = true)).mpr
    refine ⟨?_, fun j _ => h.mem_order j⟩
    rw [h.mem_order i]
    dsimp only
    rw [hfrom, hto]

/-- A call that comes to the guard: the serial run takes it now, from its start. -/
theorem Serialized.judge {s : σ} {g g' : γ} {blockList : Option CatPorBlockList}
    {ph : ι → CallPhase} {order : List ι} {serial : RelayState ι σ γ} {i : ι} {p : CallPhase}
    {pre : PreCommit}
    (hcalls : ∀ i, (calls i).EntersSet valid keys admits limit)
    (hcatpor : ∀ i, (calls i).token.claims.cat.catpor = none)
    (h : Serialized calls valid keys admits limit start ⟨⟨s, g, blockList⟩, ph⟩ order serial)
    (hfrom : ph i = .entered pre) (hto : p.judged = true)
    (hstep : ∀ (s : σ) (blockList : Option CatPorBlockList) (ph : ι → CallPhase),
      ph i = .entered pre → RelayStep calls ⟨⟨s, g, blockList⟩, ph⟩ i
        ⟨⟨s, g', blockList⟩, Function.update ph i p⟩) :
    ∃ order' serial', Serialized calls valid keys admits limit start
      ⟨⟨s, g', blockList⟩, Function.update ph i p⟩ order' serial' := by
  obtain ⟨⟨s₁, g₁, blockList₁⟩, ph₁⟩ := serial
  obtain rfl : g₁ = g := h.guard
  obtain rfl : blockList₁ = blockList := h.blockList
  obtain ⟨env, hdecide⟩ := h.decided i pre (.inr hfrom)
  have hprecommit : (calls i).precommit env blockList₁ = (.ok pre, blockList₁) := by
    rw [RelayCall.precommit_blockList (hcatpor i) env blockList₁ none, hdecide]
  have hidle : ph₁ i = .idle := by
    have hphase := h.phase i
    dsimp only at hphase
    rw [hphase, hfrom]
    rfl
  -- the key that the call has in the store finds its place in the serial run too
  have hinto := RelayCall.commitJti_entersInto (hcalls i) h.valid_serial env pre
  have henters : (calls i).Enters admits limit pre (keys s₁) := by
    intro k iat hk
    have hkey : (ph i).heldKey = some k := by rw [hfrom]; simp [CallPhase.heldKey, hk]
    obtain ⟨hconf, hadmits, hnew, hbound⟩ := h.held i k hkey
    exact ⟨hconf, .of_mem hadmits hnew ((h.keys_iff k).mpr (.inr ⟨i, hkey⟩))
      (fun k hk => (h.keys_iff k).mpr (.inl hk)) hbound
      (RelayCall.EntersSet.finite (hcalls i) hconf h.valid_serial)⟩
  obtain ⟨r₁, s₂, hout⟩ : ∃ r₁ s₂, (calls i).commitJti env pre s₁ = (r₁, s₂) := ⟨_, _, rfl⟩
  rw [hout] at hinto
  obtain rfl : r₁ = .ok () := hinto.ok_iff.mpr henters
  have hblock : CallRun calls ⟨⟨s₁, g₁, blockList₁⟩, ph₁⟩ i
      ⟨⟨s₂, g', blockList₁⟩, Function.update ph₁ i p⟩ := by
    refine ⟨hidle, ⟨3, ?_⟩, ?_⟩
    · have hlast := hstep s₂ blockList₁
        (Function.update (Function.update ph₁ i (.decided pre)) i (.entered pre))
        (Function.update_self ..)
      rw [Function.update_idem, Function.update_idem] at hlast
      refine .cons (.decide hidle hprecommit) (.cons (.enter (Function.update_self ..) hout) ?_)
      rw [Function.update_idem]
      exact .cons hlast (.nil _)
    · dsimp only
      rw [Function.update_self]
      exact CallPhase.outcome_of_judged hto
  have hpnone := CallPhase.heldKey_of_judged hto
  have hkey (k : String) : (ph i).heldKey = some k ↔ pre.jtiCommit.map Prod.fst = some k := by
    rw [hfrom]
    rfl
  refine ⟨order ++ [i], _, h.run.append (.cons hblock (.nil _)), rfl, rfl, h.valid_now,
    hinto.valid, ?_, ?_, ?_, ?_, ?_, ?_, ?_⟩
  · intro k
    dsimp only
    rw [h.keys_iff k, hinto.entered rfl k, or_assoc]
    apply or_congr_right
    constructor
    · rintro ⟨j, hj⟩
      by_cases hji : j = i
      · rw [hji] at hj
        exact .inl ((hkey k).mp hj)
      · exact .inr ⟨j, by rw [Function.update_of_ne hji]; exact hj⟩
    · rintro (hk | ⟨j, hj⟩)
      · exact ⟨i, (hkey k).mpr hk⟩
      · refine ⟨j, ?_⟩
        rw [Function.update_of_ne] at hj
        · exact hj
        · rintro rfl
          rw [Function.update_self, hpnone] at hj
          exact absurd hj (by simp)
  · intro j
    dsimp only
    by_cases hji : j = i
    · rw [hji, Function.update_self, Function.update_self, CallPhase.serial_of_judged hto]
    · rw [Function.update_of_ne hji, Function.update_of_ne hji]
      exact h.phase j
  · apply (Function.forall_update_iff ph (p := fun j q => ∀ pre, q = .decided pre ∨
      q = .entered pre → (calls j).Decides (.ok pre))).mpr
    refine ⟨?_, fun j _ => h.decided j⟩
    rintro pre' (rfl | rfl)
    · exact absurd hto (by simp [CallPhase.judged])
    · exact absurd hto (by simp [CallPhase.judged])
  · apply (Function.forall_update_iff ph (p := fun j q => ∀ k, q.heldKey = some k →
      (calls j).configured = true ∧ admits k ∧ k ∉ keys s₂ ∧ (keys s).encard ≤ limit)).mpr
    constructor
    · intro k hk
      exact absurd (hpnone.symm.trans hk) (by simp)
    · intro j hji k hk
      obtain ⟨hconf, hadmits, hnew, hle⟩ := h.held j k hk
      refine ⟨hconf, hadmits, ?_, hle⟩
      rw [hinto.entered rfl k]
      rintro (hold | hi)
      · exact hnew hold
      · exact hji (h.unique j i k hk ((hkey k).mpr hi))
  · intro j j' k hj hj'
    dsimp only at hj hj'
    have hne (l : ι) (hl : (Function.update ph i p l).heldKey = some k) :
        (ph l).heldKey = some k := by
      rw [Function.update_of_ne] at hl
      · exact hl
      · rintro rfl
        rw [Function.update_self, hpnone] at hl
        exact absurd hl (by simp)
    exact h.unique j j' k (hne j hj) (hne j' hj')
  · apply (Function.forall_update_iff ph (p := fun j q => ∀ e, q = .rejected e →
      (calls j).IsRejected admits limit e (keys s))).mpr
    refine ⟨?_, fun j _ => h.rejected j⟩
    rintro e rfl
    exact absurd hto (by simp [CallPhase.judged])
  · intro j
    dsimp only
    rw [List.mem_append, List.mem_singleton, h.mem_order j]
    by_cases hji : j = i
    · rw [hji, Function.update_self, hto]
      simp
    · rw [Function.update_of_ne hji]
      simp [hji]

/-- A decision on a token without `catpor` is one that the call takes whatever the list. -/
theorem RelayCall.decides_of_precommit {c : RelayCall H σ₀ σ γ} {env : Ambient}
    {r : Except CatError PreCommit} {list list' : Option CatPorBlockList}
    (hcatpor : c.token.claims.cat.catpor = none) (h : c.precommit env list = (r, list')) :
    c.Decides r ∧ list' = list := by
  rw [precommit_blockList hcatpor env list none] at h
  exact ⟨⟨env, (Prod.mk.inj h).1⟩, (Prod.mk.inj h).2.symm⟩

/-- **Every step keeps a serial run beside the interleaved one.** -/
theorem Serialized.step (hcalls : ∀ i, (calls i).EntersSet valid keys admits limit)
    (hcatpor : ∀ i, (calls i).token.claims.cat.catpor = none) {order : List ι}
    {serial : RelayState ι σ γ} {i : ι}
    (h : Serialized calls valid keys admits limit start st order serial)
    (hstep : RelayStep calls st i st') :
    ∃ order' serial', Serialized calls valid keys admits limit start st' order' serial' := by
  cases hstep with
  | decide hph hdecide =>
    -- A decision leaves the stores alone, so the serial run stays as it is.
    obtain ⟨hdecides, rfl⟩ := RelayCall.decides_of_precommit (hcatpor i) hdecide
    refine ⟨order, serial, h.move (by rw [hph]; rfl) (by rw [hph]; rfl) rfl h.valid_now ?_ ?_ ?_ ?_⟩
    · intro k
      simp [CallPhase.heldKey]
    · rintro pre (hp | hp)
      · obtain rfl := CallPhase.decided.inj hp
        exact hdecides
      · exact absurd hp (by simp)
    · intro k hk
      exact absurd hk (by simp [CallPhase.heldKey])
    · intro e he
      exact absurd he (by simp)
  | reject hph hdecide =>
    -- The call ends here, with the error of its decision.
    obtain ⟨hdecides, rfl⟩ := RelayCall.decides_of_precommit (hcatpor i) hdecide
    refine ⟨order, serial, h.move (by rw [hph]; rfl) (by rw [hph]; rfl) rfl h.valid_now ?_ ?_ ?_ ?_⟩
    · intro k
      simp [CallPhase.heldKey]
    · rintro pre (hp | hp)
      · exact absurd hp (by simp)
      · exact absurd hp (by simp)
    · intro k hk
      exact absurd hk (by simp [CallPhase.heldKey])
    · intro e he
      obtain rfl := CallPhase.rejected.inj he
      exact .inl hdecides
  | @enter s s' g list ph _ env pre hph hcommit =>
    have hinto := RelayCall.commitJti_entersInto (hcalls i) h.valid_now env pre
    dsimp only at hinto
    rw [hcommit] at hinto
    refine ⟨order, serial,
      h.move (by rw [hph]; rfl) (by rw [hph]; rfl) rfl hinto.valid (hinto.entered rfl) ?_ ?_ ?_⟩
    · rintro pre' (hp | hp)
      · exact absurd hp (by simp)
      · obtain rfl := CallPhase.entered.inj hp
        exact h.decided i pre (.inl hph)
    · intro k hk
      obtain ⟨⟨key, iat⟩, hentry, rfl⟩ := Option.map_eq_some_iff.mp hk
      -- The store took the key, so it was admitted, not yet there, and there was room.
      obtain ⟨hconf, haccepts⟩ := hinto.ok_iff.mp rfl key iat hentry
      have hinsert : keys s' = insert key (keys s) := by
        ext k
        rw [hinto.entered rfl k, hentry, Set.mem_insert_iff, or_comm]
        simp [eq_comm]
      refine ⟨hconf, haccepts.admitted, haccepts.fresh, ?_⟩
      rw [hinsert]
      exact haccepts.encard_insert_le
    · intro e he
      exact absurd he (by simp)
  | @bar s s' g list ph _ env pre e hph hcommit =>
    have hinto := RelayCall.commitJti_entersInto (hcalls i) h.valid_now env pre
    dsimp only at hinto
    rw [hcommit] at hinto
    have hsame : keys s' = keys s := hinto.barred e rfl
    refine ⟨order, serial,
      h.move (by rw [hph]; rfl) (by rw [hph]; rfl) rfl hinto.valid ?_ ?_ ?_ ?_⟩
    · intro k
      -- A barred commit leaves the keys of the store as they were.
      rw [hsame]
      simp [CallPhase.heldKey]
    · rintro pre' (hp | hp)
      · exact absurd hp (by simp)
      · exact absurd hp (by simp)
    · intro k hk
      exact absurd hk (by simp [CallPhase.heldKey])
    · intro e' _
      refine .inr ⟨pre, h.decided i pre (.inl hph), fun henters => ?_⟩
      rw [hsame] at henters
      exact absurd (hinto.ok_iff.mpr henters) (by simp)
  | authorize hph hcommit =>
    exact h.judge hcalls hcatpor hph rfl fun _ _ _ hentered => .authorize hentered hcommit
  | refuse hph hcommit =>
    exact h.judge hcalls hcatpor hph rfl fun _ _ _ hentered => .refuse hentered hcommit

/-- At the start neither run has taken a step. -/
theorem Serialized.init (stores : RelayStores σ γ) (hvalid : valid stores.jti) :
    Serialized calls valid keys admits limit ⟨stores, fun _ => .idle⟩ ⟨stores, fun _ => .idle⟩ []
      ⟨stores, fun _ => .idle⟩ where
  run := .nil _
  guard := rfl
  blockList := rfl
  valid_now := hvalid
  valid_serial := hvalid
  keys_iff k := by simp [CallPhase.heldKey]
  phase i := rfl
  decided i pre h := by simp at h
  held i k h := absurd h (by simp [CallPhase.heldKey])
  unique i j k h := absurd h (by simp [CallPhase.heldKey])
  rejected i e h := absurd h (by simp)
  mem_order i := by simp [CallPhase.judged]

/-! ## The rejected calls

They are put at the end. A call that was rejected because its key was held is rejected there,
since keys are not taken out; one that found no room finds none, since the store has as many
keys as ever. The error may be another one.
-/

/-- A call that is to be rejected is, and leaves the stores as they were but for what else
    the store of identifiers keeps. -/
theorem CallRun.reject (hcalls : ∀ i, (calls i).EntersSet valid keys admits limit)
    (hcatpor : ∀ i, (calls i).token.claims.cat.catpor = none) {i : ι} {e : CatError}
    (hvalid : valid st.stores.jti) (hidle : st.phase i = .idle)
    (hrejected : (calls i).IsRejected admits limit e (keys st.stores.jti)) :
    ∃ s' e', CallRun calls st i
        ⟨⟨s', st.stores.guard, st.stores.blockList⟩, Function.update st.phase i (.rejected e')⟩ ∧
      valid s' ∧ keys s' = keys st.stores.jti := by
  obtain ⟨⟨s, g, list⟩, ph⟩ := st
  have hprecommit {r : Except CatError PreCommit} {env : Ambient}
      (h : ((calls i).precommit env none).1 = r) : (calls i).precommit env list = (r, list) := by
    rw [RelayCall.precommit_blockList (hcatpor i) env list none, h]
  have hdone (e : CatError) : (Function.update ph i (.rejected e) i).outcome.isSome := by
    rw [Function.update_self]
    rfl
  rcases hrejected with ⟨env, hdecides⟩ | ⟨pre, ⟨env, hdecides⟩, hnot⟩
  · exact ⟨s, e, ⟨hidle, ⟨1, .cons (.reject hidle (hprecommit hdecides)) (.nil _)⟩, hdone e⟩,
      hvalid, rfl⟩
  · have hinto := RelayCall.commitJti_entersInto (hcalls i) hvalid env pre
    obtain ⟨r, s', hout⟩ : ∃ r s', (calls i).commitJti env pre s = (r, s') := ⟨_, _, rfl⟩
    dsimp only at hinto
    rw [hout] at hinto
    cases r with
    | ok => exact absurd (hinto.ok_iff.mp rfl) hnot
    | error e' =>
      refine ⟨s', e', ⟨hidle, ⟨2, ?_⟩, hdone e'⟩, hinto.valid, hinto.barred e' rfl⟩
      have hbar : RelayStep calls ⟨⟨s, g, list⟩, Function.update ph i (.decided pre)⟩ i _ :=
        .bar (Function.update_self ..) hout
      rw [Function.update_idem] at hbar
      exact .cons (.decide hidle (hprecommit hdecides)) (.cons hbar (.nil _))

/-- Rejected calls, one after the other. -/
theorem CallRun.rejectAll (hcalls : ∀ i, (calls i).EntersSet valid keys admits limit)
    (hcatpor : ∀ i, (calls i).token.claims.cat.catpor = none) {is : List ι} (hnodup : is.Nodup)
    (hvalid : valid st.stores.jti) (hidle : ∀ i ∈ is, st.phase i = .idle)
    (hrejected : ∀ i ∈ is, ∃ e, (calls i).IsRejected admits limit e (keys st.stores.jti)) :
    ∃ st', Run (CallRun calls) st is st' ∧ st'.stores.guard = st.stores.guard ∧
      st'.stores.blockList = st.stores.blockList ∧ keys st'.stores.jti = keys st.stores.jti ∧
      (∀ i ∈ is, ∃ e, st'.phase i = .rejected e) ∧ ∀ i ∉ is, st'.phase i = st.phase i := by
  induction is generalizing st with
  | nil => exact ⟨st, .nil st, rfl, rfl, rfl, by simp, fun i _ => rfl⟩
  | cons i is ih =>
    obtain ⟨hi, hnodup⟩ := List.nodup_cons.mp hnodup
    obtain ⟨e, he⟩ := hrejected i List.mem_cons_self
    obtain ⟨s', e', hrun, hvalid', hkeys⟩ :=
      CallRun.reject hcalls hcatpor hvalid (hidle i List.mem_cons_self) he
    let mid : RelayState ι σ γ :=
      ⟨⟨s', st.stores.guard, st.stores.blockList⟩, Function.update st.phase i (.rejected e')⟩
    have hidle' : ∀ j ∈ is, mid.phase j = .idle := by
      intro j hj
      have hji : j ≠ i := fun heq => hi (heq ▸ hj)
      exact (Function.update_of_ne hji ..).trans (hidle j (List.mem_cons_of_mem i hj))
    have hrejected' : ∀ j ∈ is,
        ∃ e, (calls j).IsRejected admits limit e (keys mid.stores.jti) := by
      intro j hj
      show ∃ e, (calls j).IsRejected admits limit e (keys s')
      rw [hkeys]
      exact hrejected j (List.mem_cons_of_mem i hj)
    obtain ⟨st', hrest, hguard, hlist, hkeys', hall, hsame⟩ :=
      @ih mid hnodup hvalid' hidle' hrejected'
    refine ⟨st', .cons hrun hrest, hguard, hlist, hkeys'.trans hkeys, ?_, ?_⟩
    · intro j hj
      cases List.mem_cons.mp hj with
      | inr hj => exact hall j hj
      | inl hji =>
        obtain rfl := hji
        exact ⟨e', by rw [hsame j hi]; exact Function.update_self ..⟩
    · intro j hj
      have hji : j ≠ i := by
        rintro rfl
        exact hj List.mem_cons_self
      rw [hsame j fun h => hj (List.mem_cons_of_mem i h)]
      exact Function.update_of_ne hji ..

/-! ## The serial order

The judged calls in the order of the guard, then the rejected ones. Of the latter the order does
not matter.
-/

/-- A call that took no step is where it was. -/
theorem RelayStep.run_phase_of_not_mem {i : ι} {es : List ι} (h : Run (RelayStep calls) st es st')
    (hi : i ∉ es) : st'.phase i = st.phase i := by
  induction h with
  | nil => rfl
  | cons step _ ih =>
    rw [ih fun hmem => hi (List.mem_cons_of_mem _ hmem)]
    have hne : i ≠ _ := fun heq => hi (heq ▸ List.mem_cons_self)
    cases step <;> exact Function.update_of_ne hne ..

end

/-! ### The two calls with one token -/

theorem sampleCalls_entersSet (i : Bool) : (sampleCalls i).EntersSet
    (fun s => s.Sound ∧ s.maxEntries = some 16) (fun s => (s.retainedKeys : Set String)) AdmitsJti
    (roomFor (some 16)) := by
  cases i with
  | true =>
    intro d hd
    obtain rfl := Option.some.inj hd
    exact InMemoryStrictJtiStore.boundedSet (some 16)
  | false => exact InMemoryStrictJtiStore.boundedSet (some 16)

end Cat
