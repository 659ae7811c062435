import Cat.Dpop.Validator
import Cat.Lib.Runs
import Mathlib.Logic.Equiv.Basic

/-!
# Replay over whole runs

A validator and its strict store, called over and over while the clock moves on. A proof that
was accepted is held in the store, or has become too old to be accepted again: this is the
invariant (`ReplayState.Covered`), and with it no proof is accepted twice.

`cleanup_expired_jtis` keeps to it, since it drops records of twice the window. The store's own
`cleanup_expired` drops a record at the age of the window, one second before the proof stops
being fresh. A run in which it never meets a record of exactly that age is safe (`replay_safe`).

The clock is an argument of each step and does not go back; by how much it moves is open. What
the store holds of a proof is its key and its time of issue, so the age of a record is the age
of the proof, whenever it was entered. A step is a call of the validator or one of the two
cleanups, and the condition on a run is a condition on its cleanup steps alone.
-/

set_option autoImplicit false

namespace Cat

open Cbor

inductive ReplayCall (H : Host) where
  | validate (proof : DpopProof H) (action : MoqtAction) (thumbprint : Bytes)
    (accessTokenHash : Option Bytes)
  | cleanupExpired
  | cleanupExpiredJtis

structure TimedCall (H : Host) where
  now : Int64
  call : ReplayCall H

/-- What is signed: a proof without its signature and caches. -/
abbrev SignedContent := DpopHeader × DpopPayload

/-- The store, the last reading of the clock, and the proofs accepted so far. -/
structure ReplayState where
  clock : Int64
  store : InMemoryStrictJtiStore
  accepted : List SignedContent

section
variable {H : Host} (v : DpopValidator InMemoryStrictJtiStore) (issuer : Option String)

def ReplayState.exec (st : ReplayState) (c : TimedCall H) : ReplayState :=
  match c.call with
  | .validate proof action thumbprint ath =>
    match v.validate c.now proof action thumbprint ath issuer st.store with
    | (.ok (), store) => ⟨c.now, store, (proof.header, proof.payload) :: st.accepted⟩
    | (.error _, store) => ⟨c.now, store, st.accepted⟩
  | .cleanupExpired => ⟨c.now, st.store.cleanupExpired c.now, st.accepted⟩
  | .cleanupExpiredJtis => ⟨c.now, v.cleanupExpiredJtis c.now st.store, st.accepted⟩

/-- A call at a reading of the clock that is not before the last one. -/
def ReplayStep (st : ReplayState) (c : TimedCall H) (st' : ReplayState) : Prop :=
  st.clock.toInt ≤ c.now.toInt ∧ st' = st.exec v issuer c

/-- The cleanup of the store meets no record of exactly the window's age. -/
def CleanupSafe (st : ReplayState) (c : TimedCall H) : Prop :=
  c.call = .cleanupExpired → ∀ key iat, st.store.Holds key iat →
    c.now.toInt - iat.toInt ≠ st.store.freshnessWindowSeconds.toInt

/-- What the call drops from the store belongs to proofs that are not fresh any more. -/
def DropsOnlyStale (st : ReplayState) (c : TimedCall H) (st' : ReplayState) : Prop :=
  ∀ (key : String) (p : DpopPayload), st.store.Holds key p.iat → ¬st'.store.Holds key p.iat →
    p.isFresh c.now v.settings.effectiveWindow = false

/-- A record of the content's identifier is held. -/
def SignedContent.Recorded (H : Host) (issuer : Option String) (p : SignedContent)
    (s : InMemoryStrictJtiStore) : Prop :=
  ∃ thumbprint cti, p.1.jwk.thumbprint H = .ok thumbprint ∧ p.2.cti = some cti ∧
    s.Holds (DpopValidator.commitKey issuer thumbprint cti) p.2.iat

/-- Every accepted proof is on record, or too old to be accepted again. -/
structure ReplayState.Covered (H : Host) (st : ReplayState) : Prop where
  window : st.store.freshnessWindowSeconds = v.settings.effectiveWindow
  nodup : st.accepted.Nodup
  recorded : ∀ p ∈ st.accepted, p.Recorded H issuer st.store ∨
    v.settings.effectiveWindow.toInt < st.clock.toInt - p.2.iat.toInt

variable {v issuer} {st st' : ReplayState}

/-! ## One call -/

/-- A successful validation has accepted the proof and entered its identifier. -/
theorem DpopValidator.validate_ok (hstore : v.jtiStore = InMemoryStrictJtiStore.store)
    (hjti : v.settings.shouldHonorJti = true) {now : Int64} {proof : DpopProof H}
    {action : MoqtAction} {thumbprint : Bytes} {ath : Option Bytes}
    {s s' : InMemoryStrictJtiStore}
    (h : v.validate now proof action thumbprint ath issuer s = (.ok (), s')) :
    v.Accepts now proof action thumbprint ath ∧ ∃ cti, proof.payload.cti = some cti ∧
      s.checkAndInsert (commitKey issuer thumbprint cti) proof.payload.iat = (.ok (), s') := by
  unfold validate at h
  split at h
  · exact absurd (Prod.mk.inj h).1 (by simp)
  · rename_i hpre
    have haccepts := v.validateWithoutJtiCommit_ok now proof |>.mp hpre
    obtain ⟨cti, hcti⟩ := Option.isSome_iff_exists.mp haccepts.cti
    refine ⟨haccepts, cti, hcti, ?_⟩
    simpa [insertJti, dpopCommitKey, hjti, dpopCommitKeyForced, hcti, hstore,
      InMemoryStrictJtiStore.store] using h

/-- A validation drops no record. -/
theorem DpopValidator.validate_holds (hstore : v.jtiStore = InMemoryStrictJtiStore.store)
    {now : Int64} {proof : DpopProof H} {action : MoqtAction} {thumbprint : Bytes}
    {ath : Option Bytes} {s s' : InMemoryStrictJtiStore} {r : Except CatError Unit}
    (h : v.validate now proof action thumbprint ath issuer s = (r, s')) :
    s'.freshnessWindowSeconds = s.freshnessWindowSeconds ∧
      ∀ key iat, s.Holds key iat → s'.Holds key iat := by
  unfold validate at h
  split at h
  · obtain rfl := (Prod.mk.inj h).2
    exact ⟨rfl, fun _ _ hheld => hheld⟩
  · unfold insertJti at h
    split at h
    · rw [hstore] at h
      cases r with
      | error e =>
        obtain ⟨hshards, hhash, hwindow⟩ := InMemoryStrictJtiStore.checkAndInsert_error h
        exact ⟨hwindow, fun key iat hheld =>
          (InMemoryStrictJtiStore.holds_congr hshards hhash).mpr hheld⟩
      | ok u =>
        obtain ⟨-, hwindow, hholds⟩ := InMemoryStrictJtiStore.checkAndInsert_ok h
        exact ⟨hwindow, fun key iat hheld => (hholds key iat).mpr (.inr hheld)⟩
    · obtain rfl := (Prod.mk.inj h).2
      exact ⟨rfl, fun _ _ hheld => hheld⟩

/-- The proof a call accepts, if it accepts one. -/
theorem ReplayState.exec_accepted (hstore : v.jtiStore = InMemoryStrictJtiStore.store)
    (hjti : v.settings.shouldHonorJti = true) (c : TimedCall H) :
    (st.exec v issuer c).accepted = st.accepted ∨
      ∃ (proof : DpopProof H) (action : MoqtAction) (thumbprint : Bytes) (ath : Option Bytes)
        (cti : Bytes),
        (st.exec v issuer c).accepted = (proof.header, proof.payload) :: st.accepted ∧
        v.Accepts c.now proof action thumbprint ath ∧ proof.payload.cti = some cti ∧
        st.store.checkAndInsert (DpopValidator.commitKey issuer thumbprint cti) proof.payload.iat =
          (.ok (), (st.exec v issuer c).store) := by
  unfold exec
  cases c.call with
  | validate proof action thumbprint ath =>
    dsimp only
    split
    · rename_i s' hok
      obtain ⟨haccepts, cti, hcti, hinsert⟩ := DpopValidator.validate_ok hstore hjti hok
      exact .inr ⟨proof, action, thumbprint, ath, cti, rfl, haccepts, hcti, hinsert⟩
    · exact .inl rfl
  | cleanupExpired => exact .inl rfl
  | cleanupExpiredJtis => exact .inl rfl

theorem ReplayState.exec_window (hstore : v.jtiStore = InMemoryStrictJtiStore.store)
    (c : TimedCall H) :
    (st.exec v issuer c).store.freshnessWindowSeconds = st.store.freshnessWindowSeconds := by
  unfold exec
  cases c.call with
  | validate proof action thumbprint ath =>
    dsimp only
    split
    · exact (DpopValidator.validate_holds hstore ‹_›).1
    · exact (DpopValidator.validate_holds hstore ‹_›).1
  | cleanupExpired => rfl
  | cleanupExpiredJtis =>
    show (v.jtiStore.cleanup _ _ _).freshnessWindowSeconds = _
    rw [hstore]
    rfl

/-- **What is dropped is older than the window**, if no cleanup of the store meets a record
    of exactly the window's age. -/
theorem ReplayState.exec_dropped (hstore : v.jtiStore = InMemoryStrictJtiStore.store)
    (hwindow : st.store.freshnessWindowSeconds = v.settings.effectiveWindow) {c : TimedCall H}
    (hsafe : CleanupSafe st c) {key : String} {iat : Int64} (hheld : st.store.Holds key iat)
    (hdropped : ¬(st.exec v issuer c).store.Holds key iat) :
    v.settings.effectiveWindow.toInt < c.now.toInt - iat.toInt := by
  have hrange := v.settings.effectiveWindow_range
  unfold exec at hdropped
  cases hcall : c.call with
  | validate proof action thumbprint ath =>
    rw [hcall] at hdropped
    dsimp only at hdropped
    split at hdropped
    · exact absurd ((DpopValidator.validate_holds hstore ‹_›).2 key iat hheld) hdropped
    · exact absurd ((DpopValidator.validate_holds hstore ‹_›).2 key iat hheld) hdropped
  | cleanupExpired =>
    rw [hcall] at hdropped
    have hne := hsafe hcall key iat hheld
    rw [hwindow] at hne
    have hold : ¬c.now.toInt - iat.toInt < st.store.freshnessWindowSeconds.toInt := fun hyoung =>
      hdropped ((InMemoryStrictJtiStore.holds_cleanup (by rw [hwindow]; omega)).mpr
        ⟨hheld, hyoung⟩)
    rw [hwindow] at hold
    omega
  | cleanupExpiredJtis =>
    rw [hcall] at hdropped
    have hexpiry := v.jtiExpirySeconds_toInt
    have hold : ¬c.now.toInt - iat.toInt < v.jtiExpirySeconds.toInt := by
      intro hyoung
      apply hdropped
      show (v.jtiStore.cleanup c.now v.jtiExpirySeconds st.store).Holds key iat
      rw [hstore]
      exact (InMemoryStrictJtiStore.holds_cleanup (by omega)).mpr ⟨hheld, hyoung⟩
    omega

/-! ## Every run -/

/-- A proof that is covered is not accepted once more. -/
theorem ReplayState.Covered.not_accepted (h : st.Covered v issuer H) {now : Int64}
    (hclock : st.clock.toInt ≤ now.toInt) {proof : DpopProof H} {action : MoqtAction}
    {thumbprint cti : Bytes} {ath : Option Bytes}
    (haccepts : v.Accepts now proof action thumbprint ath) (hcti : proof.payload.cti = some cti)
    (hnew : ∀ i, ¬st.store.Holds (DpopValidator.commitKey issuer thumbprint cti) i) :
    (proof.header, proof.payload) ∉ st.accepted := by
  intro hmem
  cases h.recorded _ hmem with
  | inl hrecorded =>
    obtain ⟨thumbprint', cti', ht', hcti', hheld⟩ := hrecorded
    obtain rfl : thumbprint' = thumbprint :=
      Except.ok.inj (ht'.symm.trans haccepts.thumbprint_eq)
    obtain rfl : cti' = cti := Option.some.inj (hcti'.symm.trans hcti)
    exact hnew _ hheld
  | inr hold =>
    have hfresh := (DpopPayload.isFresh_iff.mp haccepts.fresh).2.2.1
    dsimp only at hold
    omega

/-- A proof stays covered: its record is held, or was dropped for its age. -/
theorem ReplayState.Covered.stays (hstore : v.jtiStore = InMemoryStrictJtiStore.store)
    (h : st.Covered v issuer H) {c : TimedCall H} (hclock : st.clock.toInt ≤ c.now.toInt)
    (hsafe : CleanupSafe st c) {p : SignedContent} (hp : p ∈ st.accepted) :
    p.Recorded H issuer (st.exec v issuer c).store ∨
      v.settings.effectiveWindow.toInt < c.now.toInt - p.2.iat.toInt := by
  cases h.recorded p hp with
  | inl hrecorded =>
    obtain ⟨thumbprint, cti, ht, hcti, hheld⟩ := hrecorded
    by_cases hstill : (st.exec v issuer c).store.Holds
        (DpopValidator.commitKey issuer thumbprint cti) p.2.iat
    · exact .inl ⟨thumbprint, cti, ht, hcti, hstill⟩
    · exact .inr (ReplayState.exec_dropped hstore h.window hsafe hheld hstill)
  | inr hold => exact .inr (by omega)

theorem ReplayState.exec_clock (c : TimedCall H) : (st.exec v issuer c).clock = c.now := by
  unfold exec
  cases c.call with
  | validate proof action thumbprint ath =>
    dsimp only
    split <;> rfl
  | cleanupExpired => rfl
  | cleanupExpiredJtis => rfl

/-- One call keeps the accepted proofs covered. -/
theorem ReplayState.Covered.step (hstore : v.jtiStore = InMemoryStrictJtiStore.store)
    (hjti : v.settings.shouldHonorJti = true) (h : st.Covered v issuer H) {c : TimedCall H}
    (hstep : ReplayStep v issuer st c st') (hsafe : CleanupSafe st c) :
    st'.Covered v issuer H := by
  obtain ⟨hclock, rfl⟩ := hstep
  refine ⟨(exec_window hstore c).trans h.window, ?_, ?_⟩
  · rcases exec_accepted hstore hjti c with heq | ⟨proof, _, _, _, _, heq, haccepts, hcti, hinsert⟩
    · rw [heq]
      exact h.nodup
    · rw [heq]
      have hnew := (InMemoryStrictJtiStore.checkAndInsert_ok hinsert).1
      exact List.nodup_cons.mpr ⟨h.not_accepted hclock haccepts hcti hnew, h.nodup⟩
  · intro p hp
    rw [exec_clock]
    rcases exec_accepted hstore hjti c with heq | ⟨proof, _, t, _, cti, heq, haccepts, hcti, hinsert⟩
    · rw [heq] at hp
      exact h.stays hstore hclock hsafe hp
    · rw [heq] at hp
      rcases List.mem_cons.mp hp with rfl | hp
      · have hheld := ((InMemoryStrictJtiStore.checkAndInsert_ok hinsert).2.2 _ _).mpr (.inl rfl)
        exact .inl ⟨t, cti, haccepts.thumbprint_eq, hcti, hheld⟩
      · exact h.stays hstore hclock hsafe hp

variable (v issuer)

/-- A call that meets the condition. -/
def SafeStep (st : ReplayState) (c : TimedCall H) (st' : ReplayState) : Prop :=
  ReplayStep v issuer st c st' ∧ CleanupSafe st c

variable {v issuer}

/-- **No proof is accepted twice, and no fresh record is dropped**, in any run in which no
    cleanup of the store meets a record of exactly the window's age.

    Two ages are compared with one window: a proof is fresh up to and at the window, and a cleanup
    keeps what is younger than the window. The instant between them is the whole condition. Cleanups
    by expiry may come at any time, and so may insertions; the clock is only asked not to run
    back. -/
theorem replay_safe (hstore : v.jtiStore = InMemoryStrictJtiStore.store)
    (hjti : v.settings.shouldHonorJti = true) {clock : Int64} {s : InMemoryStrictJtiStore}
    (hwindow : s.freshnessWindowSeconds = v.settings.effectiveWindow)
    {calls : List (TimedCall H)} (hrun : Run (SafeStep v issuer) ⟨clock, s, []⟩ calls st) :
    st.accepted.Nodup ∧
      ∀ (c : TimedCall H) (st' : ReplayState), SafeStep v issuer st c st' →
        DropsOnlyStale v st c st' := by
  have hcovered : st.Covered v issuer H := by
    refine hrun.invariant (I := (·.Covered v issuer H)) ⟨hwindow, by simp, by simp⟩ ?_
    intro st c st' h hstep
    exact h.step hstore hjti hstep.1 hstep.2
  refine ⟨hcovered.nodup, ?_⟩
  intro c st' ⟨⟨_, heq⟩, hsafe⟩ key p hheld hdropped
  subst heq
  have hold := ReplayState.exec_dropped hstore hcovered.window hsafe hheld hdropped
  by_cases hfresh : p.isFresh c.now v.settings.effectiveWindow = true
  · have := (DpopPayload.isFresh_iff.mp hfresh).2.2.1
    omega
  · exact Bool.eq_false_iff.mpr hfresh

end
/-! ### One proof, shown twice -/

/-- A P-256 key. -/
def subscriberJwk : Jwk where
  kty := "EC"
  crv := some "P-256"
  x := some "F4TbqakZjqiIah51MXL0zgGvcemdaRUTh8QzLHT7aig"
  y := some "mNFWuBPaN03MPOmS5imeGpLI7LSvoIXAGBoOhvYlLNE"

/-- The SHA-256 of the key's canonical JSON. -/
def subscriberJkt : Bytes :=
  BigEndian.ofNat 32 0x47951564cb4ed4b782ba2ad6f22b8f37bac6f13503ee17bef78ac7eec9954855

/-- The SHA-256 of no bytes. -/
def emptyDigest : Bytes :=
  BigEndian.ofNat 32 0xe3b0c44298fc1c149afbf4c8996fb92427ae41e4649b934ca495991b7852b855

/-- What the subscriber signs: `Signature1`, the header, and the payload. -/
def subscribeSigningInput : Bytes :=
  BigEndian.ofNat 225 0x846a5369676e6174757265315861a3012604a50102032620012158201784dba9a9198ea8886a1e753172f4ce01af71e99d69151387c4332c74fb6a2822582098d156b813da374dcc3ce992e6299e1a92c8ecb4afa085c0181a0e86f6252cd1106e64706f702d70726f6f662b63777440586fa4061903e807420102190190a500646d6f7174016953554253435249424502616103617404a1687265736f7572636578196d6f71743a2f2f72656c61793f746e733d595126746e3d64411901925820e3b0c44298fc1c149afbf4c8996fb92427ae41e4649b934ca495991b7852b855

/-- The signature of the input by the subscriber's key. -/
def subscribeSignature : Bytes :=
  BigEndian.ofNat 64 0x6ab775fa8b4e32a4934bfafb999bce3902cb61b05368b43d9a4de4e2c75caad81599bf155d26ccfd41288556f9989f6f5d849bb926eb35890dfa9133f25f709f

/-- The digests of the two inputs that occur, as an injective function. -/
def sampleSha256 : Equiv.Perm Bytes :=
  (Equiv.swap [] emptyDigest).trans (Equiv.swap
    (utf8 (Jwk.canonicalObject [Jwk.canonicalMember "crv" "P-256", Jwk.canonicalMember "kty" "EC",
      Jwk.canonicalMember "x" "F4TbqakZjqiIah51MXL0zgGvcemdaRUTh8QzLHT7aig",
      Jwk.canonicalMember "y" "mNFWuBPaN03MPOmS5imeGpLI7LSvoIXAGBoOhvYlLNE"])) subscriberJkt)

/-- The key as an uncompressed point. -/
def subscriberPoint : Bytes :=
  BigEndian.ofNat 65 0x041784dba9a9198ea8886a1e753172f4ce01af71e99d69151387c4332c74fb6a2898d156b813da374dcc3ce992e6299e1a92c8ecb4afa085c0181a0e86f6252cd1

/-- A host that knows one key, and the one signature by it. -/
def subscriberHost : Host :=
  { Host.reference with
    sha256 := sampleSha256
    p256 := fun key =>
      if key = subscriberPoint then
        .ok fun input signature =>
          if input = subscribeSigningInput ∧ signature = subscribeSignature then .ok ()
          else .error .signatureVerificationFailed
      else .error "no key" }

def subscribeProof : DpopProof subscriberHost :=
  .new ⟨algEs256, dpopTyp, subscriberJwk⟩
    { cti := some [1, 2]
      iat := 1000
      actx := { AuthorizationContext.newMoqt .subscribe [[0x61]] [0x74] with
        resource := some "moqt://relay?tns=YQ&tn=dA" }
      ath := some emptyDigest
      nonce := none } subscribeSignature

/-- A validator with a window of five minutes, and its store. -/
def strictValidator : DpopValidator InMemoryStrictJtiStore :=
  .withJtiStore .new InMemoryStrictJtiStore.store

def strictStore : InMemoryStrictJtiStore := .new (fun _ => 0) 300 16

def subscribeCall (now : Int64) : TimedCall subscriberHost :=
  ⟨now, .validate subscribeProof .subscribe subscriberJkt (some emptyDigest)⟩

def cleanupCall (now : Int64) : TimedCall subscriberHost := ⟨now, .cleanupExpired⟩

def freshState : ReplayState := ⟨1000, strictStore, []⟩

/-- The state after a call. -/
def afterCall (st : ReplayState) (c : TimedCall subscriberHost) : ReplayState :=
  st.exec strictValidator none c

theorem afterCall_clock (st : ReplayState) (c : TimedCall subscriberHost) :
    (afterCall st c).clock = c.now := ReplayState.exec_clock c

theorem afterCall_window (st : ReplayState) (c : TimedCall subscriberHost) :
    (afterCall st c).store.freshnessWindowSeconds = st.store.freshnessWindowSeconds :=
  ReplayState.exec_window rfl c

theorem afterCall_step (st : ReplayState) (c : TimedCall subscriberHost)
    (h : st.clock.toInt ≤ c.now.toInt) : ReplayStep strictValidator none st c (afterCall st c) :=
  ⟨h, rfl⟩

theorem freshState_holds (key : String) (iat : Int64) : ¬freshState.store.Holds key iat := by
  unfold InMemoryStrictJtiStore.Holds
  exact List.not_mem_nil

theorem afterCall_subscribe :
    (afterCall freshState (subscribeCall 1000)).accepted =
      [(subscribeProof.header, subscribeProof.payload)] := by decide +kernel

/-- The record of the proof shown at 1000 is the only one. -/
theorem afterCall_holds {key : String} {iat : Int64}
    (h : (afterCall freshState (subscribeCall 1000)).store.Holds key iat) : iat = 1000 := by
  have haccepted := afterCall_subscribe
  unfold afterCall at h haccepted
  have hcall := @ReplayState.exec_accepted _ strictValidator none freshState rfl rfl
    (subscribeCall 1000)
  rcases hcall with heq | ⟨proof, _, _, _, cti, heq, -, -, hinsert⟩
  · rw [heq] at haccepted
    exact absurd haccepted (by simp [freshState])
  · have hproof := (List.cons.inj (heq.symm.trans haccepted)).1
    rcases ((InMemoryStrictJtiStore.checkAndInsert_ok hinsert).2.2 key iat).mp h with hnew | hheld
    · rw [(Prod.mk.inj hnew).2, (Prod.mk.inj hproof).2]
      rfl
    · exact absurd hheld (freshState_holds key iat)

theorem replay_safe_subscribe :
    (afterCall (afterCall (afterCall freshState (subscribeCall 1000)) (cleanupCall 1299))
      (subscribeCall 1300)).accepted.Nodup := by
  have hvalidate (st : ReplayState) (now : Int64) : CleanupSafe st (subscribeCall now) := by
    intro hcall
    exact absurd hcall (by simp [subscribeCall])
  have hcleanup : CleanupSafe (afterCall freshState (subscribeCall 1000)) (cleanupCall 1299) := by
    intro _ key iat hheld
    rw [afterCall_holds hheld, afterCall_window]
    decide
  have h₁ := afterCall_step freshState (subscribeCall 1000) (by decide)
  have h₂ := afterCall_step (afterCall freshState (subscribeCall 1000)) (cleanupCall 1299)
    (by rw [afterCall_clock]; decide)
  have h₃ := afterCall_step (afterCall (afterCall freshState (subscribeCall 1000))
    (cleanupCall 1299)) (subscribeCall 1300) (by rw [afterCall_clock]; decide)
  have hrun : Run (SafeStep strictValidator none) freshState
      [subscribeCall 1000, cleanupCall 1299, subscribeCall 1300] _ :=
    .cons ⟨h₁, hvalidate _ _⟩ (.cons ⟨h₂, hcleanup⟩ (.cons ⟨h₃, hvalidate _ _⟩ (.nil _)))
  exact (replay_safe rfl rfl rfl hrun).1

/-- The cleanup at the age of 300 drops the record, and the proof is still fresh. -/
theorem replay_not_safe :
    ¬∀ (H : Host) (v : DpopValidator InMemoryStrictJtiStore) (issuer : Option String)
      (clock : Int64) (s : InMemoryStrictJtiStore) (calls : List (TimedCall H)) (st : ReplayState),
      v.jtiStore = InMemoryStrictJtiStore.store → v.settings.shouldHonorJti = true →
      s.freshnessWindowSeconds = v.settings.effectiveWindow →
      Run (ReplayStep v issuer) ⟨clock, s, []⟩ calls st → st.accepted.Nodup := by
  intro h
  have h₁ := afterCall_step freshState (subscribeCall 1000) (by decide)
  have h₂ := afterCall_step (afterCall freshState (subscribeCall 1000)) (cleanupCall 1300)
    (by rw [afterCall_clock]; decide)
  have h₃ := afterCall_step (afterCall (afterCall freshState (subscribeCall 1000))
    (cleanupCall 1300)) (subscribeCall 1300) (by rw [afterCall_clock]; decide)
  have hnodup := h subscriberHost strictValidator none 1000 strictStore _ _ rfl rfl rfl
    (.cons h₁ (.cons h₂ (.cons h₃ (.nil _))))
  have htwice : ¬(afterCall (afterCall (afterCall freshState (subscribeCall 1000))
      (cleanupCall 1300)) (subscribeCall 1300)).accepted.Nodup := by decide +kernel
  exact htwice hnodup

end Cat
